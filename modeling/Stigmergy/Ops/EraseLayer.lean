import Mathlib.Logic.Function.Basic
import Stigmergy.Lib.Runs
import Stigmergy.Ops.Erasure

/-!
# Erasing a layer

A run of an erasure, `run_claimed` of `ops/erase_layer.py`, cut where the writer can stop and where
other people can move the remote: each action reads or changes the remote, or is one statement on the
rows.  The single writer is at one phase at a time; `events` keeps what happened, newest first.

* `reached`          whether the remote already holds the stored rewrite;
* `step`             one action of an administrator, of other people, of the writer;
* `Safe`             one open request a layer, one recorded rewrite a tenant, a request that reached
                     the remote never fails and its rows are remapped with the map that was pushed;
* `Undisturbed`      every rewrite leaves a knowledge branch, and when a run looks for a push of its
                     request that was not recorded, nobody has moved the other refs it changed.

`git` and `git-filter-repo` are the parameter `G`; a push moves all its refs or none.  The bucket, the
index and the redaction of rows are not kept: `purge` and `collect` take what they count as arguments.
-/

set_option linter.unusedSectionVars false

namespace EraseLayer

open Erasure

/-- branches and tags with their commits -/
abbrev Refs (γ : Type*) := AList fun _ : Text => γ

/-- what `git-filter-repo` leaves of a mirror -/
structure Filtered (γ : Type*) where
  refs : Refs γ
  commitMap : List (γ × Option γ)
  firstChanged : List γ

structure Git (γ : Type*) where
  isAncestor : γ → γ → Bool
  isAncestor_refl : ∀ a, isAncestor a a = true
  isAncestor_trans : ∀ a b c, isAncestor a b = true → isAncestor b c = true → isAncestor a c = true
  /-- a commit from here back touches the folder -/
  holds : Text → γ → Bool
  filter : Text → Refs γ → Filtered γ

inductive Event (ι γ : Type*) where
  | recorded (id : ι) (rewrite : Rewrite γ)
  /-- a push reached the remote -/
  | delivered (id : ι) (rewrite : Rewrite γ)
  /-- `_reached` said yes -/
  | found (id : ι) (rewrite : Rewrite γ)
  | remapped (id : ι) (rewrite : Rewrite γ)
  | failed (id : ι)
deriving DecidableEq

section
variable (ι τ γ : Type*)

/-- where the writer is in `run_claimed` -/
inductive Phase where
  | idle
  | claiming
  | begun (i : Item ι τ γ)
  | named (i : Item ι τ γ)
  | rewriting (i : Item ι τ γ)
  | mirrored (i : Item ι τ γ) (before : Refs γ)
  /-- the rewrite is recorded; its push comes next -/
  | stored (i : Item ι τ γ) (before after : Refs γ) (rewrite : Rewrite γ)
  /-- the remote holds the rewrite; `mark_pushed` comes next -/
  | sent (i : Item ι τ γ)
  | published (i : Item ι τ γ)
  | checked (i : Item ι τ γ)
  | purged (i : Item ι τ γ)
  | collected (i : Item ι τ γ)
  /-- in the `except` of `run_claimed`, before and after it looked at the remote -/
  | failing (i : Item ι τ γ) (error : Text)
  | deciding (i : Item ι τ γ) (error : Text) (final : Bool)

structure World where
  groups : τ → List Text
  rows : List (Request ι τ γ)
  remote : τ → Refs γ
  /-- the commit ids other rows of the tenant hold -/
  commits : τ → List (Option γ)
  phase : Phase ι τ γ
  events : List (Event ι γ)

inductive Action where
  | request (id : ι) (tenant : τ) (layer actor : Text) (now : Time)
  | regroup (tenant : τ) (names : List Text)
  /-- other people move, make or delete a ref that is not the knowledge branch -/
  | move (tenant : τ) (ref : Text) (value : Option γ)
  /-- the knowledge branch moves forward -/
  | land (tenant : τ) (tip : γ)
  | giveUp (now : Time)
  | claim (now : Time)
  | names (found : List Text)
  | look
  | mirror
  | record
  /-- the push; the writer may not hear that it succeeded -/
  | push (heard : Bool)
  | mark
  | check
  | purge (counts : List (Text × ℕ)) (garbage : List Text)
  | collect (deleted : ℕ)
  | finish (pages : ℕ) (now : Time)
  | raise (error : Text)
  | decide
  | fail (now : Time)
  | stop

end

namespace Phase
variable {ι τ γ : Type*}

/-- the phases inside `erase` -/
def attempt : Phase ι τ γ → Option (Item ι τ γ)
  | idle | claiming | failing _ _ | deciding _ _ _ => none
  | begun i | named i | rewriting i | mirrored i _ | stored i _ _ _ | sent i | published i
  | checked i | purged i | collected i => some i

end Phase

section
variable {ι τ γ : Type*} [DecidableEq ι] [DecidableEq τ] [DecidableEq γ]

/-! ## The rewrite and the remote -/

def anyHolds (G : Git γ) (layer : Text) (refs : Refs γ) : Bool :=
  refs.entries.any fun e => G.holds (folderOf layer) e.2

/-- `changed` of `_rewrite_and_push` -/
def changedRefs (before after : Refs γ) : List Text :=
  sortedSet (before.keys.filter fun ref => after.lookup ref != before.lookup ref)

def rewriteOf (before : Refs γ) (f : Filtered γ) : Rewrite γ where
  commitMap := f.commitMap
  refs := changedRefs before f.refs
  after := (changedRefs before f.refs).map fun ref => (ref, f.refs.lookup ref)
  firstChanged := f.firstChanged

def setRef (ref : Text) (value : Option γ) (refs : Refs γ) : Refs γ :=
  match value with
  | some commit => refs.insert ref commit
  | none => refs.erase ref

/-- the refs of an accepted push -/
def pushRefs (after : Refs γ) (changed : List Text) (remote : Refs γ) : Refs γ :=
  changed.foldl (fun refs ref => setRef ref (after.lookup ref) refs) remote

/-- `_reached`; `none` when the branch to fetch is gone and the fetch fails -/
def reached (G : Git γ) (branch : Text) (remote : Refs γ) (rewrite : Option (Rewrite γ)) :
    Option Bool :=
  let after := (rewrite.map Rewrite.after).getD []
  if after.any fun e => e.1 != branch && remote.lookup e.1 != e.2 then some false
  else match after.lookup branch with
    | none => some true
    | some head =>
      if head.isSome && remote.lookup branch == head then some true
      else (remote.lookup branch).map fun tip => head.any fun commit => G.isAncestor commit tip

/-- what is unknown counts as pushed -/
def mayBePushed (G : Git γ) (branch : Text) (remote : Refs γ) (r : Request ι τ γ) : Bool :=
  r.pushed || (r.newHead.isSome && (reached G branch remote r.rewrite).getD true)

/-- a stored commit id after `_purge` -/
def remap (commitMap : List (γ × Option γ)) (commit : Option γ) : Option γ :=
  match commit with
  | none => none
  | some old => (commitMap.lookup old).getD (some old)

def receiptOf (i : Item ι τ γ) (rewrite : Rewrite γ) (pages : ℕ) (counts : AList fun _ : Text => ℕ) :
    Receipt γ where
  layer := i.layer
  requestedBy := i.requestedBy
  oldHead := i.oldHead
  newHead := i.newHead
  commitsRemoved := rewrite.commitMap.countP fun e => e.2.isNone
  commitsRewritten := rewrite.commitMap.countP fun e => e.2.isSome && e.2 != some e.1
  refsRewritten := rewrite.refs.length
  pagesIndexed := pages
  counts := counts
  firstChanged := rewrite.firstChanged

def notPushed : Text :=
  "ErasureError: the rewritten history was not pushed; nothing changed: ".toList

def stillHeld : Text := "ErasureError: commit(s) still hold the layer after the rewrite".toList

def noLongerHeld : Text :=
  "ErasureError: the knowledge branch no longer holds the rewritten history".toList

def heldAgain : Text :=
  "ErasureError: the knowledge repository holds the layer again after the rewrite".toList

/-! ## Steps -/

variable (G : Git γ) (branch : Text)

/-- where `erase` goes on: a rewrite that is recorded but not pushed is looked for on the remote -/
def resume (remote : Refs γ) (i : Item ι τ γ) : Phase ι τ γ :=
  if i.pushed then .published i
  else if i.newHead.isNone then .rewriting i
  else match reached G branch remote i.rewrite with
    | none => .failing i "GitError: couldn't find remote ref".toList
    | some true => .sent i
    | some false => .rewriting i

/-- the rewrite `resume` found -/
def foundBy : Phase ι τ γ → List (Event ι γ)
  | .sent i => (i.rewrite.map fun rewrite => .found i.id rewrite).toList
  | _ => []

/-- `_reset_checkout` and the look for the layer in the history that follows it -/
def resetCheckout (remote : Refs γ) (i : Item ι τ γ) : Phase ι τ γ :=
  if !(i.newHead.any fun head => (remote.lookup branch).any fun tip => G.isAncestor head tip) then
    .failing i noLongerHeld
  else if anyHolds G i.layer remote then .failing i heldAgain
  else .checked i

def step (w : World ι τ γ) : Action ι τ γ → Option (World ι τ γ)
  | .request id tenant layer actor now =>
    if w.rows.any fun r => r.id == id then none
    else match Erasure.request (w.groups tenant) w.rows id tenant layer actor now with
      | .ok rows => some { w with rows := rows }
      | .error _ => some w
  | .regroup tenant names => some { w with groups := Function.update w.groups tenant names }
  | .move tenant ref value =>
    if ref = branch then none
    else some { w with
      remote := Function.update w.remote tenant (setRef ref value (w.remote tenant)) }
  | .land tenant tip =>
    if ((w.remote tenant).lookup branch).all fun old => G.isAncestor old tip then
      some { w with
        remote := Function.update w.remote tenant ((w.remote tenant).insert branch tip)
        commits := Function.update w.commits tenant (some tip :: w.commits tenant) }
    else none
  | .giveUp now =>
    match w.phase with
    | .idle => some { w with
        rows := giveUp w.rows now, phase := .claiming,
        events := ((w.rows.filter keptStopping).map fun r => .failed r.id) ++ w.events }
    | _ => none
  | .claim now =>
    match w.phase with
    | .claiming => match Erasure.claim w.rows now with
      | none => some { w with phase := .idle }
      | some (r, rows) => some { w with rows := rows, phase := .begun r.toItem }
    | _ => none
  | .names found =>
    match w.phase with
    | .begun i =>
      if i.names = [] then
        some { w with rows := update i.id (recordNames found) w.rows,
                      phase := .named { i with names := found } }
      else some { w with phase := .named i }
    | _ => none
  | .look =>
    match w.phase with
    | .named i =>
      let phase := resume G branch (w.remote i.tenantId) i
      some { w with phase := phase, events := foundBy phase ++ w.events }
    | _ => none
  | .mirror =>
    match w.phase with
    | .rewriting i => some { w with phase := .mirrored i (w.remote i.tenantId) }
    | _ => none
  | .record =>
    match w.phase with
    | .mirrored i before =>
      let f := G.filter (folderOf i.layer) before
      if anyHolds G i.layer f.refs then some { w with phase := .failing i stillHeld }
      else
        let rewrite := rewriteOf before f
        let oldHead := before.lookup branch
        let newHead := f.refs.lookup branch
        some { w with
          rows := update i.id (recordRewrite oldHead newHead rewrite) w.rows
          phase := .stored { i with oldHead := oldHead, newHead := newHead, rewrite := some rewrite }
            before f.refs rewrite
          events := .recorded i.id rewrite :: w.events }
    | _ => none
  | .push heard =>
    match w.phase with
    | .stored i before after rewrite =>
      if rewrite.refs.all fun ref => (w.remote i.tenantId).lookup ref == before.lookup ref then
        some { w with
          remote := Function.update w.remote i.tenantId
            (pushRefs after rewrite.refs (w.remote i.tenantId))
          phase := if heard then .sent i else .failing i notPushed
          events := .delivered i.id rewrite :: w.events }
      else some { w with phase := .failing i notPushed }
    | _ => none
  | .mark =>
    match w.phase with
    | .sent i => some { w with rows := update i.id markPushed w.rows,
                               phase := .published { i with pushed := true } }
    | _ => none
  | .check =>
    match w.phase with
    | .published i => some { w with phase := resetCheckout G branch (w.remote i.tenantId) i }
    | _ => none
  | .purge counts garbage =>
    match w.phase with
    | .checked i => match i.rewrite with
      | none => some { w with phase := .failing i "KeyError: 'commit_map'".toList }
      | some rewrite => some { w with
          rows := update i.id (addCounts counts ∘ addGarbage garbage) w.rows
          commits := Function.update w.commits i.tenantId
            ((w.commits i.tenantId).map (remap rewrite.commitMap))
          phase := .purged i
          events := .remapped i.id rewrite :: w.events }
    | _ => none
  | .collect deleted =>
    match w.phase with
    | .purged i => some { w with
        rows := update i.id (addCounts [("objects_deleted".toList, deleted)] ∘ clearGarbage) w.rows
        phase := .collected i }
    | _ => none
  | .finish pages now =>
    match w.phase with
    | .collected i => match i.rewrite with
      | none => some { w with phase := .failing i "KeyError: 'commit_map'".toList }
      | some rewrite => some { w with
          rows := update i.id (fun r =>
            Erasure.finish (receiptOf i rewrite pages r.counts) now r) w.rows
          phase := .idle }
    | _ => none
  | .raise error => w.phase.attempt.map fun i => { w with phase := .failing i error }
  | .decide =>
    match w.phase with
    | .failing i error => some { w with phase := match latest w.rows i.tenantId i.layer with
        | none => .idle
        | some r => .deciding i error (Decidable.decide (MAX_ATTEMPTS ≤ i.attempts) &&
            !mayBePushed G branch (w.remote i.tenantId) r) }
    | _ => none
  | .fail now =>
    match w.phase with
    | .deciding i error final => some { w with
        rows := update i.id (Erasure.fail error final now) w.rows
        phase := .idle
        events := if final then .failed i.id :: w.events else w.events }
    | _ => none
  | .stop => some { w with phase := .idle }

/-! ## What is to hold -/

/-- how a later event may follow an earlier one -/
def follows : Event ι γ → Event ι γ → Prop
  | .recorded id _, .delivered id' _ => id ≠ id'
  | .delivered id _, .delivered id' _ => id ≠ id'
  | .failed id, .delivered id' _ => id ≠ id'
  | .remapped id rewrite, .delivered id' rewrite' => id = id' → rewrite = rewrite'
  | _, _ => True

instance (e e' : Event ι γ) : Decidable (follows e e') :=
  match e, e' with
  | .recorded id _, .delivered id' _ | .delivered id _, .delivered id' _
  | .failed id, .delivered id' _ => inferInstanceAs (Decidable (id ≠ id'))
  | .remapped id rewrite, .delivered id' rewrite' =>
    inferInstanceAs (Decidable (id = id' → rewrite = rewrite'))
  | .found _ _, .delivered _ _ => isTrue trivial
  | later, .recorded _ _ | later, .found _ _ | later, .remapped _ _ | later, .failed _ =>
    isTrue (by cases later <;> trivial)

/-- the rewrite of the request was pushed, or found on the remote -/
def OnRemote (events : List (Event ι γ)) (id : ι) (rewrite : Rewrite γ) : Prop :=
  .delivered id rewrite ∈ events ∨ .found id rewrite ∈ events

structure Safe (w : World ι τ γ) : Prop where
  one_open : ∀ r ∈ w.rows, ∀ r' ∈ w.rows, r.isOpen = true → r'.isOpen = true →
    r.tenantId = r'.tenantId → r.layer = r'.layer → r = r'
  one_rewrite : ∀ r ∈ w.rows, ∀ r' ∈ w.rows, r.isOpen = true → r'.isOpen = true →
    r.rewrite.isSome = true → r'.rewrite.isSome = true → r.tenantId = r'.tenantId → r = r'
  /-- nothing is recorded for, and no failure follows, a request that reached the remote -/
  order : w.events.Pairwise follows
  reached_kept : ∀ id rewrite, .delivered id rewrite ∈ w.events →
    ∃ r ∈ w.rows, r.id = id ∧ r.status ≠ .failed
  pushed_map : ∀ id rewrite, .remapped id rewrite ∈ w.events → OnRemote w.events id rewrite

/-- every ref the rewrite changed, but the knowledge branch, is where the rewrite leaves it -/
def InPlace (remote : Refs γ) (rewrite : Option (Rewrite γ)) : Prop :=
  ∀ rw, rewrite = some rw → ∀ e ∈ rw.after, e.1 ≠ branch → remote.lookup e.1 = e.2

/-- a push of the request reached the remote -/
def Delivered (events : List (Event ι γ)) (id : ι) : Prop := ∃ rewrite, .delivered id rewrite ∈ events

def Undisturbed (w : World ι τ γ) : Action ι τ γ → Prop
  | .look => ∀ i, w.phase = .named i → i.pushed = false → Delivered w.events i.id →
      InPlace branch (w.remote i.tenantId) i.rewrite
  | .decide => ∀ i error, w.phase = .failing i error → MAX_ATTEMPTS ≤ i.attempts →
      ∀ r, latest w.rows i.tenantId i.layer = some r → r.pushed = false → Delivered w.events r.id →
      InPlace branch (w.remote i.tenantId) r.rewrite
  | .record => ∀ i before, w.phase = .mirrored i before →
      (G.filter (folderOf i.layer) before).refs.lookup branch ≠ none
  | _ => True

/-- a condition that computes and is enough for `Undisturbed` -/
def undisturbed (w : World ι τ γ) : Action ι τ γ → Bool
  | .look => match w.phase with
    | .named i => i.rewrite.all fun rw =>
        rw.after.all fun e => e.1 == branch || (w.remote i.tenantId).lookup e.1 == e.2
    | _ => true
  | .decide => match w.phase with
    | .failing i _ => Decidable.decide (i.attempts < MAX_ATTEMPTS)
    | _ => true
  | .record => match w.phase with
    | .mirrored i before => ((G.filter (folderOf i.layer) before).refs.lookup branch).isSome
    | _ => true
  | _ => true

theorem undisturbed_of_check {w : World ι τ γ} {a : Action ι τ γ}
    (h : undisturbed G branch w a = true) : Undisturbed G branch w a := by
  cases a with
  | look =>
    intro i hat _ _ rw hrw e he hne
    rw [undisturbed, hat] at h
    simp only [hrw, Option.all_some, List.all_eq_true] at h
    exact beq_iff_eq.mp ((Bool.or_eq_true_iff.mp (h e he)).resolve_left fun hb =>
      hne (beq_iff_eq.mp hb))
  | decide =>
    intro i error hat hattempts
    rw [undisturbed, hat] at h
    exact absurd hattempts (Nat.not_le.mpr (decide_eq_true_iff.mp h))
  | record =>
    intro i before hat
    rw [undisturbed, hat] at h
    exact Option.isSome_iff_ne_none.mp h
  | _ => trivial

end

end EraseLayer
