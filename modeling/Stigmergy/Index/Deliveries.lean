import Mathlib.Logic.Function.Basic
import Stigmergy.Lib.Runs
import Stigmergy.Kernel.Ascii
import Stigmergy.Index.Webhook

/-!
# Pushes, deliveries and rebuilds

The index beside the branch it follows.  Pushes move the branch, forward or to another history; their
payloads are delivered in any order, again, or not at all; each delivery is cut where another can come
between; rebuilds read a commit and put its rows in when the health row has not moved.

* `Repository`      commits with one parent, and what a payload lists for each;
* `step`            one action of the branch, of a delivery or of a rebuild;
* `fastForward`     the payload of a push lists the commits from `before` to `after`;
* `clean_never_stale_of_fastForward`   when every push that is applied is one of those, a clean index
                    has the paths of its commit, in every state of every run;
* `not_clean_never_stale`   a forced push back is applied like any other, and then it has not.
-/

set_option linter.unusedSectionVars false

namespace Deliveries

open Corpus Webhook

/-- commits, each with its tree and the listing a payload gives for it -/
structure Repository where
  parent : Text → Option Text
  tree : Text → Worktree
  listing : Text → PushCommit
  /-- a listing is relative to the parent -/
  lists : ∀ sha, Lists (((parent sha).map tree).getD ∅) (tree sha) (listing sha)

namespace Repository

/-- the tree of a commit, or the empty one before the first -/
def treeAt (G : Repository) (sha : Option Text) : Worktree := (sha.map G.tree).getD ∅

/-- the commits lead from one to the other, each the parent of the next -/
def linked (G : Repository) : Option Text → List Text → Option Text → Bool
  | a, [], b => a == b
  | a, c :: cs, b => G.parent c == a && G.linked (some c) cs b

/-- a repository by its trees -/
def ofTrees (parent : Text → Option Text) (tree : Text → Worktree) : Repository where
  parent := parent
  tree := tree
  listing := fun sha => difference (((parent sha).map tree).getD ∅) (tree sha)
  lists := fun _ => lists_difference _ _

theorem pushed_of_linked (G : Repository) {a b : Option Text} {ids : List Text}
    (h : G.linked a ids b = true) : Pushed (G.treeAt a) (ids.map G.listing) (G.treeAt b) := by
  induction ids generalizing a with
  | nil =>
    have hab : a = b := beq_iff_eq.mp h
    rw [hab]
    exact Pushed.nil _
  | cons c cs ih =>
    unfold linked at h
    rw [Bool.and_eq_true, beq_iff_eq] at h
    have hc := G.lists c
    rw [h.1] at hc
    exact Pushed.cons hc (ih h.2)

end Repository

/-- one push of the branch -/
structure Push where
  before : Text
  after : Text
  /-- the commits the payload includes, oldest first -/
  included : List Text
  size : Option (Option ℕ)

def Push.payload (G : Repository) (u : Push) : Payload where
  after := u.after
  headCommitId := u.after
  before := some u.before
  commits := u.included.map G.listing
  size := u.size

/-- the payload lists the whole way from `before` to `after` -/
def fastForward (G : Repository) (u : Push) : Bool := G.linked (some u.before) u.included (some u.after)

/-- where a process is -/
inductive Phase where
  | idle
  | received (u : Push) (deliveryId : Text)
  | decided (u : Push) (deliveryId : Text) (v : Verdict)
  | prepared (u : Push) (deliveryId : Text) (rows : List PageRow)
  /-- after the transaction -/
  | finishing (u : Push)
  | building (start : Health) (sha : Text) (rows : List PageRow)

section
variable (π : Type*)

structure World where
  index : Index
  tip : Text
  sent : List Push
  phase : π → Phase

inductive Action where
  /-- the branch moves from its tip to `after`; `base` is where the two histories part, `dropped` the
  commits of the old one, `ids` those of the new one, and `included` what the payload keeps of them -/
  | push (after : Text) (base : Option Text) (dropped ids included : List Text)
      (size : Option (Option ℕ))
  | receive (p : π) (n : ℕ) (deliveryId : Text)
  | decide (p : π)
  | settle (p : π) (now : Time)
  | prepare (p : π)
  | apply (p : π) (now : Time)
  | done (p : π)
  /-- an error anywhere in a delivery; marking the index dirty may fail as well -/
  | fail (p : π) (now : Time) (marked : Bool)
  | beginRebuild (p : π) (sha : Text)
  | commitRebuild (p : π) (now : Time)

end

section
variable {π : Type*} [DecidableEq π] (R : Runtime) (G : Repository) (fileCap : ℕ)

def World.move (w : World π) (p : π) (ph : Phase) (ix : Index) : World π :=
  { w with index := ix, phase := Function.update w.phase p ph }

/-- the index before its first rebuild -/
def emptyIndex : Index where
  pages := ∅
  health := ⟨[], [], true, none, none, none, 0, 0, 0⟩
  deliveries := []

def init (tip : Text) : World π where
  index := emptyIndex
  tip := tip
  sent := []
  phase := fun _ => .idle

/-- the push a failed delivery was of -/
def Phase.push : Phase → Option Push
  | received u _ | decided u _ _ | prepared u _ _ | finishing u => some u
  | idle | building _ _ _ => none

def step (w : World π) : Action π → Option (World π)
  | .push after base dropped ids included size =>
    if G.linked base dropped (some w.tip) && G.linked base ids (some after) && !after.isEmpty &&
        included.isSublist ids then
      some { w with tip := after, sent := w.sent ++ [⟨w.tip, after, included, size⟩] }
    else none
  | .receive p n deliveryId =>
    match w.phase p, w.sent[n]? with
    | .idle, some u =>
      if deliveryAlreadyApplied w.index deliveryId then some w
      else some (w.move p (.received u deliveryId) w.index)
    | _, _ => none
  | .decide p =>
    match w.phase p with
    | .received u deliveryId =>
      some (w.move p (.decided u deliveryId (verdict R fileCap w.index.health (u.payload G))) w.index)
    | _ => none
  | .settle p now =>
    match w.phase p with
    | .decided u deliveryId .alreadyCurrent =>
      some (w.move p (.finishing u) (recordDelivery now deliveryId w.index))
    | .decided u deliveryId (.deferred _) =>
      some (w.move p (.finishing u) (defer now deliveryId (u.payload G) w.index))
    | _ => none
  | .prepare p =>
    match w.phase p with
    | .decided u deliveryId .go =>
      match prepareRows R (G.tree u.after).lookup w.index.pages (u.payload G) with
      | .ok rows => some (w.move p (.prepared u deliveryId rows) w.index)
      | .error _ => none
    | _ => none
  | .apply p now =>
    match w.phase p with
    | .prepared u deliveryId rows =>
      some (w.move p (.finishing u) (applyPush R now deliveryId (u.payload G) rows w.index))
    | _ => none
  | .done p =>
    match w.phase p with
    | .finishing _ => some (w.move p .idle w.index)
    | _ => none
  | .fail p now marked =>
    match (w.phase p).push with
    | some u =>
      some (w.move p .idle (if marked then
        { w.index with health := markDirty now (u.payload G).sha w.index.health } else w.index))
    | none => some (w.move p .idle w.index)
  | .beginRebuild p sha =>
    match w.phase p, loadPageTexts R (pagesOf (G.tree sha)) with
    | .idle, .ok rows => some (w.move p (.building w.index.health sha rows) w.index)
    | _, _ => none
  | .commitRebuild p now =>
    match w.phase p with
    | .building start sha rows =>
      -- "index health changed during the rebuild"
      if w.index.health = start then some (w.move p .idle (rebuildIndex now sha rows w.index))
      else some (w.move p .idle w.index)
    | _ => none

/-! ## the invariant -/

/-- a clean index has the paths of the commit it names -/
def Current (ix : Index) : Prop :=
  ix.health.dirty = false →
    ∀ path, Indexed ix.pages path ↔ Indexable R (G.tree ix.health.indexedCommitSha) path

/-- what a phase says of the rows it carries -/
def Phase.Fine : Phase → Prop
  | .prepared u _ rows => rows.map PageRow.path = toUpsertPaths R (u.payload G)
  | .building _ sha rows => loadPageTexts R (pagesOf (G.tree sha)) = .ok rows
  | _ => True

structure Inv (w : World π) : Prop where
  current : Current R G w.index
  fine : ∀ p, (w.phase p).Fine R G

/-- the condition: a delivery that the transaction applies is of a fast-forward push -/
def appliesFastForward (w : World π) : Action π → Bool
  | .apply p _ =>
    match w.phase p with
    | .prepared u _ _ =>
      w.index.health.dirty || w.index.health.indexedCommitSha != u.before || fastForward G u
    | _ => true
  | _ => true

/-! ## one action -/

theorem current_recordDelivery {now : Time} {deliveryId : Text} {ix : Index} :
    Current R G (recordDelivery now deliveryId ix) ↔ Current R G ix := by
  unfold Current
  rw [recordDelivery_pages, recordDelivery_health]

/-- nothing is said of a dirty index -/
theorem current_of_dirty {ix : Index} (h : ix.health.dirty = true) : Current R G ix := by
  intro hclean
  rw [h] at hclean
  exact nomatch hclean

theorem current_defer (now : Time) (deliveryId : Text) (p : Payload) (ix : Index) :
    Current R G (defer now deliveryId p ix) :=
  (current_recordDelivery R G).mpr (current_of_dirty R G rfl)

theorem payload_sha (u : Push) : (u.payload G).sha = u.after := by
  unfold Payload.sha
  split <;> rfl

theorem current_applyPush {now : Time} {deliveryId : Text} {u : Push} {rows : List PageRow} {ix : Index}
    (hix : Current R G ix) (hrows : rows.map PageRow.path = toUpsertPaths R (u.payload G))
    (hff : ix.health.dirty = false → ix.health.indexedCommitSha = u.before → fastForward G u = true) :
    Current R G (applyPush R now deliveryId (u.payload G) rows ix) := by
  unfold applyPush
  split
  · exact (current_recordDelivery R G).mpr (current_of_dirty R G rfl)
  · rename_i hlocked
    rw [Bool.or_eq_true, not_or, Bool.not_eq_true, bne_iff_ne, not_not] at hlocked
    have hbefore : u.before = ix.health.indexedCommitSha := Option.some.inj hlocked.2
    have hpushed : Pushed (G.tree u.before) (u.payload G).commits (G.tree u.after) :=
      G.pushed_of_linked (hff hlocked.1 hbefore.symm)
    refine (current_recordDelivery R G).mpr fun _ path => ?_
    show Indexed (applyPages R (u.payload G) rows ix.pages) path ↔
      Indexable R (G.tree (u.payload G).sha) path
    rw [payload_sha]
    refine indexed_applyPages_of_pushed R hpushed hrows (fun q => ?_) path
    rw [hbefore]
    exact hix hlocked.1 q

theorem current_rebuildIndex (now : Time) {sha : Text} {rows : List PageRow} (ix : Index)
    (h : loadPageTexts R (pagesOf (G.tree sha)) = .ok rows) :
    Current R G (rebuildIndex now sha rows ix) := by
  intro _ path
  show Indexed (Table.insertAll PageRow.path rows ∅) path ↔ Indexable R (G.tree sha) path
  rw [indexed_insertAll, mem_path_loadPageTexts R h]

theorem inv_init (tip : Text) : Inv R G (init tip : World π) where
  current := current_of_dirty R G rfl
  fine := fun _ => trivial

theorem Inv.move {w : World π} (h : Inv R G w) {p : π} {ph : Phase} {ix : Index}
    (hix : Current R G ix) (hph : ph.Fine R G) : Inv R G (w.move p ph ix) := by
  refine ⟨hix, fun q => ?_⟩
  show (Function.update w.phase p ph q).Fine R G
  by_cases hq : q = p
  · rw [hq, Function.update_self]
    exact hph
  · rw [Function.update_of_ne hq]
    exact h.fine q

theorem inv_step {w w' : World π} (a : Action π) (hi : Inv R G w) (hP : appliesFastForward G w a = true)
    (h : step R G fileCap w a = some w') : Inv R G w' := by
  cases a with
  | push after base dropped ids included size =>
    simp only [step] at h
    split at h
    · obtain rfl := Option.some.inj h
      exact ⟨hi.current, hi.fine⟩
    · exact nomatch h
  | receive p n deliveryId =>
    simp only [step] at h
    split at h
    · split at h
      · obtain rfl := Option.some.inj h
        exact hi
      · obtain rfl := Option.some.inj h
        exact hi.move R G hi.current trivial
    · exact nomatch h
  | decide p =>
    simp only [step] at h
    split at h
    · obtain rfl := Option.some.inj h
      exact hi.move R G hi.current trivial
    · exact nomatch h
  | settle p now =>
    simp only [step] at h
    split at h
    · obtain rfl := Option.some.inj h
      exact hi.move R G ((current_recordDelivery R G).mpr hi.current) trivial
    · obtain rfl := Option.some.inj h
      exact hi.move R G (current_defer R G _ _ _ _) trivial
    · exact nomatch h
  | prepare p =>
    simp only [step] at h
    split at h
    · split at h
      · rename_i rows hrows
        obtain rfl := Option.some.inj h
        exact hi.move R G hi.current (map_path_prepareRows R hrows)
      · exact nomatch h
    · exact nomatch h
  | apply p now =>
    simp only [step] at h
    split at h
    · rename_i u deliveryId rows hp
      obtain rfl := Option.some.inj h
      have hrows := hi.fine p
      rw [hp] at hrows
      simp only [appliesFastForward, hp, Bool.or_eq_true, bne_iff_ne] at hP
      refine hi.move R G (current_applyPush R G hi.current hrows fun hd hbefore => ?_) trivial
      rcases hP with (hdirty | hne) | hff
      · rw [hd] at hdirty
        exact nomatch hdirty
      · exact absurd hbefore hne
      · exact hff
    · exact nomatch h
  | done p =>
    simp only [step] at h
    split at h
    · obtain rfl := Option.some.inj h
      exact hi.move R G hi.current trivial
    · exact nomatch h
  | fail p now marked =>
    simp only [step] at h
    split at h
    · obtain rfl := Option.some.inj h
      refine hi.move R G ?_ trivial
      cases marked with
      | true => exact current_of_dirty R G rfl
      | false => exact hi.current
    · obtain rfl := Option.some.inj h
      exact hi.move R G hi.current trivial
  | beginRebuild p sha =>
    simp only [step] at h
    split at h
    · rename_i rows hp hrows
      obtain rfl := Option.some.inj h
      exact hi.move R G hi.current hrows
    · exact nomatch h
  | commitRebuild p now =>
    simp only [step] at h
    split at h
    · rename_i start sha rows hp
      have hrows := hi.fine p
      rw [hp] at hrows
      split at h
      · obtain rfl := Option.some.inj h
        exact hi.move R G (current_rebuildIndex R G now w.index hrows) trivial
      · obtain rfl := Option.some.inj h
        exact hi.move R G hi.current trivial
    · exact nomatch h

/-! ## the dirty mark -/

theorem dirty_applyPush {now : Time} {deliveryId : Text} {p : Payload} {rows : List PageRow}
    {ix : Index} (h : ix.health.dirty = true) :
    (applyPush R now deliveryId p rows ix).health.dirty = true := by
  unfold applyPush
  rw [h, Bool.true_or, if_pos rfl, recordDelivery_health]
  rfl

/-- only the transaction of a rebuild clears the mark -/
theorem dirty_step {w w' : World π} {a : Action π} (h : step R G fileCap w a = some w')
    (hd : w.index.health.dirty = true) (ha : ∀ p now, a ≠ .commitRebuild p now) :
    w'.index.health.dirty = true := by
  cases a with
  | commitRebuild p now => exact absurd rfl (ha p now)
  | push after base dropped ids included size =>
    simp only [step] at h
    split at h
    · obtain rfl := Option.some.inj h
      exact hd
    · exact nomatch h
  | receive p n deliveryId =>
    simp only [step] at h
    split at h
    · split at h
      · obtain rfl := Option.some.inj h
        exact hd
      · obtain rfl := Option.some.inj h
        exact hd
    · exact nomatch h
  | settle p now =>
    simp only [step] at h
    split at h
    · obtain rfl := Option.some.inj h
      show (recordDelivery _ _ _).health.dirty = true
      rw [recordDelivery_health]
      exact hd
    · obtain rfl := Option.some.inj h
      show (recordDelivery _ _ _).health.dirty = true
      rw [recordDelivery_health]
      rfl
    · exact nomatch h
  | prepare p =>
    simp only [step] at h
    split at h
    · split at h
      · obtain rfl := Option.some.inj h
        exact hd
      · exact nomatch h
    · exact nomatch h
  | apply p now =>
    simp only [step] at h
    split at h
    · obtain rfl := Option.some.inj h
      exact dirty_applyPush R hd
    · exact nomatch h
  | fail p now marked =>
    simp only [step] at h
    split at h
    · obtain rfl := Option.some.inj h
      cases marked with
      | true => rfl
      | false => exact hd
    · obtain rfl := Option.some.inj h
      exact hd
  | decide p | done p | beginRebuild p sha =>
    simp only [step] at h
    split at h
    · obtain rfl := Option.some.inj h
      exact hd
    · exact nomatch h

/-- **A clean index is not stale.**  In a run whose applied deliveries are all of pushes that list the
commits from `before` to `after`, a clean index has the paths of its commit; and over any action but
the transaction of a rebuild, a dirty index stays dirty. -/
theorem clean_never_stale_of_fastForward {tip : Text} {as : List (Action π)} {w : World π}
    (hP : Runs.along (step R G fileCap) (fun w a => appliesFastForward G w a = true) (init tip) as)
    (h : Runs.exec (step R G fileCap) (init tip) as = some w) :
    (w.index.health.dirty = false → ∀ path,
      Indexed w.index.pages path ↔ Indexable R (G.tree w.index.health.indexedCommitSha) path) ∧
    ∀ a w', step R G fileCap w a = some w' → w.index.health.dirty = true →
      (∀ p now, a ≠ .commitRebuild p now) → w'.index.health.dirty = true :=
  ⟨(Runs.exec_invariant_along (fun _ a _ hi hP hs => inv_step R G fileCap a hi hP hs)
    (inv_init R G tip) hP h).current, fun _ _ hs hd ha => dirty_step R G fileCap hs hd ha⟩

end

/-! ## a forced push -/

/-- two notes, the second added by the second commit -/
def firstNote : Text := "wiki/notes/First.md".toList
def secondNote : Text := "wiki/notes/Second.md".toList
def noteText (id : String) : Text :=
  ("---\nid: " ++ id ++ "\ntype: note\nstatus: seed\n---\n\nA note.\n").toList

def firstTree : Worktree := (∅ : Worktree).insert firstNote (noteText "first")
def secondTree : Worktree := firstTree.insert secondNote (noteText "second")

def notes : Repository :=
  Repository.ofTrees (fun sha => if sha = ['b'] then some ['a'] else none)
    fun sha => if sha = ['b'] then secondTree else if sha = ['a'] then firstTree else ∅

/-- the index is built at the second commit, and the branch forced back to the first -/
def forcedBack : List (Action Unit) :=
  [.beginRebuild () ['b'], .commitRebuild () 1, .push ['a'] (some ['a']) [['b']] [] [] none,
    .receive () 0 ['d'], .decide (), .prepare (), .apply () 2, .done ()]

/-- the push back is applied, and the second note stays in a clean index of the first commit -/
theorem not_clean_never_stale :
    ∃ w, Runs.exec (step ascii notes 50) (init ['b']) forcedBack = some w ∧
      w.index.health.dirty = false ∧ ¬ ∀ path,
        Indexed w.index.pages path ↔ Indexable ascii (notes.tree w.index.health.indexedCommitSha) path := by
  have hrun : (Runs.exec (step ascii notes 50) (init ['b']) forcedBack).any (fun w =>
      !w.index.health.dirty && w.index.health.indexedCommitSha == ['a'] &&
        (w.index.pages.lookup secondNote).isSome) = true := by decide +kernel
  obtain ⟨w, hw, h⟩ := (Option.any_eq_true _ _).mp hrun
  rw [Bool.and_eq_true, Bool.and_eq_true, Bool.not_eq_true', beq_iff_eq] at h
  obtain ⟨⟨hclean, hsha⟩, hrow⟩ := h
  refine ⟨w, hw, hclean, fun hall => ?_⟩
  have hin : Indexable ascii (notes.tree w.index.health.indexedCommitSha) secondNote :=
    (hall secondNote).mp (Option.isSome_iff_exists.mp hrow)
  rw [hsha] at hin
  exact hin.2 (by decide)

/-- the same branch moved forward -/
def forward : List (Action Unit) :=
  [.beginRebuild () ['a'], .commitRebuild () 1, .push ['b'] (some ['a']) [] [['b']] [['b']] none,
    .receive () 0 ['d'], .decide (), .prepare (), .apply () 2, .done ()]

theorem clean_never_stale_forward :
    ∃ w, Runs.exec (step ascii notes 50) (init ['a']) forward = some w ∧
      w.index.health.dirty = false ∧ Indexed w.index.pages secondNote ∧ ∀ path,
        Indexed w.index.pages path ↔ Indexable ascii (notes.tree w.index.health.indexedCommitSha) path := by
  have hrun : (Runs.exec (step ascii notes 50) (init ['a']) forward).any (fun w =>
      !w.index.health.dirty && (w.index.pages.lookup secondNote).isSome) = true := by decide +kernel
  have hP : Runs.along (step ascii notes 50) (fun w a => appliesFastForward notes w a = true)
      (init ['a']) forward :=
    Runs.along_of_check (fun _ _ h => h) (by decide +kernel)
  obtain ⟨w, hw, h⟩ := (Option.any_eq_true _ _).mp hrun
  rw [Bool.and_eq_true, Bool.not_eq_true'] at h
  exact ⟨w, hw, h.1, Option.isSome_iff_exists.mp h.2,
    (clean_never_stale_of_fastForward ascii notes 50 hP hw).1 h.1⟩

end Deliveries
