import Mathlib.Data.Char
import Mathlib.Data.List.Lex
import Stigmergy.Lib.Text
import Stigmergy.Lib.TableDiff

/-!
# The diff the gates approve and the commit

`diff_entries` and `commit` of `librarian/gitcmd.py`.  A worktree and a commit are both a tree, a table from
paths to what Git records there; a directory is there by its files only, or as a repository of its own.

* `diffEntries`    the paths at which the worktree differs from the commit it stands on;
* `commit`         the worktree compared with the entries, staged and committed;
* `commit_cases`   what the comparison lets through;
* `Meets`          nothing is committed, or exactly the diff the gates saw;
* `Noticed`        a change of one path that the comparison finds;
* `Unseen`         a change of one path that it does not find;
* `commit_exact_iff`   `Meets` exactly when some change is noticed or no gated path changed unseen;
* `not_commit_exact`   a page that is deleted for the gates and a link when it is committed.

Paths that Git ignores are left out of a worktree.
-/

set_option linter.unusedSectionVars false

namespace Gitcmd

abbrev Path := Text

def REGULAR_FILE_MODE : Text := "100644".toList
def ABSENT_MODE : Text := "000000".toList

/-- what Git records at a path -/
inductive Node where
  | regular (data : List UInt8)
  | executable (data : List UInt8)
  | link (target : List UInt8)
  | gitlink (commit : List UInt8)
deriving DecidableEq

def Node.mode : Node → Text
  | regular _ => REGULAR_FILE_MODE
  | executable _ => "100755".toList
  | link _ => "120000".toList
  | gitlink _ => "160000".toList

/-- two modes of one kind of file -/
def Node.isSameKind : Node → Node → Bool
  | regular _, regular _ | regular _, executable _ | executable _, regular _ | executable _, executable _ => true
  | link _, link _ => true
  | gitlink _, gitlink _ => true
  | _, _ => false

abbrev Tree := AList fun _ : Path => Node

structure DiffEntry where
  status : Char
  path : Path
  oldMode : Text
  newMode : Text
  blob : Text
deriving DecidableEq

def DiffEntry.isRegularFile (e : DiffEntry) : Bool :=
  [REGULAR_FILE_MODE, ABSENT_MODE, []].contains e.newMode

/-- `git hash-object`, which tells contents apart -/
structure Git where
  hash : List UInt8 → Text
  hash_injective : Function.Injective hash
  hash_ne_nil : ∀ data, hash data ≠ []

inductive Failure where
  /-- `GatedDiffChangedError` -/
  | gatedDiffChanged (message : Text)
  /-- `GitError` of `git commit` -/
  | git (message : Text)

/-- the bytes of a path that is a regular file on disk and no link -/
def dataOf : Option Node → Option (List UInt8)
  | some (.regular data) | some (.executable data) => some data
  | _ => none

/-- `git diff --raw` of one path -/
def statusOf : Option Node → Option Node → Char
  | _, none => 'D'
  | none, some _ => 'A'
  | some a, some b => if a.isSameKind b then 'M' else 'T'

def modeOf : Option Node → Text
  | some node => node.mode
  | none => ABSENT_MODE

section
variable (G : Git)

/-- `blobs.get(path, "")` of `_worktree_blobs` -/
def blobOf (node : Option Node) : Text :=
  match dataOf node with
  | some data => G.hash data
  | none => []

def diffEntries (head worktree : Tree) : List DiffEntry :=
  (Table.diff head worktree).map fun d =>
    ⟨statusOf d.2.1 d.2.2, d.1, modeOf d.2.1, modeOf d.2.2, blobOf G d.2.2⟩

/-- `{entry.path: entry.blob for entry in entries}` -/
def blobsOf (entries : List DiffEntry) : AList fun _ : Path => Text :=
  entries.foldl (fun t e => t.insert e.path e.blob) ∅

/-- `git add -A -- paths` on the index of `head` -/
def stage (head worktree : Tree) (paths : List Path) : Tree :=
  paths.foldl (fun index p =>
    match worktree.lookup p with
    | some node => index.insert p node
    | none => index.erase p) head

def listed (label : String) (paths : List Path) : Text :=
  if paths.isEmpty then [] else label.toList ++ ", ".toList.intercalate paths ++ ". ".toList

def changedMessage (expected actual : AList fun _ : Path => Text) : Text :=
  let appeared := sortedSet (actual.keys.filter fun p => (expected.lookup p).isNone)
  let vanished := sortedSet (expected.keys.filter fun p => (actual.lookup p).isNone)
  let rewritten := sortedSet (expected.keys.filter fun p =>
    (actual.lookup p).isSome && expected.lookup p != actual.lookup p)
  "the worktree no longer matches the diff the gates approved, so nothing was committed. ".toList ++
    listed "appeared after the gates ran: " appeared ++ listed "gated but now absent: " vanished ++
    listed "changed after the gates ran: " rewritten

/-- the tree `commit` records on top of `head` -/
def commit (head worktree : Tree) (gatedEntries : Option (List DiffEntry)) : Except Failure Tree :=
  let record (index : Tree) : Except Failure Tree :=
    if Table.same index head then .error (.git "nothing to commit".toList) else .ok index
  match gatedEntries with
  | none => record (stage head worktree (head.keys ++ worktree.keys))
  | some entries =>
    let expected := blobsOf entries
    let actual := blobsOf (diffEntries G head worktree)
    if !Table.same actual expected then .error (.gatedDiffChanged (changedMessage expected actual))
    else if !expected.keys.isEmpty then record (stage head worktree (sortedSet expected.keys))
    else record head

/-! ## Entries and the index -/

theorem lookup_blobsOf {entries : List DiffEntry} {f : Path → Text} (h : ∀ e ∈ entries, e.blob = f e.path) (p : Path) :
    (blobsOf entries).lookup p = if p ∈ entries.map DiffEntry.path then some (f p) else none := by
  unfold blobsOf
  induction entries using List.reverseRecOn with
  | nil => rfl
  | append_singleton entries e ih =>
    have ih := ih fun e' he' => h e' (List.mem_append_left _ he')
    have he := h e (List.mem_append_right _ (List.mem_singleton_self e))
    rw [List.foldl_append, List.foldl_cons, List.foldl_nil, Table.lookup_insert_eq, ih, List.map_append, he]
    by_cases hp : p = e.path
    · rw [if_pos hp, if_pos (List.mem_append_right _ (hp ▸ List.mem_singleton_self e.path)), hp]
    · have hmem : p ∈ entries.map DiffEntry.path ++ [e].map DiffEntry.path ↔ p ∈ entries.map DiffEntry.path := by
        rw [List.mem_append, List.map_singleton, List.mem_singleton]
        exact or_iff_left hp
      rw [if_neg hp]
      exact (if_congr hmem rfl rfl).symm

theorem mem_paths {head worktree : Tree} {p : Path} :
    p ∈ (diffEntries G head worktree).map DiffEntry.path ↔ head.lookup p ≠ worktree.lookup p := by
  unfold diffEntries
  rw [List.map_map, List.mem_map]
  constructor
  · intro h
    obtain ⟨⟨q, x, y⟩, hd, rfl⟩ := h
    exact (Table.mem_diff.mp hd).2.2
  · exact fun h => ⟨(p, head.lookup p, worktree.lookup p), Table.mem_diff.mpr ⟨rfl, rfl, h⟩, rfl⟩

/-- the paths of the diff with the contents on disk -/
theorem lookup_blobsOf_diffEntries (head worktree : Tree) (p : Path) :
    (blobsOf (diffEntries G head worktree)).lookup p =
      if head.lookup p ≠ worktree.lookup p then some (blobOf G (worktree.lookup p)) else none := by
  have hblob : ∀ e ∈ diffEntries G head worktree, e.blob = blobOf G (worktree.lookup e.path) := by
    intro e he
    obtain ⟨⟨q, x, y⟩, hd, rfl⟩ := List.mem_map.mp he
    show blobOf G y = blobOf G (worktree.lookup q)
    rw [(Table.mem_diff.mp hd).2.1]
  rw [lookup_blobsOf (f := fun q => blobOf G (worktree.lookup q)) hblob]
  exact if_congr (mem_paths G) rfl rfl

theorem lookup_stage (head worktree : Tree) (paths : List Path) (p : Path) :
    (stage head worktree paths).lookup p = if p ∈ paths then worktree.lookup p else head.lookup p := by
  unfold stage
  induction paths using List.reverseRecOn with
  | nil => rw [if_neg List.not_mem_nil]; rfl
  | append_singleton paths q ih =>
    rw [List.foldl_append, List.foldl_cons, List.foldl_nil]
    by_cases hp : p = q
    · subst hp
      rw [if_pos (List.mem_append_right _ (List.mem_singleton_self p))]
      cases hw : worktree.lookup p with
      | some node => exact AList.lookup_insert _
      | none => exact AList.lookup_erase _ _
    · have hmem : p ∈ paths ++ [q] ↔ p ∈ paths := by
        rw [List.mem_append, List.mem_singleton]
        exact or_iff_left hp
      rw [if_congr hmem rfl rfl, ← ih]
      cases hw : worktree.lookup q with
      | some node => exact AList.lookup_insert_ne hp
      | none => exact AList.lookup_erase_ne hp

/-! ## What the comparison finds -/

/-- no longer among the changed paths, newly among them, or changed there in the bytes of a regular file -/
inductive Noticed : Option Node → Option Node → Option Node → Prop
  | appeared {h a b : Option Node} : h = a → h ≠ b → Noticed h a b
  | vanished {h a b : Option Node} : h ≠ a → h = b → Noticed h a b
  | rewritten {h a b : Option Node} : h ≠ a → h ≠ b → dataOf a ≠ dataOf b → Noticed h a b

/-- another executable bit on the same bytes, or one of nothing, a link and a repository for another -/
inductive Unseen : Option Node → Option Node → Prop
  | madeExecutable (data : List UInt8) : Unseen (some (.regular data)) (some (.executable data))
  | madePlain (data : List UInt8) : Unseen (some (.executable data)) (some (.regular data))
  | replaced {a b : Option Node} : dataOf a = none → dataOf b = none → a ≠ b → Unseen a b

/-- two states of a path with the same bytes as a regular file are the same, or `Unseen` tells them apart -/
theorem eq_or_unseen {a b : Option Node} (h : dataOf a = dataOf b) : a = b ∨ Unseen a b := by
  by_cases heq : a = b
  · exact Or.inl heq
  · right
    cases hb : dataOf b with
    | none => exact .replaced (h.trans hb) hb heq
    | some data =>
      have hfile : ∀ x : Option Node, dataOf x = some data → x = some (.regular data) ∨ x = some (.executable data) := by
        intro x hx
        match x, hx with
        | some (.regular d), hx => exact Or.inl (by rw [Option.some.inj hx])
        | some (.executable d), hx => exact Or.inr (by rw [Option.some.inj hx])
      rcases hfile a (h.trans hb) with rfl | rfl
      · rcases hfile b hb with rfl | rfl
        · exact absurd rfl heq
        · exact .madeExecutable data
      · rcases hfile b hb with rfl | rfl
        · exact .madePlain data
        · exact absurd rfl heq

theorem Unseen.ne {a b : Option Node} (h : Unseen a b) : a ≠ b := by
  cases h with
  | madeExecutable data => exact nofun
  | madePlain data => exact nofun
  | replaced _ _ hne => exact hne

theorem blobOf_eq_iff {a b : Option Node} : blobOf G a = blobOf G b ↔ dataOf a = dataOf b := by
  unfold blobOf
  cases dataOf a with
  | none =>
    cases dataOf b with
    | none => exact ⟨fun _ => rfl, fun _ => rfl⟩
    | some e => exact ⟨fun h => absurd h.symm (G.hash_ne_nil e), nofun⟩
  | some d =>
    cases dataOf b with
    | none => exact ⟨fun h => absurd h (G.hash_ne_nil d), nofun⟩
    | some e => exact ⟨fun h => congrArg some (G.hash_injective h), fun h => congrArg G.hash (Option.some.inj h)⟩

/-- the two maps agree at a path exactly when nothing is noticed there -/
theorem lookup_blobs_eq_iff (head before after : Tree) (p : Path) :
    (blobsOf (diffEntries G head after)).lookup p = (blobsOf (diffEntries G head before)).lookup p ↔
      ¬ Noticed (head.lookup p) (before.lookup p) (after.lookup p) := by
  rw [lookup_blobsOf_diffEntries, lookup_blobsOf_diffEntries]
  by_cases ha : head.lookup p = before.lookup p
  · by_cases hb : head.lookup p = after.lookup p
    · rw [if_neg (not_not.mpr hb), if_neg (not_not.mpr ha)]
      refine iff_of_true rfl fun h => ?_
      cases h with
      | appeared _ h => exact h hb
      | vanished h _ => exact h ha
      | rewritten h _ _ => exact h ha
    · rw [if_pos hb, if_neg (not_not.mpr ha)]
      exact iff_of_false nofun (not_not.mpr (.appeared ha hb))
  · by_cases hb : head.lookup p = after.lookup p
    · rw [if_neg (not_not.mpr hb), if_pos ha]
      exact iff_of_false nofun (not_not.mpr (.vanished ha hb))
    · rw [if_pos hb, if_pos ha, Option.some_inj, blobOf_eq_iff]
      constructor
      · intro heq h
        cases h with
        | appeared h _ => exact ha h
        | vanished _ h => exact hb h
        | rewritten _ _ h => exact h heq.symm
      · intro h
        by_contra hne
        exact h (.rewritten ha hb (Ne.symm hne))

/-! ## The commit -/

/-- A commit with the entries of an earlier worktree: a change is noticed and nothing committed, there was
nothing to commit, or the worktree is committed as it is -/
theorem commit_cases (head before after : Tree) :
    ((∃ p, Noticed (head.lookup p) (before.lookup p) (after.lookup p)) ∧
      ∃ message, commit G head after (some (diffEntries G head before)) = .error (.gatedDiffChanged message)) ∨
    (∀ p, ¬ Noticed (head.lookup p) (before.lookup p) (after.lookup p)) ∧
      (((∀ p, head.lookup p = before.lookup p) ∧
        ∃ message, commit G head after (some (diffEntries G head before)) = .error (.git message)) ∨
      ∃ committed, commit G head after (some (diffEntries G head before)) = .ok committed ∧
        ∀ p, committed.lookup p = after.lookup p) := by
  by_cases hsame : ∃ p, Noticed (head.lookup p) (before.lookup p) (after.lookup p)
  · have hdiffers : Table.same (blobsOf (diffEntries G head after)) (blobsOf (diffEntries G head before)) = false := by
      obtain ⟨p, hp⟩ := hsame
      refine Bool.eq_false_iff.mpr fun hs => ?_
      exact (lookup_blobs_eq_iff G head before after p).mp (Table.same_iff.mp hs p) hp
    refine Or.inl ⟨hsame, changedMessage (blobsOf (diffEntries G head before)) (blobsOf (diffEntries G head after)), ?_⟩
    unfold commit
    dsimp only
    rw [hdiffers]
    rfl
  · have hquiet : ∀ p, ¬ Noticed (head.lookup p) (before.lookup p) (after.lookup p) := fun p hp => hsame ⟨p, hp⟩
    have hequal : Table.same (blobsOf (diffEntries G head after)) (blobsOf (diffEntries G head before)) = true :=
      Table.same_iff.mpr fun p => (lookup_blobs_eq_iff G head before after p).mpr (hquiet p)
    have hkeys : ∀ p, p ∈ (blobsOf (diffEntries G head before)).keys ↔ head.lookup p ≠ before.lookup p := by
      intro p
      rw [Table.mem_keys_iff, lookup_blobsOf_diffEntries]
      split
      · next h => exact ⟨fun _ => h, fun _ => ⟨_, rfl⟩⟩
      · next h => exact ⟨nofun, fun hne => absurd hne h⟩
    refine Or.inr ⟨hquiet, ?_⟩
    unfold commit
    dsimp only
    rw [hequal, Bool.not_true, if_neg Bool.false_ne_true]
    by_cases hempty : (blobsOf (diffEntries G head before)).keys.isEmpty = true
    · left
      rw [hempty, Bool.not_true, if_neg Bool.false_ne_true, if_pos (Table.same_iff.mpr fun _ => rfl)]
      refine ⟨fun p => by_contra fun hne => ?_, _, rfl⟩
      have hmem := (hkeys p).mpr hne
      rw [List.isEmpty_iff.mp hempty] at hmem
      exact List.not_mem_nil hmem
    · right
      have hstaged : ∀ p, (stage head after (sortedSet (blobsOf (diffEntries G head before)).keys)).lookup p =
          after.lookup p := by
        intro p
        rw [lookup_stage]
        split
        · rfl
        · next hp =>
          have heq : head.lookup p = before.lookup p :=
            by_contra fun hne => hp (mem_sortedSet.mpr ((hkeys p).mpr hne))
          exact by_contra fun hne => hquiet p (.appeared heq hne)
      obtain ⟨p, hp⟩ := List.exists_mem_of_ne_nil _ fun h => hempty (List.isEmpty_iff.mpr h)
      have hne : head.lookup p ≠ after.lookup p := by
        intro heq
        exact hquiet p (.vanished ((hkeys p).mp hp) heq)
      have hnew : ¬ Table.same (stage head after (sortedSet (blobsOf (diffEntries G head before)).keys)) head = true := by
        intro hs
        rw [← Table.same_iff.mp hs p] at hne
        exact hne (hstaged p)
      rw [Bool.eq_false_iff.mpr hempty, Bool.not_false, if_pos rfl, if_neg hnew]
      exact ⟨_, rfl, hstaged⟩

/-- Nothing is committed, or what differs from the parent is what the gates saw, with the same kind, mode and
content at every path; then a page the gates took for a regular file is one -/
def Meets (head before after : Tree) : Prop :=
  match commit G head after (some (diffEntries G head before)) with
  | .error _ => True
  | .ok committed =>
    Table.diff head committed = Table.diff head before ∧
      ((∀ e ∈ diffEntries G head before, e.isRegularFile = true) →
        ∀ p node, committed.lookup p = some node → head.lookup p ≠ some node → ∃ data, node = .regular data)

theorem regular_of_mode {node : Node} (h : [REGULAR_FILE_MODE, ABSENT_MODE, []].contains node.mode = true) :
    ∃ data, node = .regular data := by
  have hother : ∀ mode : String, [REGULAR_FILE_MODE, ABSENT_MODE, []].contains mode.toList = false →
      node.mode ≠ mode.toList := fun mode hmode heq => by
    rw [heq, hmode] at h
    exact nomatch h
  cases node with
  | regular data => exact ⟨data, rfl⟩
  | executable data => exact absurd rfl (hother "100755" (by decide))
  | link target => exact absurd rfl (hother "120000" (by decide))
  | gitlink commit => exact absurd rfl (hother "160000" (by decide))

/-- what the gates let through are regular files and deletions -/
theorem regular_of_gated {head before : Tree} (h : ∀ e ∈ diffEntries G head before, e.isRegularFile = true)
    {p : Path} {node : Node} (hnode : before.lookup p = some node) (hne : head.lookup p ≠ some node) :
    ∃ data, node = .regular data := by
  refine regular_of_mode ?_
  have hmem : (p, head.lookup p, some node) ∈ Table.diff head before :=
    Table.mem_diff.mpr ⟨rfl, hnode.symm, by rw [hnode]; exact hne⟩
  exact h _ (List.mem_map_of_mem hmem)

/-- The commit is the diff the gates approved, or there is none, exactly when a change is noticed or no gated
path changed unseen -/
theorem commit_exact_iff (head before after : Tree) :
    Meets G head before after ↔
      (∃ p, Noticed (head.lookup p) (before.lookup p) (after.lookup p)) ∨
        ∀ p, head.lookup p ≠ before.lookup p → ¬ Unseen (before.lookup p) (after.lookup p) := by
  unfold Meets
  rcases commit_cases G head before after with ⟨hnoticed, message, hc⟩ | ⟨hquiet, hrest⟩
  · rw [hc]
    exact ⟨fun _ => Or.inl hnoticed, fun _ => trivial⟩
  · rcases hrest with ⟨hall, message, hc⟩ | ⟨committed, hc, hcommitted⟩
    · rw [hc]
      exact ⟨fun _ => Or.inr fun p hne => absurd (hall p) hne, fun _ => trivial⟩
    · rw [hc]
      have hdata : ∀ p, head.lookup p ≠ before.lookup p → dataOf (before.lookup p) = dataOf (after.lookup p) := by
        intro p hne
        by_cases hb : head.lookup p = after.lookup p
        · exact absurd (.vanished hne hb) (hquiet p)
        · exact by_contra fun hd => hquiet p (.rewritten hne hb hd)
      constructor
      · intro hmeets
        right
        intro p hne hunseen
        refine hunseen.ne ?_
        rw [← hcommitted p]
        exact (Table.diff_eq_iff.mp hmeets.1 p).symm
      · intro hcond
        have hunseen := hcond.resolve_left fun ⟨p, hp⟩ => hquiet p hp
        have hsame : ∀ p, committed.lookup p = before.lookup p := by
          intro p
          rw [hcommitted p]
          by_cases hne : head.lookup p = before.lookup p
          · exact by_contra fun h => hquiet p (.appeared hne fun ha => h (ha.symm.trans hne))
          · rcases eq_or_unseen (hdata p hne) with heq | hu
            · exact heq.symm
            · exact absurd hu (hunseen p hne)
        refine ⟨Table.diff_congr hsame, fun hgated p node hnode hne => ?_⟩
        rw [hsame p] at hnode
        exact regular_of_gated G hgated hnode hne

end

/-! ## A deleted page and a link -/

/-- contents written out, one character a byte -/
def spelled : Git where
  hash := fun data => 'h' :: data.map Char.ofUInt8
  hash_injective := by
    intro x y h
    refine List.map_injective_iff.mpr (fun a b hab => ?_) (List.cons.inj h).2
    have hval : (Char.ofUInt8 a).val = (Char.ofUInt8 b).val := congrArg Char.val hab
    exact UInt8.toUInt32_inj.mp hval
  hash_ne_nil := fun data => List.cons_ne_nil _ _

def pagePath : Path := "wiki/notes/plan.md".toList

def pageTree : Tree := AList.insert pagePath (.regular [1]) ∅

def linkTree : Tree := AList.insert pagePath (.link [2]) ∅

/-- the gates see a deletion, and the commit has a link -/
theorem not_commit_exact :
    diffEntries spelled pageTree ∅ = [⟨'D', pagePath, REGULAR_FILE_MODE, ABSENT_MODE, []⟩] ∧
      (∃ committed, commit spelled pageTree linkTree (some (diffEntries spelled pageTree ∅)) = .ok committed ∧
        committed.lookup pagePath = some (.link [2])) ∧
      ¬ Meets spelled pageTree ∅ linkTree := by
  have hcommit : commit spelled pageTree linkTree (some (diffEntries spelled pageTree ∅)) = .ok linkTree := by
    rfl
  refine ⟨by decide +kernel, ⟨linkTree, hcommit, rfl⟩, fun h => ?_⟩
  unfold Meets at h
  rw [hcommit] at h
  exact nomatch Table.diff_eq_iff.mp h.1 pagePath

end Gitcmd
