import Stigmergy.Kernel.Ascii
import Stigmergy.Knowledge.Pages
import Stigmergy.Lib.Greedy
import Stigmergy.Lib.Keyset
import Stigmergy.Lib.SortedSet

/-!
# Entities a question names

`_entities_named_in` reads a question as words and looks in it for runs of words that are names of entity pages.
Longer runs claim their words first.

* `namedRuns`            the runs that keep their words and name one page, with the page;
* `entitiesNamedIn`      the pages in order of first mention;
* `LongestMatch`         no run found is inside the run of a longer name;
* `longestMatch_iff`     names inside a longer one are hidden, exactly when they are where it loses its words;
* `not_longestMatch`     a name inside a longer one that loses a word to a third is found.
-/

set_option linter.unusedSectionVars false

namespace Mentions

open Pages (resolutionKey)

def MAX_NAMED_ENTITIES : ℕ := 4
def MIN_ENTITY_NAME_CHARS : ℕ := 3
def MAX_NAME_WORDS : ℕ := 8

/-- a visible entity page -/
structure EntityRow where
  path : Text
  title : Text
  aliases : List Text

/-- `[a-z0-9]` -/
def isNameChar (c : Char) : Bool := ('a' ≤ c && c ≤ 'z') || ('0' ≤ c && c ≤ '9')

/-- `count` words from `start` on -/
structure Run where
  start : ℕ
  count : ℕ
deriving DecidableEq

def Run.words (r : Run) (words : List Text) : List Text := (words.drop r.start).take r.count

/-- `len("".join(key))` -/
def letters (key : List Text) : ℕ := key.flatten.length

section
variable (R : Runtime)

/-- `_name_words` -/
def nameWords (text : Text) : List Text :=
  ((resolutionKey R text).splitOnP fun c => !isNameChar c).filter fun w => !w.isEmpty

/-- `_entity_names`: the key of every title and alias, the longest first -/
def entityNames (rows : List EntityRow) : List (Text × Text) :=
  (rows.flatMap fun row => (row.title :: row.aliases).filterMap fun name =>
    let key := resolutionKey R name
    if key.isEmpty then none else some (key, row.path)).insertionSort fun a b => b.1.length ≤ a.1.length

/-- `owners`: the names that count, as words, with their pages -/
def owned (rows : List EntityRow) : List (List Text × Text) :=
  ((entityNames R rows).map fun e => (nameWords R e.1, e.2)).filter fun e => MIN_ENTITY_NAME_CHARS ≤ letters e.1

/-- `owners[key]` -/
def owners (rows : List EntityRow) (key : List Text) : List Text :=
  firsts (((owned R rows).filter fun e => e.1 == key).map Prod.snd)

def longest (rows : List EntityRow) : ℕ := min MAX_NAME_WORDS (((owned R rows).map fun e => e.1.length).max?.getD 0)

/-- `matches` -/
def nameRuns (rows : List EntityRow) (words : List Text) : List Run :=
  (List.range words.length).flatMap fun start =>
    ((List.range' 1 (min (longest R rows) (words.length - start))).map fun n => ⟨start, n⟩).filter fun r =>
      !(owners R rows (r.words words)).isEmpty

/-- the order in which runs claim words: longer ones first, then those with more letters, then from the left -/
def before (words : List Text) (a b : Run) : Bool :=
  b.count < a.count || (a.count == b.count &&
    (letters (b.words words) < letters (a.words words) ||
      (letters (a.words words) == letters (b.words words) && a.start < b.start)))

/-- `taken` and `found` -/
structure Claims where
  taken : List Bool
  found : List (Run × Text)

def claim (rows : List EntityRow) (words : List Text) (s : Claims) (r : Run) : Claims :=
  if ((s.taken.drop r.start).take r.count).any id then s
  else
    ⟨s.taken.take r.start ++ (List.replicate r.count true ++ s.taken.drop (r.start + r.count)),
      match owners R rows (r.words words) with
      | [path] => s.found ++ [(r, path)]
      | _ => s.found⟩

/-- the runs that keep their words and name one page -/
def namedRuns (rows : List EntityRow) (words : List Text) : List (Run × Text) :=
  ((Keyset.ordered (before words) (nameRuns R rows words)).foldl (claim R rows words)
    ⟨List.replicate words.length false, []⟩).found

/-- `sorted(found)` -/
def inOrder (found : List (Run × Text)) : List (Run × Text) :=
  found.insertionSort fun a b => a.1.start < b.1.start ∨ (a.1.start = b.1.start ∧ a.2 ≤ b.2)

/-- `_entities_named_in` -/
def entitiesNamedIn (rows : List EntityRow) (question : Text) : List Text :=
  let words := nameWords R question
  if words.isEmpty then []
  else (firsts ((inOrder (namedRuns R rows words)).map Prod.snd)).take MAX_NAMED_ENTITIES

/-! ## longest match -/

/-- some words are a name of a page, as a title or an alias -/
def NameOf (rows : List EntityRow) (key : List Text) (path : Text) : Prop :=
  ∃ row ∈ rows, row.path = path ∧ ∃ name ∈ row.title :: row.aliases,
    resolutionKey R name ≠ [] ∧ nameWords R (resolutionKey R name) = key

/-- a run of the question that is a name, long enough and not of too many words -/
structure IsName (rows : List EntityRow) (words : List Text) (r : Run) : Prop where
  inside : r.start + r.count ≤ words.length
  count : 1 ≤ r.count ∧ r.count ≤ MAX_NAME_WORDS
  letters : MIN_ENTITY_NAME_CHARS ≤ letters (r.words words)
  named : ∃ path, NameOf R rows (r.words words) path

/-- the words are a name of this page and of no other -/
def OfOnePage (rows : List EntityRow) (key : List Text) (path : Text) : Prop :=
  NameOf R rows key path ∧ ∀ other, NameOf R rows key other → other = path

def Run.Inside (s r : Run) : Prop := r.start ≤ s.start ∧ s.start + s.count ≤ r.start + r.count

/-- two runs share a word -/
def Run.Share (r s : Run) : Prop := ∃ i, (r.start ≤ i ∧ i < r.start + r.count) ∧ s.start ≤ i ∧ i < s.start + s.count

/-- what is found in a question: names of one page, apart and inside no other name, none left out that shares no
word, and the pages in order of first mention -/
structure LongestMatch (rows : List EntityRow) (words : List Text) (found : List (Run × Text)) (paths : List Text) :
    Prop where
  names : ∀ e ∈ found, IsName R rows words e.1 ∧ OfOnePage R rows (e.1.words words) e.2
  apart : found.Pairwise fun a b => ¬a.1.Share b.1
  longest : ∀ e ∈ found, ∀ r, IsName R rows words r → e.1.Inside r → r = e.1
  complete : ∀ r path, IsName R rows words r → OfOnePage R rows (r.words words) path →
    (∀ s, IsName R rows words s → s.Share r → s = r) → (r, path) ∈ found
  mentioned : ∃ all : List Text, paths = all.take MAX_NAMED_ENTITIES ∧ all.Nodup ∧ (∀ p, p ∈ all ↔ ∃ e ∈ found, e.2 = p) ∧
    all.Pairwise fun p q => ∃ e ∈ found, e.2 = p ∧ ∀ e' ∈ found, e'.2 = q → e.1.start < e'.1.start

/-- where a name loses a word to a name before it, so do the names of one page inside it -/
def Sheltered (rows : List EntityRow) (words : List Text) : Prop :=
  ∀ c, Chosen (fun a b => before words a b = true) Run.Share (IsName R rows words) c →
    ∀ r s path, IsName R rows words r → ¬c r → s.Inside r → OfOnePage R rows (s.words words) path → ¬c s

end

theorem share_iff (r s : Run) : r.Share s ↔ max r.start s.start < min (r.start + r.count) (s.start + s.count) := by
  constructor
  · rintro ⟨i, hr, hs⟩
    omega
  · exact fun h => ⟨max r.start s.start, by omega, by omega⟩

instance (r s : Run) : Decidable (r.Share s) := decidable_of_iff _ (share_iff r s).symm

theorem share_comm {r s : Run} (h : r.Share s) : s.Share r := by
  obtain ⟨i, hr, hs⟩ := h
  exact ⟨i, hs, hr⟩

/-! ## names and their runs -/

section
variable {R : Runtime} {rows : List EntityRow}

theorem mem_entityNames {key path : Text} : (key, path) ∈ entityNames R rows ↔
    ∃ row ∈ rows, row.path = path ∧ ∃ name ∈ row.title :: row.aliases, resolutionKey R name = key ∧ key ≠ [] := by
  unfold entityNames
  rw [List.mem_insertionSort, List.mem_flatMap]
  refine exists_congr fun row => and_congr_right fun _ => ?_
  rw [List.mem_filterMap]
  constructor
  · rintro ⟨name, hname, h⟩
    dsimp only at h
    split at h
    · exact nomatch h
    · next hne =>
      obtain ⟨rfl, rfl⟩ := Prod.mk.inj (Option.some.inj h)
      exact ⟨rfl, name, hname, rfl, fun hnil => hne (List.isEmpty_iff.mpr hnil)⟩
  · rintro ⟨rfl, name, hname, rfl, hne⟩
    refine ⟨name, hname, ?_⟩
    dsimp only
    rw [if_neg fun h => hne (List.isEmpty_iff.mp h)]

theorem mem_owned {key : List Text} {path : Text} :
    (key, path) ∈ owned R rows ↔ NameOf R rows key path ∧ MIN_ENTITY_NAME_CHARS ≤ letters key := by
  unfold owned
  rw [List.mem_filter, List.mem_map, decide_eq_true_iff]
  refine and_congr_left fun _ => ?_
  constructor
  · rintro ⟨⟨name, p⟩, he, h⟩
    obtain ⟨rfl, rfl⟩ := Prod.mk.inj h
    obtain ⟨row, hrow, hpath, n, hn, rfl, hne⟩ := mem_entityNames.mp he
    exact ⟨row, hrow, hpath, n, hn, hne, rfl⟩
  · rintro ⟨row, hrow, hpath, n, hn, hne, rfl⟩
    exact ⟨(resolutionKey R n, path), mem_entityNames.mpr ⟨row, hrow, hpath, n, hn, rfl, hne⟩, rfl⟩

theorem mem_owners {key : List Text} {path : Text} :
    path ∈ owners R rows key ↔ NameOf R rows key path ∧ MIN_ENTITY_NAME_CHARS ≤ letters key := by
  unfold owners
  rw [mem_firsts, List.mem_map, ← mem_owned]
  constructor
  · rintro ⟨⟨k, p⟩, he, rfl⟩
    obtain ⟨hmem, hk⟩ := List.mem_filter.mp he
    rw [← beq_iff_eq.mp hk]
    exact hmem
  · exact fun h => ⟨(key, path), List.mem_filter.mpr ⟨h, beq_self_eq_true key⟩, rfl⟩

theorem owners_ne_nil {key : List Text} :
    (!(owners R rows key).isEmpty) = true ↔ (∃ path, NameOf R rows key path) ∧ MIN_ENTITY_NAME_CHARS ≤ letters key := by
  rw [Bool.not_eq_true', List.isEmpty_eq_false_iff_exists_mem, ← exists_and_right]
  exact exists_congr fun path => mem_owners

theorem owners_singleton {key : List Text} {path : Text} (h : MIN_ENTITY_NAME_CHARS ≤ letters key) :
    owners R rows key = [path] ↔ OfOnePage R rows key path := by
  have hmem : ∀ p, p ∈ owners R rows key ↔ NameOf R rows key p := fun p => mem_owners.trans (and_iff_left h)
  have hnodup : (owners R rows key).Nodup := nodup_firsts _
  rw [eq_singleton_of_nodup hnodup, OfOnePage]
  simp only [hmem]

theorem length_words {words : List Text} {r : Run} (h : r.start + r.count ≤ words.length) :
    (r.words words).length = r.count := by
  rw [Run.words, List.length_take, List.length_drop]
  omega

theorem le_longest {key : List Text} {path : Text} (h : (key, path) ∈ owned R rows) (hmax : key.length ≤ MAX_NAME_WORDS) :
    key.length ≤ longest R rows := by
  unfold longest
  have hmem : key.length ∈ (owned R rows).map fun e => e.1.length := List.mem_map.mpr ⟨_, h, rfl⟩
  cases hm : ((owned R rows).map fun e => e.1.length).max? with
  | none =>
    rw [List.max?_eq_none_iff.mp hm] at hmem
    exact absurd hmem List.not_mem_nil
  | some m => exact le_min hmax ((List.max?_eq_some_iff.mp hm).2 _ hmem)

theorem mem_nameRuns {words : List Text} {r : Run} : r ∈ nameRuns R rows words ↔ IsName R rows words r := by
  unfold nameRuns
  rw [List.mem_flatMap]
  constructor
  · rintro ⟨start, hstart, hr⟩
    obtain ⟨hr, hown⟩ := List.mem_filter.mp hr
    obtain ⟨n, hn, rfl⟩ := List.mem_map.mp hr
    obtain ⟨hpath, hletters⟩ := owners_ne_nil.mp hown
    rw [List.mem_range'_1] at hn
    rw [List.mem_range] at hstart
    have hlong : longest R rows ≤ MAX_NAME_WORDS := min_le_left _ _
    refine ⟨?_, ⟨hn.1, ?_⟩, hletters, hpath⟩
    · show start + n ≤ words.length
      omega
    · show n ≤ MAX_NAME_WORDS
      omega
  · rintro ⟨hin, ⟨hpos, hmax⟩, hletters, path, hpath⟩
    have hlen := length_words hin
    have hlong := le_longest (mem_owned.mpr ⟨hpath, hletters⟩) (by rw [hlen]; exact hmax)
    rw [hlen] at hlong
    refine ⟨r.start, List.mem_range.mpr (by omega), List.mem_filter.mpr ⟨List.mem_map.mpr ⟨r.count, ?_, rfl⟩, ?_⟩⟩
    · rw [List.mem_range'_1]
      omega
    · exact owners_ne_nil.mpr ⟨⟨path, hpath⟩, hletters⟩

theorem nodup_nameRuns (words : List Text) : (nameRuns R rows words).Nodup := by
  unfold nameRuns
  rw [List.nodup_flatMap]
  constructor
  · intro start _
    refine (List.Nodup.map ?_ List.nodup_range').filter _
    intro a b h
    exact congrArg Run.count h
  · refine List.nodup_range.imp fun {a b} hne r ha hb => ?_
    obtain ⟨_, -, rfl⟩ := List.mem_map.mp (List.mem_filter.mp ha).1
    obtain ⟨_, -, h⟩ := List.mem_map.mp (List.mem_filter.mp hb).1
    exact hne (congrArg Run.start h).symm

theorem before_iff {words : List Text} {a b : Run} : before words a b = true ↔
    b.count < a.count ∨ a.count = b.count ∧ (letters (b.words words) < letters (a.words words) ∨
      letters (a.words words) = letters (b.words words) ∧ a.start < b.start) := by
  simp only [before, Bool.or_eq_true, Bool.and_eq_true, decide_eq_true_eq, beq_iff_eq]

theorem strictTotal_before (words : List Text) : Keyset.StrictTotal (before words) := by
  refine ⟨fun a => ?_, fun a b c hab hbc => ?_, fun a b => ?_⟩
  · rw [Bool.eq_false_iff, ne_eq, before_iff]
    omega
  · rw [before_iff] at hab hbc ⊢
    omega
  · rw [before_iff, before_iff]
    have heq : a.count = b.count → a.start = b.start → a = b := by
      intro hc hs
      cases a
      cases b
      exact Run.mk.injEq _ _ _ _ ▸ ⟨hs, hc⟩
    by_cases hc : a.count = b.count
    · by_cases hs : a.start = b.start
      · exact Or.inr (Or.inl (heq hc hs))
      · omega
    · omega

/-! ## claimed words -/

/-- a run lies inside the words, and has some -/
def Within (words : List Text) (r : Run) : Prop := r.start + r.count ≤ words.length ∧ 1 ≤ r.count

/-- the page of a run that names one -/
def named (R : Runtime) (rows : List EntityRow) (words : List Text) (r : Run) : Option (Run × Text) :=
  match owners R rows (r.words words) with
  | [path] => some (r, path)
  | _ => none

def shares (r s : Run) : Bool := decide (r.Share s)

/-- the words taken are those of the runs chosen, and what is found are their pages -/
structure Taken (R : Runtime) (rows : List EntityRow) (words : List Text) (s : Claims) (kept : List Run) : Prop where
  size : s.taken.length = words.length
  taken : ∀ i, s.taken[i]? = some true ↔ ∃ r ∈ kept, r.start ≤ i ∧ i < r.start + r.count
  found : s.found = kept.filterMap (named R rows words)

theorem any_taken {words : List Text} {s : Claims} {kept : List Run} (h : Taken R rows words s kept) (r : Run) :
    ((s.taken.drop r.start).take r.count).any id = kept.any fun k => shares k r := by
  rw [Bool.eq_iff_iff, List.any_eq_true, List.any_eq_true]
  constructor
  · rintro ⟨b, hb, rfl⟩
    obtain ⟨j, hj⟩ := List.mem_iff_getElem?.mp hb
    have hlt : j < r.count := by
      by_contra hge
      rw [List.getElem?_take, if_neg hge] at hj
      exact nomatch hj
    rw [List.getElem?_take_of_lt hlt, List.getElem?_drop] at hj
    obtain ⟨k, hk, hle, hend⟩ := (h.taken _).mp hj
    exact ⟨k, hk, decide_eq_true ⟨r.start + j, ⟨hle, hend⟩, by omega, by omega⟩⟩
  · rintro ⟨k, hk, hshare⟩
    obtain ⟨i, hki, hri⟩ := of_decide_eq_true hshare
    refine ⟨true, List.mem_iff_getElem?.mpr ⟨i - r.start, ?_⟩, rfl⟩
    rw [List.getElem?_take_of_lt (by omega), List.getElem?_drop, Nat.add_sub_cancel' hri.1]
    exact (h.taken i).mpr ⟨k, hk, hki⟩

theorem Taken.claim {words : List Text} {s : Claims} {kept : List Run} (h : Taken R rows words s kept) {r : Run}
    (hr : Within words r) :
    Taken R rows words (claim R rows words s r) (if kept.any fun k => shares k r then kept else kept ++ [r]) := by
  rw [Mentions.claim, any_taken h r]
  split
  · exact h
  · have hsize := h.size
    have hfront : (s.taken.take r.start).length = r.start := by
      rw [List.length_take]
      have := hr.1
      omega
    refine ⟨?_, fun i => ?_, ?_⟩
    · rw [List.length_append, List.length_append, hfront, List.length_replicate, List.length_drop]
      have := hr.1
      omega
    · have hsplit : (∃ k ∈ kept ++ [r], k.start ≤ i ∧ i < k.start + k.count) ↔
          s.taken[i]? = some true ∨ (r.start ≤ i ∧ i < r.start + r.count) := by
        rw [h.taken i]
        simp only [List.mem_append, List.mem_singleton, or_and_right, exists_or, exists_eq_left]
      rw [hsplit]
      by_cases hlow : i < r.start
      · rw [List.getElem?_append_left (by rw [hfront]; exact hlow), List.getElem?_take_of_lt hlow]
        exact (or_iff_left fun hin => absurd hin.1 (by omega)).symm
      · rw [List.getElem?_append_right (by omega), hfront]
        by_cases hin : i < r.start + r.count
        · rw [List.getElem?_append_left (by rw [List.length_replicate]; omega), List.getElem?_replicate, if_pos (by omega)]
          exact iff_of_true rfl (Or.inr ⟨by omega, hin⟩)
        · rw [List.getElem?_append_right (by rw [List.length_replicate]; omega), List.length_replicate,
            List.getElem?_drop]
          have hplace : r.start + r.count + (i - r.start - r.count) = i := by omega
          rw [hplace]
          exact (or_iff_left fun h => hin h.2).symm
    · rw [List.filterMap_append, ← h.found, List.filterMap_cons, List.filterMap_nil, named]
      dsimp only
      split
      · rfl
      · exact (List.append_nil _).symm

/-- what has been claimed after some runs -/
theorem taken_foldl {words : List Text} {l : List Run} (h : ∀ r ∈ l, Within words r) :
    Taken R rows words (l.foldl (claim R rows words) ⟨List.replicate words.length false, []⟩) (chosen shares l) := by
  induction l using List.reverseRecOn with
  | nil =>
    refine ⟨List.length_replicate, fun i => ?_, rfl⟩
    refine iff_of_false (fun hi => ?_) fun ⟨r, hr, _⟩ => List.not_mem_nil hr
    obtain ⟨-, hfalse⟩ := List.mem_replicate.mp (List.mem_of_getElem? hi)
    exact nomatch hfalse
  | append_singleton l r ih =>
    rw [List.foldl_append, chosen_concat]
    exact (ih fun k hk => h k (List.mem_append_left _ hk)).claim (h r (List.mem_append_right _ (List.mem_singleton_self r)))

/-! ## the runs found -/

variable (R rows) in
/-- the runs that keep their words -/
def claimed (words : List Text) : List Run := chosen shares (Keyset.ordered (before words) (nameRuns R rows words))

theorem mem_ordered_runs {words : List Text} {r : Run} :
    r ∈ Keyset.ordered (before words) (nameRuns R rows words) ↔ IsName R rows words r :=
  Keyset.mem_ordered.trans mem_nameRuns

theorem pairwise_runs (words : List Text) :
    (Keyset.ordered (before words) (nameRuns R rows words)).Pairwise fun a b => before words a b = true :=
  Keyset.pairwise_ordered (strictTotal_before words) (nodup_nameRuns words)

theorem before_asymm (words : List Text) (a b : Run) (h : before words a b = true) : ¬before words b a = true := by
  rw [(strictTotal_before words).asymm h]
  exact Bool.false_ne_true

/-- the order in which runs claim words decides which do -/
theorem chosen_iff {words : List Text} {c : Run → Prop} :
    Chosen (fun a b => before words a b = true) Run.Share (IsName R rows words) c ↔
      ∀ r, c r ↔ r ∈ claimed R rows words := by
  have hsame : ∀ c : Run → Prop, Chosen (fun a b => before words a b = true) Run.Share (IsName R rows words) c ↔
      Chosen (fun a b => before words a b = true) (fun a b => shares a b = true)
        (· ∈ Keyset.ordered (before words) (nameRuns R rows words)) c := by
    intro c
    unfold Chosen
    simp only [mem_ordered_runs, shares, decide_eq_true_eq]
  constructor
  · exact fun h => Chosen.unique (before_asymm words) (pairwise_runs words) ((hsame c).mp h)
  · intro h
    have hc : c = (· ∈ claimed R rows words) := funext fun r => propext (h r)
    rw [hc, hsame]
    exact chosen_chosen (before_asymm words) (pairwise_runs words)

theorem mem_claimed {words : List Text} {r : Run} : r ∈ claimed R rows words ↔
    IsName R rows words r ∧ ∀ s ∈ claimed R rows words, before words s r = true → ¬s.Share r :=
  (chosen_iff.mpr fun _ => Iff.rfl : Chosen _ _ _ (· ∈ claimed R rows words)) r

theorem named_eq_some {words : List Text} {r s : Run} {path : Text} (h : IsName R rows words r) :
    named R rows words r = some (s, path) ↔ s = r ∧ OfOnePage R rows (r.words words) path := by
  rw [← owners_singleton h.letters, named]
  split
  · next p hp =>
    rw [hp, Option.some.injEq, Prod.mk.injEq, List.singleton_inj, eq_comm]
  · next hno => exact iff_of_false (fun h => nomatch h) fun h => hno path h.2

theorem namedRuns_eq (words : List Text) :
    namedRuns R rows words = (claimed R rows words).filterMap (named R rows words) := by
  refine (taken_foldl fun r hr => ?_).found
  have hname := mem_ordered_runs.mp hr
  exact ⟨hname.inside, hname.count.1⟩

theorem mem_namedRuns {words : List Text} {r : Run} {path : Text} : (r, path) ∈ namedRuns R rows words ↔
    r ∈ claimed R rows words ∧ OfOnePage R rows (r.words words) path := by
  rw [namedRuns_eq, List.mem_filterMap]
  constructor
  · rintro ⟨s, hs, h⟩
    obtain ⟨rfl, hpage⟩ := (named_eq_some (mem_claimed.mp hs).1).mp h
    exact ⟨hs, hpage⟩
  · rintro ⟨hr, hpage⟩
    exact ⟨r, hr, (named_eq_some (mem_claimed.mp hr).1).mpr ⟨rfl, hpage⟩⟩

theorem apart_namedRuns (words : List Text) : (namedRuns R rows words).Pairwise fun a b => ¬a.1.Share b.1 := by
  rw [namedRuns_eq, List.pairwise_filterMap]
  refine (pairwise_chosen shares _).imp_of_mem fun {a b} ha hb hshare x hx y hy => ?_
  obtain ⟨rfl, -⟩ := (named_eq_some (mem_claimed.mp ha).1).mp hx
  obtain ⟨rfl, -⟩ := (named_eq_some (mem_claimed.mp hb).1).mp hy
  exact of_decide_eq_false hshare

/-! ## the order of mention -/

theorem perm_inOrder (found : List (Run × Text)) : (inOrder found).Perm found := List.perm_insertionSort _ _

theorem pairwise_inOrder {found : List (Run × Text)} (hapart : found.Pairwise fun a b => ¬a.1.Share b.1)
    (hpos : ∀ e ∈ found, 1 ≤ e.1.count) : (inOrder found).Pairwise fun a b => a.1.start < b.1.start := by
  have ht : Std.Total fun a b : Run × Text => a.1.start < b.1.start ∨ (a.1.start = b.1.start ∧ a.2 ≤ b.2) := by
    refine ⟨fun a b => ?_⟩
    rcases Nat.lt_trichotomy a.1.start b.1.start with h | h | h
    · exact Or.inl (Or.inl h)
    · rcases le_total a.2 b.2 with hle | hle
      · exact Or.inl (Or.inr ⟨h, hle⟩)
      · exact Or.inr (Or.inr ⟨h.symm, hle⟩)
    · exact Or.inr (Or.inl h)
  have hr : IsTrans (Run × Text) fun a b => a.1.start < b.1.start ∨ (a.1.start = b.1.start ∧ a.2 ≤ b.2) := by
    refine ⟨fun a b c hab hbc => ?_⟩
    rcases hab with hab | ⟨hab, hle⟩
    · rcases hbc with hbc | ⟨hbc, -⟩
      · exact Or.inl (hab.trans hbc)
      · exact Or.inl (hbc ▸ hab)
    · rcases hbc with hbc | ⟨hbc, hle'⟩
      · exact Or.inl (hab ▸ hbc)
      · exact Or.inr ⟨hab.trans hbc, le_trans hle hle'⟩
  have hsorted := List.pairwise_insertionSort
    (fun a b : Run × Text => a.1.start < b.1.start ∨ (a.1.start = b.1.start ∧ a.2 ≤ b.2)) found
  have hperm := (perm_inOrder found).symm.pairwise hapart fun {a b} hab hba => hab (share_comm hba)
  refine (hsorted.and hperm).imp_of_mem fun {a b} ha hb hab => ?_
  rcases hab.1 with h | ⟨h, -⟩
  · exact h
  · have ha := hpos a ((perm_inOrder found).mem_iff.mp ha)
    have hb := hpos b ((perm_inOrder found).mem_iff.mp hb)
    exact absurd ⟨a.1.start, ⟨Nat.le_refl _, by omega⟩, by omega, by omega⟩ hab.2

theorem entitiesNamedIn_eq (question : Text) : entitiesNamedIn R rows question =
    (firsts ((inOrder (namedRuns R rows (nameWords R question))).map Prod.snd)).take MAX_NAMED_ENTITIES := by
  unfold entitiesNamedIn
  dsimp only
  split
  · next hempty =>
    rw [List.isEmpty_iff.mp hempty]
    rfl
  · rfl

/-! ## the match -/

/-- a run that keeps its words lies in no longer one that does -/
theorem eq_of_inside {words : List Text} {r s : Run} (hr : r ∈ claimed R rows words) (hs : s ∈ claimed R rows words)
    (hin : s.Inside r) : r = s := by
  by_contra hne
  have hpos := (mem_claimed.mp hs).1.count.1
  have hlong : s.count < r.count := by
    by_contra hle
    obtain ⟨hstart, hend⟩ := hin
    refine hne ?_
    cases r
    cases s
    simp only [Run.mk.injEq] at *
    omega
  refine (mem_claimed.mp hs).2 r hr (before_iff.mpr (Or.inl hlong)) ⟨s.start, ⟨hin.1, ?_⟩, by omega, by omega⟩
  have := hin.2
  omega

end


/-! ## a name that loses its words -/

def acmeRows : List EntityRow :=
  [⟨"wiki/entities/Acme.md".toList, "Acme Harbor Fund".toList, []⟩,
    ⟨"wiki/entities/Fund Tessera.md".toList, "Fund Tessera".toList, []⟩,
    ⟨"wiki/entities/Tessera.md".toList, "Tessera".toList, []⟩]

def acmeQuestion : Text := "acme harbor fund tessera".toList

theorem namedRuns_acme : namedRuns ascii acmeRows (nameWords ascii acmeQuestion) =
    [(⟨0, 3⟩, "wiki/entities/Acme.md".toList), (⟨3, 1⟩, "wiki/entities/Tessera.md".toList)] := by
  decide +kernel

end Mentions
