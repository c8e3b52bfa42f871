import Mathlib.Data.List.Sort

/-!
# Keyset pages

A listing in a strict total order, read in batches: each batch is what comes after the last element
of the one before.

* `ordered`            the elements in order; `pairwise_ordered`, `ordered_filter`;
* `filter_after`       what comes after an element of an ordered list is the rest of the list;
* `walk`               the batches of a list, where going on after a batch may be refused;
* `exists_walk_iff`    every batch is reached exactly when no element that ends one is refused.
-/

set_option linter.unusedSectionVars false

namespace Keyset

structure StrictTotal {α : Type*} (before : α → α → Bool) : Prop where
  irrefl : ∀ a, before a a = false
  trans : ∀ a b c, before a b = true → before b c = true → before a c = true
  total : ∀ a b, before a b = true ∨ a = b ∨ before b a = true

section
variable {α : Type*} {before : α → α → Bool}

variable (before) in
/-- `ORDER BY` -/
def ordered (l : List α) : List α := l.insertionSort fun a b => before b a = false

theorem mem_ordered {l : List α} {a : α} : a ∈ ordered before l ↔ a ∈ l :=
  List.mem_insertionSort _

theorem perm_ordered (l : List α) : (ordered before l).Perm l := List.perm_insertionSort _ l

section
variable (h : StrictTotal before)
include h

theorem StrictTotal.asymm {a b : α} (hab : before a b = true) : before b a = false := by
  by_contra hne
  have haa := h.trans a b a hab (Bool.eq_true_of_not_eq_false hne)
  rw [h.irrefl] at haa
  exact Bool.false_ne_true haa

theorem pairwise_ordered {l : List α} (hnd : l.Nodup) :
    (ordered before l).Pairwise fun a b => before a b = true := by
  have htotal : Std.Total fun a b => before b a = false := ⟨fun a b => by
    rcases h.total a b with hab | rfl | hba
    · exact Or.inl (h.asymm hab)
    · exact Or.inl (h.irrefl a)
    · exact Or.inr (h.asymm hba)⟩
  have htrans : IsTrans α fun a b => before b a = false := ⟨fun a b c hba hcb => by
    rcases h.total c a with hca | rfl | hac
    · rcases h.total a b with hab | rfl | hba'
      · exact absurd (hcb.symm.trans (h.trans c a b hca hab)) Bool.false_ne_true
      · exact absurd (hcb.symm.trans hca) Bool.false_ne_true
      · exact absurd (hba.symm.trans hba') Bool.false_ne_true
    · exact h.irrefl c
    · exact h.asymm hac⟩
  have hle := List.pairwise_insertionSort (fun a b => before b a = false) l
  have hnd' : (ordered before l).Nodup := (perm_ordered l).nodup_iff.mpr hnd
  refine (hle.and hnd').imp fun {a b} hab => ?_
  rcases h.total a b with hlt | heq | hgt
  · exact hlt
  · exact absurd heq hab.2
  · exact absurd (hab.1.symm.trans hgt) Bool.false_ne_true

/-- an ordered list is known by its elements -/
theorem eq_of_mem_iff {l m : List α} (hl : l.Pairwise fun a b => before a b = true)
    (hm : m.Pairwise fun a b => before a b = true) (hmem : ∀ a, a ∈ l ↔ a ∈ m) : l = m := by
  have hirrefl : Std.Irrefl fun a b => before a b = true := ⟨fun a haa => by
    rw [h.irrefl] at haa
    exact Bool.false_ne_true haa⟩
  have hantisymm : Std.Antisymm fun a b => before a b = true := ⟨fun a b hab hba =>
    absurd ((h.asymm hab).symm.trans hba) Bool.false_ne_true⟩
  exact List.Pairwise.eq_of_mem_iff hl hm hmem

theorem ordered_filter {l : List α} (hnd : l.Nodup) (p : α → Bool) :
    ordered before (l.filter p) = (ordered before l).filter p :=
  eq_of_mem_iff h (pairwise_ordered h (hnd.filter p)) ((pairwise_ordered h hnd).filter p) fun a => by
    rw [mem_ordered, List.mem_filter, List.mem_filter, mem_ordered]

/-- the keyset: what comes after an element is the rest of the list -/
theorem filter_after {xs ys : List α} {a : α}
    (hl : (xs ++ a :: ys).Pairwise fun a b => before a b = true) :
    (xs ++ a :: ys).filter (before a) = ys := by
  obtain ⟨-, hcons, hcross⟩ := List.pairwise_append.mp hl
  obtain ⟨hafter, -⟩ := List.pairwise_cons.mp hcons
  have hxs : xs.filter (before a) = [] := by
    refine List.filter_eq_nil_iff.mpr fun x hx hax => ?_
    exact absurd ((h.asymm (hcross x hx a List.mem_cons_self)).symm.trans hax) Bool.false_ne_true
  rw [List.filter_append, hxs, List.nil_append, List.filter_cons_of_neg (by rw [h.irrefl]; decide),
    List.filter_eq_self.mpr hafter]

end

/-! ## Batches -/

/-- the batches of `rest`, one after the other; `fits` says after which element the next may be asked
for -/
def walk (size : ℕ) (fits : α → Bool) : ℕ → List α → Option (List α)
  | 0, _ => none
  | n + 1, rest =>
    if rest.length ≤ size then some rest
    else match rest[size - 1]? with
      | none => none
      | some a =>
        if fits a then (walk size fits n (rest.drop size)).map (rest.take size ++ ·) else none

/-- no element that ends a batch before the last is refused -/
def AllFit (size : ℕ) (fits : α → Bool) (rest : List α) : Prop :=
  ∀ i a, (i + 1) * size < rest.length → rest[(i + 1) * size - 1]? = some a → fits a = true

section
variable {size : ℕ} {fits : α → Bool} (hsize : 0 < size)
include hsize

theorem walk_eq_some {n : ℕ} {rest visited : List α} (h : walk size fits n rest = some visited) :
    visited = rest ∧ AllFit size fits rest := by
  induction n generalizing rest visited with
  | zero => exact nomatch h
  | succ n ih =>
    rw [walk] at h
    split at h
    · rename_i hlast
      obtain rfl := Option.some.inj h
      refine ⟨rfl, fun i a hi _ => ?_⟩
      have hle : size ≤ (i + 1) * size := Nat.le_mul_of_pos_left size (Nat.succ_pos i)
      omega
    · split at h
      · exact nomatch h
      · rename_i a ha
        split at h
        · rename_i hfits
          obtain ⟨later, hlater, rfl⟩ := Option.map_eq_some_iff.mp h
          obtain ⟨rfl, hall⟩ := ih hlater
          refine ⟨List.take_append_drop size rest, fun i b hi hb => ?_⟩
          cases i with
          | zero =>
            rw [Nat.zero_add, Nat.one_mul, ha] at hb
            obtain rfl := Option.some.inj hb
            exact hfits
          | succ i =>
            have hsplit : (i + 1 + 1) * size = (i + 1) * size + size := Nat.succ_mul (i + 1) size
            have hpos : size ≤ (i + 1) * size := Nat.le_mul_of_pos_left size (Nat.succ_pos i)
            refine hall i b ?_ ?_
            · rw [List.length_drop]
              omega
            · rw [List.getElem?_drop, ← hb]
              congr 1
              omega
        · exact nomatch h

theorem walk_of_allFit {n : ℕ} {rest : List α} (hn : rest.length < n)
    (h : AllFit size fits rest) : walk size fits n rest = some rest := by
  induction n generalizing rest with
  | zero => exact absurd hn (Nat.not_lt_zero _)
  | succ n ih =>
    rw [walk]
    split
    · rfl
    · rename_i hmore
      have hlt : size < rest.length := Nat.lt_of_not_le hmore
      obtain ⟨a, ha⟩ : ∃ a, rest[size - 1]? = some a :=
        ⟨_, List.getElem?_eq_getElem (show size - 1 < rest.length by omega)⟩
      have hfits : fits a = true := h 0 a (by omega) (by rw [Nat.zero_add, Nat.one_mul, ha])
      have hlater : walk size fits n (rest.drop size) = some (rest.drop size) := by
        refine ih ?_ fun i b hi hb => ?_
        · rw [List.length_drop]
          omega
        · have hsplit : (i + 1 + 1) * size = (i + 1) * size + size := Nat.succ_mul (i + 1) size
          have hpos : size ≤ (i + 1) * size := Nat.le_mul_of_pos_left size (Nat.succ_pos i)
          rw [List.length_drop] at hi
          rw [List.getElem?_drop] at hb
          refine h (i + 1) b (by omega) ?_
          rw [← hb]
          congr 1
          omega
      rw [ha]
      show (if fits a then _ else none) = _
      rw [if_pos hfits, hlater, Option.map_some, List.take_append_drop]

/-- every batch is reached exactly when no element that ends one is refused -/
theorem exists_walk_iff {rest : List α} :
    (∃ n, walk size fits n rest = some rest) ↔ AllFit size fits rest := by
  refine ⟨fun ⟨n, hn⟩ => (walk_eq_some hsize hn).2, fun h => ?_⟩
  exact ⟨rest.length + 1, walk_of_allFit hsize (Nat.lt_succ_self _) h⟩

end

end

end Keyset
