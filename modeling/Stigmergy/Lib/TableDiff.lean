import Stigmergy.Lib.SortedSet
import Stigmergy.Lib.Table

/-!
# The difference of two tables

* `diff`          every key at which two tables differ, in order, with what each has there;
* `mem_diff`      its entries;
* `diff_eq_iff`   from one table, the difference tells all others apart;
* `same`          two tables hold the same, as `dict.__eq__` has it.
-/

set_option linter.unusedSectionVars false

namespace Table

section
variable {κ β : Type*} [LinearOrder κ] [DecidableEq κ] [DecidableEq β]

def diff (a b : AList fun _ : κ => β) : List (κ × Option β × Option β) :=
  (sortedSet (a.keys ++ b.keys)).filterMap fun k =>
    if a.lookup k = b.lookup k then none else some (k, a.lookup k, b.lookup k)

theorem mem_keys_of_ne {a b : AList fun _ : κ => β} {k : κ} (h : a.lookup k ≠ b.lookup k) :
    k ∈ a.keys ++ b.keys := by
  rw [List.mem_append]
  cases ha : a.lookup k with
  | some x => exact Or.inl (mem_keys_iff.mpr ⟨x, ha⟩)
  | none =>
    cases hb : b.lookup k with
    | some y => exact Or.inr (mem_keys_iff.mpr ⟨y, hb⟩)
    | none =>
      rw [ha, hb] at h
      exact absurd rfl h

theorem mem_diff {a b : AList fun _ : κ => β} {k : κ} {x y : Option β} :
    (k, x, y) ∈ diff a b ↔ x = a.lookup k ∧ y = b.lookup k ∧ a.lookup k ≠ b.lookup k := by
  unfold diff
  rw [List.mem_filterMap]
  constructor
  · intro h
    obtain ⟨k', -, h⟩ := h
    split at h
    · exact nomatch h
    · next hne =>
      obtain ⟨rfl, hpair⟩ := Prod.mk.inj (Option.some.inj h)
      obtain ⟨rfl, rfl⟩ := Prod.mk.inj hpair
      exact ⟨rfl, rfl, hne⟩
  · intro h
    obtain ⟨rfl, rfl, hne⟩ := h
    exact ⟨k, mem_sortedSet.mpr (mem_keys_of_ne hne), if_neg hne⟩

theorem diff_congr {a b c : AList fun _ : κ => β} (h : ∀ k, b.lookup k = c.lookup k) : diff a b = diff a c := by
  unfold diff
  have hkeys : sortedSet (a.keys ++ b.keys) = sortedSet (a.keys ++ c.keys) := by
    refine sortedSet_congr fun k => ?_
    rw [List.mem_append, List.mem_append, mem_keys_iff, mem_keys_iff, mem_keys_iff, h k]
  rw [hkeys]
  exact List.filterMap_congr fun k _ => by rw [h k]

/-- from one table, the difference tells all others apart -/
theorem diff_eq_iff {a b c : AList fun _ : κ => β} : diff a b = diff a c ↔ ∀ k, b.lookup k = c.lookup k := by
  refine ⟨fun h k => ?_, diff_congr⟩
  by_cases hb : a.lookup k = b.lookup k
  · by_cases hc : a.lookup k = c.lookup k
    · rw [← hb, ← hc]
    · have hmem := h.symm ▸ (mem_diff (x := a.lookup k) (y := c.lookup k)).mpr ⟨rfl, rfl, hc⟩
      exact (mem_diff.mp hmem).2.1.symm
  · have hmem := h ▸ (mem_diff (x := a.lookup k) (y := b.lookup k)).mpr ⟨rfl, rfl, hb⟩
    exact (mem_diff.mp hmem).2.1

def same (a b : AList fun _ : κ => β) : Bool := (a.keys ++ b.keys).all fun k => a.lookup k == b.lookup k

theorem same_iff {a b : AList fun _ : κ => β} : same a b = true ↔ ∀ k, a.lookup k = b.lookup k := by
  unfold same
  rw [List.all_eq_true]
  constructor
  · intro h k
    by_contra hne
    exact hne (beq_iff_eq.mp (h k (mem_keys_of_ne hne)))
  · intro h k _
    exact beq_iff_eq.mpr (h k)

end

end Table
