import Mathlib.Data.List.Sort
import Mathlib.Data.List.Dedup
import Mathlib.Data.List.Induction

/-!
# Lists without repetition

`sorted(set(…))`, the elements of a list once each and in order, and `list(dict.fromkeys(…))`, the
elements once each where they first occur.

* `mem_sortedSet`   a sorted set has the elements of the list;
* `sortedSet_congr`   lists with the same elements give the same sorted set;
* `sortedSet_eq_iff`   and only those;
* `mem_firsts`      first occurrences have the elements of the list;
* `firsts_append`   the first occurrences in a list do not depend on what comes after it;
* `pairwise_firsts` first occurrences stand in the order of the list.
-/

set_option linter.unusedSectionVars false

section
variable {α : Type*} [DecidableEq α]

/-- the first occurrence of each element -/
def firsts (l : List α) : List α := l.reverse.dedup.reverse

theorem mem_firsts {l : List α} {a : α} : a ∈ firsts l ↔ a ∈ l := by
  unfold firsts
  rw [List.mem_reverse, List.mem_dedup, List.mem_reverse]

theorem nodup_firsts (l : List α) : (firsts l).Nodup :=
  List.nodup_reverse.mpr l.reverse.nodup_dedup

theorem firsts_concat (l : List α) (a : α) :
    firsts (l ++ [a]) = if a ∈ l then firsts l else firsts l ++ [a] := by
  unfold firsts
  rw [List.reverse_append, List.reverse_singleton, List.singleton_append]
  split
  · rename_i h
    rw [List.dedup_cons_of_mem (List.mem_reverse.mpr h)]
  · rename_i h
    rw [List.dedup_cons_of_notMem (fun hm => h (List.mem_reverse.mp hm)), List.reverse_cons]

theorem firsts_append (l m : List α) : ∃ n, n.Sublist m ∧ firsts (l ++ m) = firsts l ++ n := by
  induction m using List.reverseRecOn with
  | nil => exact ⟨[], List.Sublist.refl [], by rw [List.append_nil, List.append_nil]⟩
  | append_singleton m a ih =>
    obtain ⟨n, hn, hfirsts⟩ := ih
    rw [← List.append_assoc, firsts_concat, hfirsts]
    split
    · exact ⟨n, hn.trans (List.sublist_append_left m [a]), rfl⟩
    · exact ⟨n ++ [a], hn.append_right [a], List.append_assoc _ _ _⟩

theorem eq_singleton_of_nodup {l : List α} (hl : l.Nodup) {a : α} : l = [a] ↔ a ∈ l ∧ ∀ b ∈ l, b = a := by
  constructor
  · rintro rfl
    exact ⟨List.mem_singleton_self a, fun b hb => List.mem_singleton.mp hb⟩
  · rintro ⟨ha, hall⟩
    refine List.perm_singleton.mp ((List.perm_ext_iff_of_nodup hl (List.nodup_singleton a)).mpr fun b => ?_)
    rw [List.mem_singleton]
    exact ⟨hall b, fun h => h ▸ ha⟩

/-- first occurrences stand in the order of their lists -/
theorem pairwise_firsts {β : Type*} {f : β → α} {r : β → β → Prop} {l : List β} (h : l.Pairwise r) :
    (firsts (l.map f)).Pairwise fun a b => ∃ x ∈ l, f x = a ∧ ∀ y ∈ l, f y = b → r x y := by
  induction l using List.reverseRecOn with
  | nil => exact List.Pairwise.nil
  | append_singleton l z ih =>
    obtain ⟨hl, -, hlast⟩ := List.pairwise_append.mp h
    have hlast : ∀ x ∈ l, r x z := fun x hx => hlast x hx z (List.mem_singleton_self z)
    have hold : ∀ a b, (∃ x ∈ l, f x = a ∧ ∀ y ∈ l, f y = b → r x y) →
        ∃ x ∈ l ++ [z], f x = a ∧ ∀ y ∈ l ++ [z], f y = b → r x y := by
      rintro a b ⟨x, hx, hxa, hall⟩
      refine ⟨x, List.mem_append_left _ hx, hxa, fun y hy hyb => ?_⟩
      rcases List.mem_append.mp hy with hy | hy
      · exact hall y hy hyb
      · rw [List.mem_singleton.mp hy]
        exact hlast x hx
    have hfront := (ih hl).imp fun {a b} => hold a b
    rw [List.map_append, List.map_singleton, firsts_concat]
    split
    · exact hfront
    · next hnew =>
      refine List.pairwise_append.mpr ⟨hfront, List.pairwise_singleton _ _, fun a ha b hb => ?_⟩
      obtain ⟨x, hx, rfl⟩ := List.mem_map.mp (mem_firsts.mp ha)
      refine ⟨x, List.mem_append_left _ hx, rfl, fun y hy hyb => ?_⟩
      rw [List.mem_singleton.mp hb] at hyb
      rcases List.mem_append.mp hy with hy | hy
      · exact absurd (List.mem_map.mpr ⟨y, hy, hyb⟩) hnew
      · rw [List.mem_singleton.mp hy]
        exact hlast x hx

end

section
variable {α : Type*} [LinearOrder α]

def sortedSet (l : List α) : List α := l.dedup.insertionSort (· ≤ ·)

theorem mem_sortedSet {l : List α} {a : α} : a ∈ sortedSet l ↔ a ∈ l := by
  unfold sortedSet
  rw [List.mem_insertionSort, List.mem_dedup]

theorem nodup_sortedSet (l : List α) : (sortedSet l).Nodup :=
  (List.perm_insertionSort (· ≤ ·) l.dedup).nodup_iff.mpr l.nodup_dedup

theorem sortedSet_singleton (a : α) : sortedSet [a] = [a] := by
  unfold sortedSet
  rw [List.dedup_eq_self.mpr (List.nodup_singleton a)]
  rfl

theorem sortedSet_congr {l m : List α} (h : ∀ a, a ∈ l ↔ a ∈ m) : sortedSet l = sortedSet m := by
  have hperm : (sortedSet l).Perm (sortedSet m) :=
    (List.perm_ext_iff_of_nodup (nodup_sortedSet l) (nodup_sortedSet m)).mpr fun a => by
      rw [mem_sortedSet, mem_sortedSet, h a]
  exact hperm.eq_of_pairwise' (List.pairwise_insertionSort (· ≤ ·) l.dedup)
    (List.pairwise_insertionSort (· ≤ ·) m.dedup)

theorem sortedSet_eq_iff {l m : List α} : sortedSet l = sortedSet m ↔ ∀ a, a ∈ l ↔ a ∈ m := by
  constructor
  · intro h a
    rw [← mem_sortedSet, h, mem_sortedSet]
  · exact sortedSet_congr

end
