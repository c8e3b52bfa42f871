import Mathlib.Data.List.Sort

/-!
# Sorting that keeps ties in their order

* `StablySorted`    a permutation in order whose elements of one key stand as they stood;
* `stablySorted_insertionSort`   insertion sort by a key;
* `StablySorted.constant`   a list that is in order up and down has one key.
-/

set_option linter.unusedSectionVars false

section
variable {α β : Type*} [DecidableEq β]

/-- `out` is `l` in the order of `le`, elements of one key in the order of `l` -/
structure StablySorted (key : α → β) (le : β → β → Prop) (l out : List α) : Prop where
  perm : out.Perm l
  ordered : out.Pairwise fun a b => le (key a) (key b)
  ties : ∀ k, out.filter (fun a => key a = k) = l.filter fun a => key a = k

theorem stablySorted_insertionSort {key : α → β} {le : β → β → Prop}
    [DecidableRel fun a b : α => le (key a) (key b)] (hrefl : ∀ a, le a a) (htotal : ∀ a b, le a b ∨ le b a)
    (htrans : ∀ a b c, le a b → le b c → le a c) (l : List α) :
    StablySorted key le l (l.insertionSort fun a b => le (key a) (key b)) := by
  have ht : Std.Total fun a b : α => le (key a) (key b) := ⟨fun a b => htotal (key a) (key b)⟩
  have hr : IsTrans α fun a b => le (key a) (key b) := ⟨fun a b c => htrans (key a) (key b) (key c)⟩
  have hperm := List.perm_insertionSort (fun a b => le (key a) (key b)) l
  refine ⟨hperm, List.pairwise_insertionSort (fun a b => le (key a) (key b)) l, fun k => ?_⟩
  have hsorted : (l.filter fun a => key a = k).Pairwise fun a b => le (key a) (key b) := by
    refine List.pairwise_of_forall_mem_list fun a ha b hb => ?_
    rw [of_decide_eq_true (List.mem_filter.mp ha).2, of_decide_eq_true (List.mem_filter.mp hb).2]
    exact hrefl k
  have hsub := List.sublist_insertionSort hsorted List.filter_sublist
  have hfilter := hsub.filter fun a => key a = k
  rw [List.filter_filter] at hfilter
  simp only [Bool.and_self] at hfilter
  exact (hfilter.eq_of_length (hperm.filter _).length_eq.symm).symm

theorem StablySorted.constant {key : α → β} {le ge : β → β → Prop} (hanti : ∀ a b, le a b → ge a b → a = b)
    {l out : List α} (h : StablySorted key le l out) (h' : StablySorted key ge l out) :
    ∀ a ∈ l, ∀ b ∈ l, key a = key b := by
  have hboth : out.Pairwise fun a b => key a = key b :=
    h.ordered.imp₂ (fun a b h₁ h₂ => hanti (key a) (key b) h₁ h₂) h'.ordered
  intro a ha b hb
  have hflip : out.Pairwise (flip fun a b => key a = key b) := hboth.imp fun hab => hab.symm
  have hall := List.Pairwise.forall_of_forall_of_flip (R := fun a b => key a = key b) (fun _ _ => rfl) hboth hflip
  exact hall (h.perm.mem_iff.mpr ha) (h.perm.mem_iff.mpr hb)

theorem StablySorted.of_constant {key : α → β} {le ge : β → β → Prop} (hrefl : ∀ a, ge a a) {l out : List α}
    (h : StablySorted key le l out) (hconst : ∀ a ∈ l, ∀ b ∈ l, key a = key b) : StablySorted key ge l out := by
  refine ⟨h.perm, List.pairwise_of_forall_mem_list fun a ha b hb => ?_, h.ties⟩
  rw [hconst a (h.perm.mem_iff.mp ha) b (h.perm.mem_iff.mp hb)]
  exact hrefl _

end
