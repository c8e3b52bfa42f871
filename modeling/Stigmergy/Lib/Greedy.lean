import Mathlib.Data.List.Induction
import Mathlib.Data.List.Pairwise

/-!
# Choosing in order

Elements are looked at in order, and one is chosen when it clashes with none chosen before it.

* `Chosen`          what is chosen of a set;
* `chosen`          the same by going through a list;
* `mem_chosen`      a list in order is gone through in that order;
* `Chosen.unique`   nothing else is what is chosen.
-/

set_option linter.unusedSectionVars false

section
variable {α : Type*}

/-- `c` is what is chosen of `p`: each element that clashes with none of `c` before it -/
def Chosen (before clash : α → α → Prop) (p c : α → Prop) : Prop :=
  ∀ a, c a ↔ p a ∧ ∀ b, c b → before b a → ¬clash b a

/-- the elements of a list that clash with none chosen before them -/
def chosen (clash : α → α → Bool) (l : List α) : List α :=
  l.foldl (fun kept a => if kept.any fun b => clash b a then kept else kept ++ [a]) []

theorem chosen_concat (clash : α → α → Bool) (l : List α) (a : α) :
    chosen clash (l ++ [a]) = if (chosen clash l).any fun b => clash b a then chosen clash l else chosen clash l ++ [a] := by
  unfold chosen
  rw [List.foldl_append]
  rfl

theorem mem_of_mem_chosen {clash : α → α → Bool} {l : List α} {a : α} (h : a ∈ chosen clash l) : a ∈ l := by
  induction l using List.reverseRecOn with
  | nil => exact absurd h List.not_mem_nil
  | append_singleton l b ih =>
    rw [chosen_concat] at h
    split at h
    · exact List.mem_append_left _ (ih h)
    · rcases List.mem_append.mp h with h | h
      · exact List.mem_append_left _ (ih h)
      · exact List.mem_append_right _ h

theorem pairwise_chosen (clash : α → α → Bool) (l : List α) : (chosen clash l).Pairwise fun a b => clash a b = false := by
  induction l using List.reverseRecOn with
  | nil => exact List.Pairwise.nil
  | append_singleton l a ih =>
    rw [chosen_concat]
    split
    · exact ih
    · next hno =>
      refine List.pairwise_append.mpr ⟨ih, List.pairwise_singleton _ _, fun b hb c hc => ?_⟩
      rw [List.mem_singleton.mp hc]
      exact Bool.eq_false_iff.mpr fun hclash => hno (List.any_eq_true.mpr ⟨b, hb, hclash⟩)

section
variable {before : α → α → Prop} {clash : α → α → Bool} (hasymm : ∀ a b, before a b → ¬before b a)
include hasymm

theorem mem_chosen {l : List α} (hl : l.Pairwise before) (a : α) :
    a ∈ chosen clash l ↔ a ∈ l ∧ ∀ b ∈ chosen clash l, before b a → clash b a = false := by
  induction l using List.reverseRecOn generalizing a with
  | nil => exact iff_of_false List.not_mem_nil fun h => List.not_mem_nil h.1
  | append_singleton l x ih =>
    obtain ⟨hl, -, hlast⟩ := List.pairwise_append.mp hl
    have hlast : ∀ b ∈ l, before b x := fun b hb => hlast b hb x (List.mem_singleton_self x)
    have hx : x ∉ l := fun h => hasymm x x (hlast x h) (hlast x h)
    have hirrefl : ¬before x x := fun h => hasymm x x h h
    rw [chosen_concat]
    split
    · next hany =>
      obtain ⟨b, hb, hclash⟩ := List.any_eq_true.mp hany
      rw [ih hl a, List.mem_append, List.mem_singleton]
      constructor
      · exact fun h => ⟨Or.inl h.1, h.2⟩
      · rintro ⟨h | rfl, hno⟩
        · exact ⟨h, hno⟩
        · have hfalse := hno b hb (hlast b (mem_of_mem_chosen hb))
          rw [hclash] at hfalse
          exact nomatch hfalse
    · next hno =>
      have hfree : ∀ b ∈ chosen clash l, clash b x = false := fun b hb =>
        Bool.eq_false_iff.mpr fun hclash => hno (List.any_eq_true.mpr ⟨b, hb, hclash⟩)
      simp only [List.mem_append, List.mem_singleton]
      constructor
      · rintro (ha | rfl)
        · obtain ⟨hal, hall⟩ := (ih hl a).mp ha
          refine ⟨Or.inl hal, ?_⟩
          rintro b (hb | rfl) hba
          · exact hall b hb hba
          · exact absurd hba (hasymm a b (hlast a hal))
        · refine ⟨Or.inr rfl, ?_⟩
          rintro b (hb | rfl) hba
          · exact hfree b hb
          · exact absurd hba hirrefl
      · rintro ⟨ha | rfl, hall⟩
        · exact Or.inl ((ih hl a).mpr ⟨ha, fun b hb => hall b (Or.inl hb)⟩)
        · exact Or.inr rfl

/-- what is chosen of the elements of a list in order -/
theorem chosen_chosen {l : List α} (hl : l.Pairwise before) :
    Chosen before (fun a b => clash a b = true) (· ∈ l) (· ∈ chosen clash l) := by
  intro a
  show a ∈ chosen clash l ↔ a ∈ l ∧ ∀ b, b ∈ chosen clash l → before b a → ¬clash b a = true
  rw [mem_chosen hasymm hl a]
  simp only [Bool.not_eq_true]

theorem Chosen.unique {l : List α} (hl : l.Pairwise before) {c : α → Prop}
    (hc : Chosen before (fun a b => clash a b = true) (· ∈ l) c) (a : α) : c a ↔ a ∈ chosen clash l := by
  induction l using List.reverseRecOn generalizing c a with
  | nil => exact iff_of_false (fun h => List.not_mem_nil ((hc a).mp h).1) List.not_mem_nil
  | append_singleton l x ih =>
    obtain ⟨hl, -, hlast⟩ := List.pairwise_append.mp hl
    have hlast : ∀ b ∈ l, before b x := fun b hb => hlast b hb x (List.mem_singleton_self x)
    have hirrefl : ¬before x x := fun h => hasymm x x h h
    have hx : x ∉ l := fun h => hirrefl (hlast x h)
    have hmem : ∀ b, c b → b ∈ l ∨ b = x := fun b hb =>
      (List.mem_append.mp ((hc b).mp hb).1).imp_right List.mem_singleton.mp
    -- what is chosen of the list without its last element
    have hfront : Chosen before (fun a b => clash a b = true) (· ∈ l) fun a => a ∈ l ∧ c a := by
      intro a
      constructor
      · rintro ⟨hal, ha⟩
        exact ⟨hal, fun b hb => ((hc a).mp ha).2 b hb.2⟩
      · rintro ⟨hal, hall⟩
        refine ⟨hal, (hc a).mpr ⟨List.mem_append_left _ hal, fun b hb hba => ?_⟩⟩
        rcases hmem b hb with hbl | rfl
        · exact hall b ⟨hbl, hb⟩ hba
        · exact absurd hba (hasymm a b (hlast a hal))
    have hih := ih hl hfront
    have hcx : c x ↔ ¬((chosen clash l).any fun b => clash b x) = true := by
      rw [hc x]
      constructor
      · rintro ⟨-, hall⟩ hany
        obtain ⟨b, hb, hclash⟩ := List.any_eq_true.mp hany
        obtain ⟨hbl, hcb⟩ := (hih b).mpr hb
        exact hall b hcb (hlast b hbl) hclash
      · intro hno
        refine ⟨List.mem_append_right _ (List.mem_singleton_self x), fun b hb hbx hclash => ?_⟩
        rcases hmem b hb with hbl | rfl
        · exact hno (List.any_eq_true.mpr ⟨b, (hih b).mp ⟨hbl, hb⟩, hclash⟩)
        · exact hirrefl hbx
    rw [chosen_concat]
    by_cases hax : a = x
    · rw [hax, hcx]
      split
      · next hany => exact iff_of_false (not_not_intro hany) fun h => hx (mem_of_mem_chosen h)
      · next hno => exact iff_of_true hno (List.mem_append_right _ (List.mem_singleton_self x))
    · have ha : c a ↔ a ∈ chosen clash l := by
        rw [← hih a]
        refine ⟨fun h => ⟨(hmem a h).resolve_right hax, h⟩, And.right⟩
      rw [ha]
      split
      · exact Iff.rfl
      · rw [List.mem_append, List.mem_singleton]
        exact (or_iff_left hax).symm

end

end
