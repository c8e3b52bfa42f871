import Mathlib.Data.Fintype.Card
import Mathlib.Data.List.Nodup
import Mathlib.Data.Set.Finite.Basic
import Mathlib.Logic.Relation
import Mathlib.Order.WellFounded

/-!
# Orders that follow a relation

A list stands in the order of a relation `r` when no element comes after one it is related to.

* `Follows r l`           the order;
* `Follows.append`        a list of elements nothing is related to may stand in front;
* `Follows.idxOf_lt`      what is related comes first;
* `Follows.acyclic`       a relation that some list of its elements follows has no cycle;
* `exists_source`         of finitely many elements without a cycle, one has nothing related to it.
-/

set_option linter.unusedSectionVars false

namespace Layering

section
variable {α : Type*} {r : α → α → Prop}

/-- the relation among the elements of a list -/
def Among (r : α → α → Prop) (l : List α) (a b : α) : Prop := a ∈ l ∧ b ∈ l ∧ r a b

/-- some element comes back to itself -/
def Cyclic (r : α → α → Prop) : Prop := ∃ a, Relation.TransGen r a a

theorem Cyclic.mono {s : α → α → Prop} (h : ∀ a b, r a b → s a b) (hr : Cyclic r) : Cyclic s := by
  obtain ⟨a, ha⟩ := hr
  exact ⟨a, Relation.TransGen.mono h a a ha⟩

/-- no element comes after one it is related to -/
def Follows (r : α → α → Prop) (l : List α) : Prop := l.Pairwise fun a b => ¬ r b a

theorem Follows.append {l m : List α} (hl : ∀ a ∈ l, ∀ b ∈ l ++ m, ¬ r b a) (hm : Follows r m) :
    Follows r (l ++ m) := by
  refine List.pairwise_append.mpr ⟨?_, hm, fun a ha b hb => hl a ha b (List.mem_append_right l hb)⟩
  refine List.pairwise_of_forall_mem_list fun a ha b hb => ?_
  exact hl a ha b (List.mem_append_left m hb)

/-- what is related comes first -/
theorem Follows.idxOf_lt [BEq α] [LawfulBEq α] {l : List α} (h : Follows r l) {a b : α} (ha : a ∈ l) (hb : b ∈ l)
    (hr : r a b) (hne : a ≠ b) : l.idxOf a < l.idxOf b := by
  have hla := List.idxOf_lt_length_of_mem ha
  have hlb := List.idxOf_lt_length_of_mem hb
  rcases Nat.lt_trichotomy (l.idxOf a) (l.idxOf b) with hlt | heq | hgt
  · exact hlt
  · exact absurd ((List.idxOf_inj ha).mp heq) hne
  · have hrel := List.pairwise_iff_getElem.mp h (l.idxOf b) (l.idxOf a) hlb hla hgt
    rw [List.getElem_idxOf hlb, List.getElem_idxOf hla] at hrel
    exact absurd hr hrel

/-- a relation among the elements of a list that they follow has no cycle -/
theorem Follows.acyclic [DecidableEq α] {l : List α} (h : Follows r l) (hne : ∀ a, ¬ r a a) :
    ¬ Cyclic (Among r l) := by
  intro hc
  obtain ⟨a, ha⟩ := hc
  have hlt : ∀ b, Relation.TransGen (Among r l) a b → l.idxOf a < l.idxOf b := by
    intro b hb
    have hstep : ∀ b c, Among r l b c → l.idxOf b < l.idxOf c := by
      intro b c hbc
      refine h.idxOf_lt hbc.1 hbc.2.1 hbc.2.2 fun heq => ?_
      exact hne c (heq ▸ hbc.2.2)
    induction hb with
    | single hab => exact hstep _ _ hab
    | tail _ hbc ih => exact ih.trans (hstep _ _ hbc)
  exact Nat.lt_irrefl _ (hlt a ha)

/-- of finitely many elements without a cycle, one has nothing related to it -/
theorem exists_source {l : List α} (hl : l ≠ []) (hacyclic : ¬ Cyclic (Among r l)) :
    ∃ a ∈ l, ∀ b ∈ l, ¬ r b a := by
  obtain ⟨a, ha⟩ := List.exists_mem_of_ne_nil l hl
  let up : {a // a ∈ l} → {a // a ∈ l} → Prop := fun a b => Relation.TransGen (Among r l) a.1 b.1
  have : Finite {a // a ∈ l} := (List.finite_toSet l).to_subtype
  have : IsTrans {a // a ∈ l} up := ⟨fun _ _ _ => Relation.TransGen.trans⟩
  have : Std.Irrefl up := ⟨fun a h => hacyclic ⟨a.1, h⟩⟩
  have hwf : WellFounded up := Finite.wellFounded_of_trans_of_irrefl up
  obtain ⟨m, -, hmin⟩ := hwf.has_min Set.univ ⟨⟨a, ha⟩, Set.mem_univ _⟩
  refine ⟨m.1, m.2, fun b hb hr => ?_⟩
  exact hmin ⟨b, hb⟩ (Set.mem_univ _) (Relation.TransGen.single ⟨hb, m.2, hr⟩)

end

end Layering
