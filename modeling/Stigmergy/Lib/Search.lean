import Stigmergy.Lib.Text

/-!
# Texts found one after another

* `found`      each text of a list looked for behind the one before it, from the left;
* `InTurn`     the texts stand one after another somewhere in a text;
* `found_iff`  looking from the left finds them whenever they do.
-/

set_option linter.unusedSectionVars false

namespace Search

/-- `find` from where the one before it ended -/
def found : List Text → Text → Bool
  | [], _ => true
  | key :: keys, t =>
    match Text.find key t with
    | none => false
    | some (_, rest) => found keys rest

def InTurn : List Text → Text → Prop
  | [], _ => True
  | key :: keys, t => ∃ u v, t = u ++ key ++ v ∧ InTurn keys v

theorem find_eq_some {p t u v : Text} (h : Text.find p t = some (u, v)) : t = u ++ p ++ v := by
  induction t generalizing u with
  | nil =>
    rw [Text.find] at h
    split at h
    · next hp =>
      obtain ⟨rfl, rfl⟩ := Prod.mk.inj (Option.some.inj h)
      rw [List.isEmpty_iff.mp hp]
      rfl
    · exact absurd h.symm (Option.some_ne_none _)
  | cons c t ih =>
    rw [Text.find] at h
    split at h
    · next hp =>
      obtain ⟨rfl, rfl⟩ := Prod.mk.inj (Option.some.inj h)
      exact (List.prefix_iff_eq_append.mp (List.isPrefixOf_iff_prefix.mp hp)).symm
    · obtain ⟨⟨x, y⟩, hr, heq⟩ := Option.map_eq_some_iff.mp h
      obtain ⟨rfl, rfl⟩ := Prod.mk.inj heq
      exact congrArg (c :: ·) (ih hr)

/-- what follows an occurrence does not matter to it -/
theorem find_grow (x p v : Text) :
    Text.find p (x ++ p ++ v) = (Text.find p (x ++ p)).map fun r => (r.1, r.2 ++ v) := by
  have hfront : ∀ w, Text.find p (p ++ w) = some ([], w) := by
    intro w
    cases hpw : p ++ w with
    | nil =>
      obtain ⟨rfl, rfl⟩ := List.append_eq_nil_iff.mp hpw
      rfl
    | cons c t =>
      have hp : p.isPrefixOf (c :: t) = true := List.isPrefixOf_iff_prefix.mpr ⟨w, hpw⟩
      rw [Text.find, if_pos hp, ← hpw, List.drop_left]
  induction x with
  | nil =>
    have hend := hfront []
    rw [List.append_nil] at hend
    rw [List.nil_append, hfront, hend]
    rfl
  | cons c x ih =>
    have hlen : p.length ≤ (c :: (x ++ p)).length := by
      rw [List.length_cons, List.length_append]
      omega
    have hprefix : p.isPrefixOf (c :: (x ++ p ++ v)) = p.isPrefixOf (c :: (x ++ p)) := by
      refine Bool.eq_iff_iff.mpr ?_
      rw [List.isPrefixOf_iff_prefix, List.isPrefixOf_iff_prefix]
      refine ⟨fun h => ?_, fun h => h.trans (List.prefix_append _ v)⟩
      exact List.prefix_of_prefix_length_le h (List.prefix_append (c :: (x ++ p)) v) hlen
    rw [List.cons_append, List.cons_append, Text.find, Text.find, hprefix]
    split
    · rw [← List.cons_append, List.drop_append_of_le_length hlen]
      rfl
    · rw [ih, Option.map_map, Option.map_map]
      rfl

/-- a text that is found at the very end is found there from anywhere before -/
theorem find_end {a b p : Text} (h : Text.find p (a ++ b ++ p) = some (a ++ b, [])) :
    Text.find p (b ++ p) = some (b, []) := by
  induction a with
  | nil => exact h
  | cons c a ih =>
    refine ih ?_
    rw [List.cons_append, List.cons_append, Text.find] at h
    split at h
    · exact absurd (Prod.mk.inj (Option.some.inj h)).1.symm (List.cons_ne_nil _ _)
    · obtain ⟨⟨x, y⟩, hr, heq⟩ := Option.map_eq_some_iff.mp h
      obtain ⟨hx, rfl⟩ := Prod.mk.inj heq
      obtain rfl : x = a ++ b := (List.cons.inj hx).2
      exact hr

/-- nothing that is found stands in front of it -/
theorem find_self {p t u v : Text} (h : Text.find p t = some (u, v)) : Text.find p (u ++ p) = some (u, []) := by
  have hgrow := find_grow u p v
  rw [← find_eq_some h, h] at hgrow
  obtain ⟨⟨x, y⟩, hr, heq⟩ := Option.map_eq_some_iff.mp hgrow.symm
  obtain ⟨rfl, hy⟩ := Prod.mk.inj heq
  obtain rfl : y = [] := List.append_left_eq_self.mp hy
  exact hr

/-- the first occurrence ends no later than any other -/
theorem find_append (u p v : Text) : ∃ x y, Text.find p (u ++ p ++ v) = some (x, y) ∧ v <:+ y := by
  induction u with
  | nil =>
    cases hpv : p ++ v with
    | nil =>
      obtain ⟨rfl, rfl⟩ := List.append_eq_nil_iff.mp hpv
      exact ⟨[], [], rfl, List.suffix_rfl⟩
    | cons c t =>
      have hp : p.isPrefixOf (c :: t) = true := List.isPrefixOf_iff_prefix.mpr ⟨v, hpv⟩
      refine ⟨[], v, ?_, List.suffix_rfl⟩
      rw [List.nil_append, hpv, Text.find, if_pos hp, ← hpv, List.drop_left]
  | cons c u ih =>
    obtain ⟨x, y, hfind, hv⟩ := ih
    rw [List.cons_append, List.cons_append, Text.find]
    split
    · refine ⟨[], _, rfl, ?_⟩
      have hlen : p.length ≤ (c :: (u ++ p)).length := by
        rw [List.length_cons, List.length_append]
        omega
      rw [← List.cons_append, List.drop_append_of_le_length hlen]
      exact List.suffix_append _ v
    · exact ⟨c :: x, y, by rw [hfind]; rfl, hv⟩

theorem InTurn.mono {keys : List Text} {t s : Text} (h : InTurn keys t) (hs : t <:+ s) : InTurn keys s := by
  cases keys with
  | nil => trivial
  | cons key keys =>
    obtain ⟨u, v, rfl, hv⟩ := h
    obtain ⟨w, rfl⟩ := hs
    refine ⟨w ++ u, v, ?_, hv⟩
    simp only [List.append_assoc]

/-- looking from the left finds what stands in turn -/
theorem found_iff {keys : List Text} {t : Text} : found keys t = true ↔ InTurn keys t := by
  induction keys generalizing t with
  | nil => exact ⟨fun _ => trivial, fun _ => rfl⟩
  | cons key keys ih =>
    rw [found]
    constructor
    · intro h
      split at h
      · exact absurd h Bool.false_ne_true
      · next u v hfind => exact ⟨u, v, find_eq_some hfind, ih.mp h⟩
    · rintro ⟨u, v, rfl, hv⟩
      obtain ⟨x, y, hfind, hsuffix⟩ := find_append u key v
      rw [hfind]
      exact ih.mpr (hv.mono hsuffix)

end Search
