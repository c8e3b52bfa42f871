import Stigmergy.Lib.Text

/-!
# Choices of a pattern where the text goes on

A part of a pattern has choices, the preferred one first: what it has read so far, and the text it leaves.
A choice that leaves nothing has reached the end of the text.  Where the text goes on, such a choice stays
and others may come before it that read on.

* `Goes`          the choices before the end and the choices where the text goes on;
* `Stage`         a part of a pattern that goes on;
* `Goes.flatMap`  one part after the other;
* `Goes.head`     the choice taken.
-/

set_option linter.unusedSectionVars false

namespace Choices

section
variable {A : Type*}

/-- the text goes on with `more`; what is read of it is `wider` what was read at the end, and leaves one of the
texts `left` -/
inductive Goes (wider : A → A → Prop) (left : Text → Prop) (more : Text) :
    List (A × Text) → List (A × Text) → Prop where
  | nil : Goes wider left more [] []
  | inside {a : A} {r : Text} {l l' : List (A × Text)} (hr : r ≠ []) (h : Goes wider left more l l') :
      Goes wider left more ((a, r) :: l) ((a, r ++ more) :: l')
  | atEnd {a : A} {l l' : List (A × Text)} (extra : List (A × Text)) (hx : ∀ e ∈ extra, wider a e.1 ∧ left e.2)
      (h : Goes wider left more l l') : Goes wider left more ((a, []) :: l) (extra ++ (a, more) :: l')

variable {wider : A → A → Prop} {left : Text → Prop} {more : Text}

/-- a part of a pattern, `stopped` where it stands at the end of the text -/
structure Stage (wider : A → A → Prop) (left : Text → Prop) (more : Text) (stopped : A → A)
    (f : A → Text → List (A × Text)) : Prop where
  stop : ∀ a, f a [] = [(stopped a, [])]
  goes : ∀ a r, Goes wider left more (f a r) (f a (r ++ more))
  beyond : ∀ a a' x, wider a a' → left x → ∀ e ∈ f a' x, wider (stopped a) e.1 ∧ left e.2

theorem Goes.append {l l' m m' : List (A × Text)} (h : Goes wider left more l l') (h' : Goes wider left more m m') :
    Goes wider left more (l ++ m) (l' ++ m') := by
  induction h with
  | nil => exact h'
  | inside hr _ ih => exact .inside hr ih
  | atEnd extra hx _ ih =>
    rw [List.append_assoc]
    exact .atEnd extra hx ih

/-- a choice that is kept, whether it has reached the end or not -/
theorem Goes.keep {a : A} {r : Text} {l l' : List (A × Text)} (h : Goes wider left more l l') :
    Goes wider left more ((a, r) :: l) ((a, r ++ more) :: l') := by
  by_cases hr : r = []
  · subst hr
    exact .atEnd [] (fun _ he => absurd he List.not_mem_nil) h
  · exact .inside hr h

theorem Goes.flatMap {stopped : A → A} {f : A → Text → List (A × Text)} (hf : Stage wider left more stopped f)
    {l l' : List (A × Text)} (h : Goes wider left more l l') :
    Goes wider left more (l.flatMap fun e => f e.1 e.2) (l'.flatMap fun e => f e.1 e.2) := by
  induction h with
  | nil => exact .nil
  | @inside a r l l' hr _ ih =>
    rw [List.flatMap_cons, List.flatMap_cons]
    exact (hf.goes a r).append ih
  | @atEnd a l l' extra hx _ ih =>
    have hone := hf.goes a []
    rw [hf.stop a, List.nil_append] at hone
    rw [List.flatMap_cons, List.flatMap_append, List.flatMap_cons, hf.stop a]
    generalize f a more = out at hone
    cases hone with
    | inside hr _ => exact absurd rfl hr
    | atEnd extra' hx' hnil =>
      cases hnil
      have hall : ∀ e ∈ (extra.flatMap fun e => f e.1 e.2) ++ extra', wider (stopped a) e.1 ∧ left e.2 := by
        intro e he
        rcases List.mem_append.mp he with he | he
        · obtain ⟨d, hd, he⟩ := List.mem_flatMap.mp he
          exact hf.beyond a d.1 d.2 (hx d hd).1 (hx d hd).2 e he
        · exact hx' e he
      have hgoes := Goes.atEnd _ hall ih
      simpa only [List.append_assoc, List.singleton_append, List.nil_append, List.cons_append] using hgoes

/-- nothing is taken where the text ends exactly when nothing is taken where it goes on; what is taken where it
goes on is what was taken, or reads on from there -/
theorem Goes.head {q : Text → Bool} (hnil : q [] = true) (hmore : q more = true)
    (hq : ∀ r, r ≠ [] → q (r ++ more) = q r) (hrefl : ∀ a, wider a a) {l l' : List (A × Text)}
    (h : Goes wider left more l l') :
    ((l.filter fun e => q e.2).head? = none → (l'.filter fun e => q e.2).head? = none) ∧
    ∀ a r, (l.filter fun e => q e.2).head? = some (a, r) →
      ∃ a' r', (l'.filter fun e => q e.2).head? = some (a', r') ∧ wider a a' ∧
        (r' = r ++ more ∨ r = [] ∧ left r') := by
  induction h with
  | nil => exact ⟨fun h => h, fun a r h => absurd h.symm (Option.some_ne_none _)⟩
  | @inside a r l l' hr _ ih =>
    rw [List.filter_cons, List.filter_cons]
    dsimp only
    rw [hq r hr]
    split
    · refine ⟨fun h => absurd h (Option.some_ne_none _), ?_⟩
      intro a₁ r₁ h
      obtain ⟨rfl, rfl⟩ := Prod.mk.inj (Option.some.inj h)
      exact ⟨a, r ++ more, rfl, hrefl a, Or.inl rfl⟩
    · exact ih
  | @atEnd a l l' extra hx _ ih =>
    rw [List.filter_cons, if_pos hnil]
    refine ⟨fun h => absurd h (Option.some_ne_none _), ?_⟩
    intro a₁ r₁ h
    obtain ⟨rfl, rfl⟩ := Prod.mk.inj (Option.some.inj h)
    rw [List.filter_append, List.filter_cons, if_pos hmore]
    cases hextra : extra.filter fun e => q e.2 with
    | nil => exact ⟨a, more, rfl, hrefl a, Or.inl rfl⟩
    | cons e rest =>
      have hmem : e ∈ extra := (List.mem_filter.mp (hextra ▸ List.mem_cons_self)).1
      exact ⟨e.1, e.2, rfl, (hx e hmem).1, Or.inr ⟨rfl, (hx e hmem).2⟩⟩

end
end Choices
