import Mathlib.Data.List.Forall2
import Mathlib.Logic.Basic

/-!
# Chains of checks

Code that stops at its first failed check, as `Except`.

* `of_ite_error`   a check that was passed;
* `bind_eq_ok`     calls that succeeded one after the other;
* `map_eq_ok`      a call whose result is wrapped;
* `forall₂_mapM`   a call for each element of a list.
-/

set_option linter.unusedSectionVars false

namespace Checks

section
variable {ε α β : Type*}

theorem of_ite_error {p : Prop} [Decidable p] {e : ε} {x : Except ε α} {a : α}
    (h : (if p then .error e else x) = .ok a) : ¬p ∧ x = .ok a := by
  by_cases hp : p
  · rw [if_pos hp] at h
    exact nomatch h
  · rw [if_neg hp] at h
    exact ⟨hp, h⟩

theorem bind_eq_ok {x : Except ε α} {f : α → Except ε β} {b : β} :
    x.bind f = .ok b ↔ ∃ a, x = .ok a ∧ f a = .ok b := by
  cases x with
  | error e => exact ⟨nofun, fun ⟨a, h, _⟩ => nomatch h⟩
  | ok a => exact ⟨fun h => ⟨a, rfl, h⟩, fun ⟨b, hb, h⟩ => (Except.ok.inj hb) ▸ h⟩

theorem map_eq_ok {x : Except ε α} {f : α → β} {b : β} (h : x.map f = .ok b) : ∃ a, x = .ok a ∧ f a = b := by
  cases x with
  | error e => exact nomatch h
  | ok a => exact ⟨a, rfl, Except.ok.inj h⟩

theorem forall₂_mapM {f : α → Except ε β} {l : List α} {m : List β} (h : l.mapM f = .ok m) :
    List.Forall₂ (fun a b => f a = .ok b) l m := by
  induction l generalizing m with
  | nil =>
    rw [← Except.ok.inj h]
    exact List.Forall₂.nil
  | cons a l ih =>
    rw [List.mapM_cons] at h
    obtain ⟨b, hb, h⟩ := bind_eq_ok.mp h
    obtain ⟨bs, hbs, h⟩ := bind_eq_ok.mp h
    rw [← Except.ok.inj h]
    exact List.Forall₂.cons hb (ih hbs)

end

end Checks
