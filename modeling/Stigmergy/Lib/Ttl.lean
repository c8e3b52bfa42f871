import Stigmergy.Lib.Dict
import Mathlib.Algebra.Order.Field.Rat

/-!
# Bounded dicts whose entries expire

* `get`          a value that has not expired; one that has is deleted;
* `put`          a value with the time it expires, the oldest key making room for a new one;
* `get_eq_some`, `mem_get`, `mem_put`   what is read, and what is left, was put;
* `length_put`   the bound is kept.
-/

set_option linter.unusedSectionVars false

namespace Ttl

section
variable {κ β : Type*} [DecidableEq κ]

/-- keys in the order they came in, each with the time it expires and its value -/
abbrev Store (κ β : Type*) := List (κ × (ℚ × β))

def get (d : Store κ β) (k : κ) (now : ℚ) : Store κ β × Option β :=
  match d.find? fun e => e.1 = k with
  | none => (d, none)
  | some e => if e.2.1 ≤ now then (d.filter fun e => e.1 ≠ k, none) else (d, some e.2.2)

def put (max : ℕ) (d : Store κ β) (k : κ) (b : β) (expires : ℚ) : Store κ β :=
  if k ∉ Dict.keys d ∧ max ≤ d.length then Dict.put d.tail k (expires, b) else Dict.put d k (expires, b)

theorem get_eq_some {d : Store κ β} {k : κ} {now : ℚ} {b : β} (h : (get d k now).2 = some b) :
    ∃ expires, (k, expires, b) ∈ d ∧ now < expires := by
  unfold get at h
  split at h
  · cases h
  · next e he =>
    split at h
    · cases h
    · next hlt =>
      obtain rfl := Option.some.inj h
      have hmatch := List.find?_some he
      have hkey := of_decide_eq_true hmatch
      refine ⟨e.2.1, ?_, not_le.mp hlt⟩
      rw [← hkey]
      exact List.mem_of_find?_eq_some he

theorem mem_get {d : Store κ β} {k : κ} {now : ℚ} {e : κ × (ℚ × β)} (h : e ∈ (get d k now).1) : e ∈ d := by
  unfold get at h
  split at h
  · exact h
  · split at h
    · exact (List.mem_filter.mp h).1
    · exact h

theorem length_get (d : Store κ β) (k : κ) (now : ℚ) : (get d k now).1.length ≤ d.length := by
  unfold get
  split
  · exact Nat.le_refl _
  · split
    · exact List.length_filter_le _ _
    · exact Nat.le_refl _

theorem mem_put {max : ℕ} {d : Store κ β} {k : κ} {b : β} {expires : ℚ} {e : κ × (ℚ × β)}
    (h : e ∈ put max d k b expires) : e = (k, expires, b) ∨ e ∈ d := by
  unfold put at h
  split at h
  · exact (Dict.mem_put h).imp id List.mem_of_mem_tail
  · exact Dict.mem_put h

theorem length_dictPut (d : Store κ β) (k : κ) (v : ℚ × β) :
    (Dict.put d k v).length = if k ∈ Dict.keys d then d.length else d.length + 1 := by
  unfold Dict.put
  split
  · exact List.length_map _
  · exact List.length_append

theorem length_put {max : ℕ} (hmax : 0 < max) {d : Store κ β} (h : d.length ≤ max) (k : κ) (b : β) (expires : ℚ) :
    (put max d k b expires).length ≤ max := by
  unfold put
  split
  · have htail := List.length_tail (l := d)
    rw [length_dictPut]
    split <;> omega
  · next hroom =>
    rw [length_dictPut]
    split
    · exact h
    · next hk =>
      have hlt : ¬max ≤ d.length := fun hle => hroom ⟨hk, hle⟩
      omega

end

end Ttl
