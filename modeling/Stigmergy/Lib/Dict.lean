import Mathlib.Data.List.Basic
import Mathlib.Data.List.Nodup

/-!
# Dicts in the order their keys came in

* `put`       a value under a key, in the key's place or at the end;
* `mem_put`   an entry is the new one or an old one;
* `putAll`    entries put in one after the other;
* `mem_keys_putAll`, `nodup_putAll`   the keys are the old and the new ones, once each.
-/

set_option linter.unusedSectionVars false

namespace Dict

section
variable {κ β : Type*} [DecidableEq κ]

def keys (d : List (κ × β)) : List κ := d.map Prod.fst

/-- `d[k] = b` -/
def put (d : List (κ × β)) (k : κ) (b : β) : List (κ × β) :=
  if k ∈ keys d then d.map fun e => if e.1 = k then (k, b) else e else d ++ [(k, b)]

theorem keys_put (d : List (κ × β)) (k : κ) (b : β) :
    keys (put d k b) = if k ∈ keys d then keys d else keys d ++ [k] := by
  unfold put
  split
  · unfold keys
    rw [List.map_map]
    refine List.map_congr_left fun e he => ?_
    show (if e.1 = k then (k, b) else e).1 = e.1
    split
    · rename_i h
      exact h.symm
    · rfl
  · exact List.map_append

theorem put_ne_nil (d : List (κ × β)) (k : κ) (b : β) : put d k b ≠ [] := by
  intro hnil
  have hkeys := keys_put d k b
  rw [hnil] at hkeys
  split at hkeys
  · next hk =>
    rw [← hkeys] at hk
    exact absurd hk List.not_mem_nil
  · exact List.concat_ne_nil k _ hkeys.symm

theorem mem_put {d : List (κ × β)} {k k' : κ} {b b' : β} (h : (k', b') ∈ put d k b) :
    (k', b') = (k, b) ∨ (k', b') ∈ d := by
  unfold put at h
  split at h
  · obtain ⟨e, he, heq⟩ := List.mem_map.mp h
    split at heq
    · exact Or.inl heq.symm
    · exact Or.inr (heq ▸ he)
  · rw [List.mem_append, List.mem_singleton] at h
    exact h.symm

theorem mem_keys_put {d : List (κ × β)} {k k' : κ} {b : β} : k' ∈ keys (put d k b) ↔ k' = k ∨ k' ∈ keys d := by
  rw [keys_put]
  split
  · rename_i h
    refine ⟨Or.inr, fun hk => ?_⟩
    rcases hk with rfl | hk
    · exact h
    · exact hk
  · rw [List.mem_append, List.mem_singleton]
    exact Or.comm

theorem nodup_put {d : List (κ × β)} (h : (keys d).Nodup) (k : κ) (b : β) : (keys (put d k b)).Nodup := by
  rw [keys_put]
  split
  · exact h
  · rename_i hk
    exact List.nodup_append_comm.mp (List.nodup_cons.mpr ⟨hk, h⟩)

/-- `d.update(…)` -/
def putAll (d : List (κ × β)) (es : List (κ × β)) : List (κ × β) := es.foldl (fun d e => put d e.1 e.2) d

theorem mem_putAll {d es : List (κ × β)} {e : κ × β} (h : e ∈ putAll d es) : e ∈ es ∨ e ∈ d := by
  induction es generalizing d with
  | nil => exact Or.inr h
  | cons e' es ih =>
    rcases ih h with hes | hput
    · exact Or.inl (List.mem_cons_of_mem e' hes)
    · rcases mem_put hput with heq | hd
      · left
        rw [show e = e' from heq]
        exact List.mem_cons_self
      · exact Or.inr hd

theorem mem_keys_putAll {d es : List (κ × β)} {k : κ} : k ∈ keys (putAll d es) ↔ k ∈ keys es ∨ k ∈ keys d := by
  induction es generalizing d with
  | nil => exact ⟨Or.inr, fun h => h.resolve_left List.not_mem_nil⟩
  | cons e es ih =>
    show k ∈ keys (putAll (put d e.1 e.2) es) ↔ k ∈ e.1 :: keys es ∨ k ∈ keys d
    rw [ih, mem_keys_put, List.mem_cons]
    exact or_left_comm.trans or_assoc.symm

theorem nodup_putAll {d : List (κ × β)} (h : (keys d).Nodup) (es : List (κ × β)) : (keys (putAll d es)).Nodup := by
  induction es generalizing d with
  | nil => exact h
  | cons e es ih => exact ih (nodup_put h e.1 e.2)

end

end Dict
