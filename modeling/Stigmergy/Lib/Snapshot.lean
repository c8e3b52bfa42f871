import Mathlib.Data.List.AList

/-!
# Some of the keys of a table, saved and put back

* `snapshot`, `restore`   the entries under the keys that are saved, and a table put back to them;
* `SameOff`               two tables that differ under saved keys only;
* `lookup_restore`        a restored table has the saved entries, and no other under a saved key;
* `restore_snapshot`      so whatever happened under saved keys is undone.
-/

set_option linter.unusedSectionVars false

namespace Snapshot

section
variable {κ β : Type*} [DecidableEq κ] (p : κ → Bool)

def snapshot (t : AList fun _ : κ => β) : List (κ × β) := (t.entries.filter fun e => p e.1).map fun e => (e.1, e.2)

def eraseAll (t : AList fun _ : κ => β) (ks : List κ) : AList fun _ : κ => β := ks.foldl (fun t k => t.erase k) t

def insertAll (t : AList fun _ : κ => β) (es : List (κ × β)) : AList fun _ : κ => β :=
  es.foldl (fun t e => t.insert e.1 e.2) t

/-- what is not saved goes, what is saved is written -/
def restore (t : AList fun _ : κ => β) (saved : List (κ × β)) : AList fun _ : κ => β :=
  insertAll (eraseAll t (t.keys.filter fun k => p k && k ∉ saved.map Prod.fst)) saved

/-- no difference but under the keys that are saved -/
def SameOff (s t : AList fun _ : κ => β) : Prop := ∀ k, p k = false → t.lookup k = s.lookup k

variable {p}

theorem SameOff.refl (t : AList fun _ : κ => β) : SameOff p t t := fun _ _ => rfl

theorem SameOff.trans {s t u : AList fun _ : κ => β} (h : SameOff p s t) (h' : SameOff p t u) : SameOff p s u :=
  fun k hk => (h' k hk).trans (h k hk)

theorem SameOff.insert {s t : AList fun _ : κ => β} (h : SameOff p s t) {k : κ} (hk : p k = true) (b : β) :
    SameOff p s (t.insert k b) := fun k' hk' => by
  have hne : k' ≠ k := fun heq => by
    rw [heq, hk] at hk'
    exact Bool.noConfusion hk'
  rw [AList.lookup_insert_ne hne]
  exact h k' hk'

theorem SameOff.erase {s t : AList fun _ : κ => β} (h : SameOff p s t) {k : κ} (hk : p k = true) :
    SameOff p s (t.erase k) := fun k' hk' => by
  have hne : k' ≠ k := fun heq => by
    rw [heq, hk] at hk'
    exact Bool.noConfusion hk'
  rw [AList.lookup_erase_ne hne]
  exact h k' hk'

theorem lookup_eraseAll (t : AList fun _ : κ => β) (ks : List κ) (k : κ) :
    (eraseAll t ks).lookup k = if k ∈ ks then none else t.lookup k := by
  induction ks generalizing t with
  | nil => rfl
  | cons k' ks ih =>
    show (eraseAll (t.erase k') ks).lookup k = _
    rw [ih]
    by_cases hk : k ∈ ks
    · rw [if_pos hk, if_pos (List.mem_cons_of_mem k' hk)]
    · rw [if_neg hk]
      by_cases heq : k = k'
      · rw [heq, AList.lookup_erase, if_pos List.mem_cons_self]
      · rw [AList.lookup_erase_ne heq, if_neg fun hmem => (List.mem_cons.mp hmem).elim heq hk]

theorem lookup_insertAll {es : List (κ × β)} (h : (es.map Prod.fst).Nodup) (t : AList fun _ : κ => β) (k : κ) :
    (insertAll t es).lookup k = (es.lookup k).or (t.lookup k) := by
  induction es generalizing t with
  | nil => rfl
  | cons e es ih =>
    obtain ⟨k', b⟩ := e
    obtain ⟨hnot, hnodup⟩ := List.nodup_cons.mp h
    show (insertAll (t.insert k' b) es).lookup k = _
    rw [ih hnodup, List.lookup_cons]
    by_cases heq : k = k'
    · subst heq
      have hnone : es.lookup k = none := List.lookup_eq_none_iff.mpr fun e he => by
        have hne : k ≠ e.1 := fun hke => hnot (List.mem_map.mpr ⟨e, he, hke.symm⟩)
        simpa using hne
      rw [hnone, AList.lookup_insert, beq_self_eq_true]
      rfl
    · rw [AList.lookup_insert_ne heq, beq_false_of_ne heq]

theorem keys_snapshot (t : AList fun _ : κ => β) : (snapshot p t).map Prod.fst = t.keys.filter p := by
  rw [snapshot, List.map_map, AList.keys, List.keys, List.filter_map]
  rfl

theorem nodup_snapshot (t : AList fun _ : κ => β) : ((snapshot p t).map Prod.fst).Nodup := by
  rw [keys_snapshot]
  exact List.Nodup.filter p t.nodupKeys

theorem lookup_snapshot (t : AList fun _ : κ => β) (k : κ) :
    (snapshot p t).lookup k = if p k = true then t.lookup k else none := by
  cases hlookup : (snapshot p t).lookup k with
  | some b =>
    obtain ⟨l₁, l₂, hsplit, -⟩ := List.lookup_eq_some_iff.mp hlookup
    have hmem : (k, b) ∈ snapshot p t := hsplit ▸ List.mem_append_right _ List.mem_cons_self
    obtain ⟨e, he, heq⟩ := List.mem_map.mp hmem
    obtain ⟨hentry, hp⟩ := List.mem_filter.mp he
    obtain ⟨k', b'⟩ := e
    obtain ⟨rfl, rfl⟩ := Prod.mk.inj heq
    rw [if_pos hp]
    exact (AList.mem_lookup_iff.mpr hentry).symm
  | none =>
    split
    · next hp =>
      refine Eq.symm ((AList.lookup_eq_none (s := t)).mpr fun hk => ?_)
      have hkeys : k ∈ (snapshot p t).map Prod.fst := by
        rw [keys_snapshot]
        exact List.mem_filter.mpr ⟨AList.mem_keys.mp hk, hp⟩
      obtain ⟨e, he, rfl⟩ := List.mem_map.mp hkeys
      exact absurd (List.lookup_eq_none_iff.mp hlookup e he) (by simp)
    · rfl

theorem lookup_restore (s t : AList fun _ : κ => β) (k : κ) :
    (restore p t (snapshot p s)).lookup k = if p k = true then s.lookup k else t.lookup k := by
  rw [restore, lookup_insertAll (nodup_snapshot s), lookup_snapshot, lookup_eraseAll]
  by_cases hp : p k = true
  · rw [if_pos hp, if_pos hp]
    cases hs : s.lookup k with
    | some b => rfl
    | none =>
      rw [Option.none_or]
      split
      · rfl
      · next hnot =>
        refine (AList.lookup_eq_none (s := t)).mpr fun hk => hnot (List.mem_filter.mpr ⟨AList.mem_keys.mp hk, ?_⟩)
        rw [hp, Bool.true_and, keys_snapshot]
        refine decide_eq_true fun hmem => ?_
        exact AList.lookup_eq_none.mp hs (AList.mem_keys.mpr (List.mem_filter.mp hmem).1)
  · have hnot : k ∉ t.keys.filter fun k => p k && k ∉ (snapshot p s).map Prod.fst := fun hmem =>
      hp (Bool.and_eq_true_iff.mp (List.mem_filter.mp hmem).2).1
    rw [if_neg hp, if_neg hp, if_neg hnot, Option.none_or]

theorem restore_snapshot {s t : AList fun _ : κ => β} (h : SameOff p s t) (k : κ) :
    (restore p t (snapshot p s)).lookup k = s.lookup k := by
  rw [lookup_restore]
  split
  · rfl
  · next hp => exact h k (Bool.eq_false_iff.mpr hp)

end

end Snapshot
