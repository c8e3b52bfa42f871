import Mathlib.Data.List.AList

/-!
# Tables

A table is a finite map with its entries in a list (`AList`).  The operations a store has beside
`lookup`, `insert` and `erase`, each with what it does to `lookup`.

* `mapVals`     every value changed by a function of its key and itself;
* `eraseAll`    a list of keys removed;
* `insertAll`   a list of values put in, each under its own key;
* `select`      the first entry that meets a condition;
* `keep`        the entries that meet one.
-/

set_option linter.unusedSectionVars false

namespace Table

section
variable {κ : Type*} {β γ : Type*} [DecidableEq κ]

theorem lookup_insert_eq (t : AList fun _ : κ => β) (k k' : κ) (b : β) :
    (t.insert k b).lookup k' = if k' = k then some b else t.lookup k' := by
  by_cases h : k' = k
  · rw [if_pos h, h, AList.lookup_insert]
  · rw [if_neg h, AList.lookup_insert_ne h]

theorem lookup_erase_eq (t : AList fun _ : κ => β) (k k' : κ) :
    (t.erase k).lookup k' = if k' = k then none else t.lookup k' := by
  by_cases h : k' = k
  · rw [if_pos h, h, AList.lookup_erase]
  · rw [if_neg h, AList.lookup_erase_ne h]

/-- every value changed by a function of its key and itself -/
def mapVals (f : κ → β → γ) (t : AList fun _ : κ => β) : AList fun _ : κ => γ where
  entries := t.entries.map fun e => ⟨e.1, f e.1 e.2⟩
  nodupKeys := by
    have hkeys : (t.entries.map fun e : Sigma fun _ : κ => β =>
        (⟨e.1, f e.1 e.2⟩ : Sigma fun _ : κ => γ)).keys = t.entries.keys := by
      unfold List.keys
      rw [List.map_map]
      rfl
    unfold List.NodupKeys
    rw [hkeys]
    exact t.nodupKeys

theorem lookup_mapVals (f : κ → β → γ) (t : AList fun _ : κ => β) (k : κ) :
    (mapVals f t).lookup k = (t.lookup k).map (f k) := by
  have hentries : ∀ l : List (Sigma fun _ : κ => β),
      List.dlookup k (l.map fun e => (⟨e.1, f e.1 e.2⟩ : Sigma fun _ : κ => γ)) =
        (List.dlookup k l).map (f k) := by
    intro l
    induction l with
    | nil => rfl
    | cons e l ih =>
      obtain ⟨k', b⟩ := e
      by_cases h : k = k'
      · subst h
        rw [List.map_cons, List.dlookup_cons_eq, List.dlookup_cons_eq, Option.map_some]
      · rw [List.map_cons, List.dlookup_cons_ne _ _ h, List.dlookup_cons_ne _ _ h, ih]
  exact hentries t.entries

def eraseAll (ks : List κ) (t : AList fun _ : κ => β) : AList fun _ : κ => β :=
  ks.foldl (fun t k => t.erase k) t

theorem lookup_eraseAll (ks : List κ) (t : AList fun _ : κ => β) (k : κ) :
    (eraseAll ks t).lookup k = if k ∈ ks then none else t.lookup k := by
  unfold eraseAll
  induction ks generalizing t with
  | nil => rw [List.foldl_nil, if_neg List.not_mem_nil]
  | cons k' ks ih =>
    rw [List.foldl_cons, ih, lookup_erase_eq]
    by_cases h : k ∈ ks
    · rw [if_pos h, if_pos (List.mem_cons_of_mem k' h)]
    · rw [if_neg h]
      by_cases h' : k = k'
      · rw [if_pos h', if_pos (by rw [h']; exact List.mem_cons_self)]
      · rw [if_neg h', if_neg (by simp [h, h'])]

/-- the values put in one after the other, each under its own key -/
def insertAll (key : β → κ) (bs : List β) (t : AList fun _ : κ => β) : AList fun _ : κ => β :=
  bs.foldl (fun t b => t.insert (key b) b) t

theorem lookup_insertAll_of_notMem (key : β → κ) {bs : List β} {k : κ} (t : AList fun _ : κ => β)
    (h : k ∉ bs.map key) : (insertAll key bs t).lookup k = t.lookup k := by
  unfold insertAll
  induction bs generalizing t with
  | nil => rfl
  | cons b bs ih =>
    rw [List.map_cons, List.mem_cons, not_or] at h
    rw [List.foldl_cons, ih _ h.2, lookup_insert_eq, if_neg h.1]

theorem lookup_insertAll (key : β → κ) {bs : List β} (hnd : (bs.map key).Nodup) {b : β} (hb : b ∈ bs)
    (t : AList fun _ : κ => β) : (insertAll key bs t).lookup (key b) = some b := by
  induction bs generalizing t with
  | nil => exact absurd hb List.not_mem_nil
  | cons b' bs ih =>
    rw [List.map_cons, List.nodup_cons] at hnd
    show (insertAll key bs (t.insert (key b') b')).lookup (key b) = some b
    rcases List.mem_cons.mp hb with rfl | hb
    · rw [lookup_insertAll_of_notMem key _ hnd.1, AList.lookup_insert]
    · exact ih hnd.2 hb _

theorem mem_keys_iff {t : AList fun _ : κ => β} {k : κ} : k ∈ t.keys ↔ ∃ b, t.lookup k = some b := by
  rw [← AList.mem_keys, ← AList.lookup_isSome, Option.isSome_iff_exists]

/-- the values of a table -/
def vals (t : AList fun _ : κ => β) : List β := t.entries.map Sigma.snd

theorem mem_vals {t : AList fun _ : κ => β} {b : β} : b ∈ vals t ↔ ∃ k, t.lookup k = some b := by
  unfold vals
  rw [List.mem_map]
  constructor
  · rintro ⟨⟨k, b'⟩, he, rfl⟩
    exact ⟨k, AList.mem_lookup_iff.mpr he⟩
  · rintro ⟨k, hk⟩
    exact ⟨⟨k, b⟩, AList.mem_lookup_iff.mp hk, rfl⟩

/-- the first entry that meets a condition -/
def select (p : κ → β → Bool) (t : AList fun _ : κ => β) : Option (κ × β) :=
  (t.entries.find? fun e => p e.1 e.2).map fun e => (e.1, e.2)

theorem select_eq_some {p : κ → β → Bool} {t : AList fun _ : κ => β} {k : κ} {b : β}
    (h : select p t = some (k, b)) : t.lookup k = some b ∧ p k b = true := by
  obtain ⟨e, he, hkb⟩ := Option.map_eq_some_iff.mp h
  obtain ⟨rfl, rfl⟩ := Prod.mk.inj hkb
  exact ⟨AList.mem_lookup_iff.mpr (List.mem_of_find?_eq_some he),
    List.find?_some (p := fun e : Sigma fun _ : κ => β => p e.1 e.2) he⟩

theorem select_eq_none {p : κ → β → Bool} {t : AList fun _ : κ => β} (h : select p t = none)
    {k : κ} {b : β} (hb : t.lookup k = some b) : p k b = false := by
  have hfind := List.find?_eq_none.mp (Option.map_eq_none_iff.mp h)
  exact Bool.eq_false_iff.mpr (hfind ⟨k, b⟩ (AList.mem_lookup_iff.mp hb))

/-- the entries that meet a condition -/
def keep (p : κ → β → Bool) (t : AList fun _ : κ => β) : AList fun _ : κ => β where
  entries := t.entries.filter fun e => p e.1 e.2
  nodupKeys := t.nodupKeys.sublist List.filter_sublist

theorem lookup_keep {p : κ → β → Bool} {t : AList fun _ : κ => β} {k : κ} {b : β} :
    (keep p t).lookup k = some b ↔ t.lookup k = some b ∧ p k b = true := by
  rw [← Option.mem_def, ← Option.mem_def, AList.mem_lookup_iff, AList.mem_lookup_iff]
  exact List.mem_filter

end

end Table
