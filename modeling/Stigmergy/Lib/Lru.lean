import Stigmergy.Lib.SortedSet

/-!
# Dicts that forget what was used longest ago

* `touch`            an entry is put last, and the first ones are dropped beyond a bound;
* `since`            the keys used since a key was; `pushedOut`, when they are as many as are kept;
* `Recent`           the keys of a dict are the last ones used, most recent last; `Recent.touch`;
* `Recent.mem_iff`   a key is there when it was used and has not been pushed out.

A history has its newest key first.
-/

set_option linter.unusedSectionVars false

namespace Lru

section
variable {κ β : Type*} [DecidableEq κ]

def keys (d : List (κ × β)) : List κ := d.map Prod.fst

/-- `d[k] = b`, `d.move_to_end(k)`, and `d.popitem(last=False)` while there are more than `max` -/
def touch (max : ℕ) (d : List (κ × β)) (k : κ) (b : β) : List (κ × β) :=
  let moved := d.filter (fun e => e.1 ≠ k) ++ [(k, b)]
  moved.drop (moved.length - max)

/-- the keys used after `k` was last -/
def since (k : κ) (history : List κ) : List κ := history.takeWhile (· ≠ k)

/-- as many other keys as are kept have been used since -/
def pushedOut (max : ℕ) (k : κ) (history : List κ) : Bool := max ≤ (firsts (since k history)).length

theorem since_cons_self (k : κ) (history : List κ) : since k (k :: history) = [] := by
  unfold since
  rw [List.takeWhile_cons_of_neg (by simp)]

theorem since_cons_ne {k a : κ} (h : a ≠ k) (history : List κ) : since k (a :: history) = a :: since k history := by
  unfold since
  rw [List.takeWhile_cons_of_pos (by simpa using h)]

/-! ## First occurrences -/

theorem firsts_cons (a : κ) (l : List κ) : firsts (a :: l) = a :: (firsts l).filter (· ≠ a) := by
  induction l using List.reverseRecOn with
  | nil => rfl
  | append_singleton l b ih =>
    rw [← List.cons_append, firsts_concat, firsts_concat, ih]
    by_cases hb : b = a
    · rw [if_pos (List.mem_cons.mpr (Or.inl hb))]
      split
      · rfl
      · rw [List.filter_append, List.filter_singleton, hb]
        simp
    · by_cases hl : b ∈ l
      · rw [if_pos (List.mem_cons_of_mem a hl), if_pos hl]
      · have hcons : b ∉ a :: l := fun h => (List.mem_cons.mp h).elim hb hl
        rw [if_neg hcons, if_neg hl, List.filter_append, List.filter_singleton]
        simp [hb]

/-- what is dropped later may be dropped first, when it is not what is looked for -/
theorem takeWhile_filter_ne {k a : κ} (h : a ≠ k) (l : List κ) :
    (l.filter (· ≠ a)).takeWhile (· ≠ k) = (l.takeWhile (· ≠ k)).filter (· ≠ a) := by
  induction l with
  | nil => rfl
  | cons b l ih =>
    by_cases hbk : b = k
    · rw [List.takeWhile_cons_of_neg (by simpa using hbk), List.filter_cons_of_pos (by simpa [hbk] using h.symm),
        List.takeWhile_cons_of_neg (by simpa using hbk)]
      rfl
    · rw [List.takeWhile_cons_of_pos (by simpa using hbk)]
      by_cases hba : b = a
      · rw [List.filter_cons_of_neg (by simpa using hba), List.filter_cons_of_neg (by simpa using hba), ih]
      · rw [List.filter_cons_of_pos (by simpa using hba), List.filter_cons_of_pos (by simpa using hba),
          List.takeWhile_cons_of_pos (by simpa using hbk), ih]

theorem takeWhile_firsts (k : κ) (history : List κ) :
    (firsts history).takeWhile (· ≠ k) = firsts (since k history) := by
  induction history with
  | nil => rfl
  | cons a history ih =>
    rw [firsts_cons]
    by_cases h : a = k
    · rw [h, since_cons_self, List.takeWhile_cons_of_neg (by simp)]
      rfl
    · rw [since_cons_ne h, firsts_cons, List.takeWhile_cons_of_pos (by simpa using h), takeWhile_filter_ne h, ih]

theorem mem_take_iff {l : List κ} {k : κ} (hk : k ∈ l) (n : ℕ) :
    k ∈ l.take n ↔ (l.takeWhile (· ≠ k)).length < n := by
  induction l generalizing n with
  | nil => exact absurd hk List.not_mem_nil
  | cons a l ih =>
    cases n with
    | zero => simp
    | succ n =>
      rw [List.take_succ_cons, List.mem_cons]
      by_cases h : a = k
      · rw [List.takeWhile_cons_of_neg (by simpa using h)]
        exact ⟨fun _ => Nat.succ_pos n, fun _ => Or.inl h.symm⟩
      · rw [List.takeWhile_cons_of_pos (by simpa using h), List.length_cons, Nat.succ_lt_succ_iff,
          ← ih ((List.mem_cons.mp hk).resolve_left (Ne.symm h)) n]
        exact ⟨fun hm => hm.resolve_left (Ne.symm h), Or.inr⟩

/-- one key taken out of a list without repetition moves the others up by one place -/
theorem take_filter_ne {l : List κ} (hnd : l.Nodup) (k : κ) (n : ℕ) :
    ((l.take (n + 1)).filter (· ≠ k)).take n = (l.filter (· ≠ k)).take n := by
  induction l generalizing n with
  | nil => rw [List.take_nil]
  | cons a l ih =>
    obtain ⟨ha, hl⟩ := List.nodup_cons.mp hnd
    rw [List.take_succ_cons]
    by_cases h : a = k
    · have hself : ∀ m : List κ, (∀ b ∈ m, b ∈ l) → m.filter (· ≠ k) = m := fun m hm =>
        List.filter_eq_self.mpr fun b hb => decide_eq_true fun hbk => ha (h.trans hbk.symm ▸ hm b hb)
      rw [List.filter_cons_of_neg (by simpa using h), List.filter_cons_of_neg (by simpa using h),
        hself l fun b hb => hb, hself _ fun b hb => List.mem_of_mem_take hb, List.take_take, Nat.min_self]
    · rw [List.filter_cons_of_pos (by simpa using h), List.filter_cons_of_pos (by simpa using h)]
      cases n with
      | zero => rfl
      | succ n => rw [List.take_succ_cons, List.take_succ_cons, ih hl]

/-! ## The last keys used -/

/-- the keys of a dict, most recent last, are the last ones used -/
structure Recent (max : ℕ) (history : List κ) (d : List (κ × β)) : Prop where
  order : (keys d).reverse = (firsts history).take max

theorem Recent.nil (max : ℕ) : Recent max ([] : List κ) ([] : List (κ × β)) := ⟨List.take_nil.symm⟩

theorem Recent.length_le {max : ℕ} {history : List κ} {d : List (κ × β)} (h : Recent max history d) :
    d.length ≤ max := by
  have hlen := congrArg List.length h.order
  rw [List.length_reverse, List.length_take] at hlen
  unfold keys at hlen
  rw [List.length_map] at hlen
  omega

theorem Recent.nodup {max : ℕ} {history : List κ} {d : List (κ × β)} (h : Recent max history d) : (keys d).Nodup := by
  rw [← List.nodup_reverse, h.order]
  exact (nodup_firsts history).sublist (List.take_sublist max _)

/-- only the keys matter -/
theorem Recent.of_keys {max : ℕ} {history : List κ} {d e : List (κ × β)} (h : Recent max history d)
    (hkeys : keys e = keys d) : Recent max history e := ⟨by rw [hkeys, h.order]⟩

theorem Recent.mem_iff {max : ℕ} {history : List κ} {d : List (κ × β)} (h : Recent max history d) (k : κ) :
    k ∈ keys d ↔ k ∈ history ∧ pushedOut max k history = false := by
  rw [← List.mem_reverse, h.order]
  have hout : pushedOut max k history = false ↔ ((firsts history).takeWhile (· ≠ k)).length < max := by
    unfold pushedOut
    rw [takeWhile_firsts, decide_eq_false_iff_not, Nat.not_le]
  by_cases hk : k ∈ history
  · rw [mem_take_iff (mem_firsts.mpr hk), hout]
    exact ⟨fun hlt => ⟨hk, hlt⟩, And.right⟩
  · exact ⟨fun hm => absurd (mem_firsts.mp (List.mem_of_mem_take hm)) hk, fun hm => absurd hm.1 hk⟩

theorem Recent.touch {max : ℕ} (hmax : 0 < max) {history : List κ} {d : List (κ × β)} (h : Recent max history d)
    (k : κ) (b : β) : Recent max (k :: history) (touch max d k b) := by
  have hmoved : keys (d.filter (fun e => e.1 ≠ k) ++ [(k, b)]) = (keys d).filter (· ≠ k) ++ [k] := by
    unfold keys
    rw [List.map_append, List.filter_map]
    rfl
  have hlength : (d.filter (fun e => e.1 ≠ k) ++ [(k, b)]).length = ((keys d).filter (· ≠ k) ++ [k]).length := by
    rw [← hmoved]
    unfold keys
    rw [List.length_map]
  obtain ⟨n, rfl⟩ : ∃ n, max = n + 1 := ⟨max - 1, by omega⟩
  refine ⟨?_⟩
  have hdrop : keys (Lru.touch (n + 1) d k b) =
      ((keys d).filter (· ≠ k) ++ [k]).drop (((keys d).filter (· ≠ k) ++ [k]).length - (n + 1)) := by
    show keys (List.drop _ _) = _
    rw [← hlength, ← hmoved]
    unfold keys
    rw [List.map_drop]
  rw [hdrop, ← List.take_reverse, List.reverse_append, ← List.filter_reverse, h.order, firsts_cons]
  show (k :: ((firsts history).take (n + 1)).filter (· ≠ k)).take (n + 1) = _
  rw [List.take_succ_cons, List.take_succ_cons, take_filter_ne (nodup_firsts history)]

end

end Lru
