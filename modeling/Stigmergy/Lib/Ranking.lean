import Mathlib.Algebra.Order.Field.Rat
import Mathlib.Data.List.Induction
import Mathlib.Data.List.Sort
import Stigmergy.Lib.Dict

/-!
# Rankings

Votes counted into scores, and the nearest elements of a list found part by part.

* `tally`              the sum of the votes for each name, in the order the names came;
* `mem_tally`          what a tally holds;
* `Nearest`            `out` is `n` elements of `l`, or all of them, and none left out is nearer;
* `nearest_flatMap`    the nearest of the nearest of each part are the nearest of the whole.
-/

set_option linter.unusedSectionVars false

namespace Ranking

/-! ## Votes -/

section
variable {κ : Type*} [DecidableEq κ]

/-- `scores[k] = scores.get(k, 0) + w` -/
def count (scores : List (κ × ℚ)) (vote : κ × ℚ) : List (κ × ℚ) :=
  Dict.put scores vote.1 ((scores.lookup vote.1).getD 0 + vote.2)

def tally (votes : List (κ × ℚ)) : List (κ × ℚ) := votes.foldl count []

/-- the sum of the votes for a name -/
def total (votes : List (κ × ℚ)) (k : κ) : ℚ := ((votes.filter fun v => v.1 = k).map Prod.snd).sum

theorem total_singleton (v : κ × ℚ) (k : κ) : total [v] k = if v.1 = k then v.2 else 0 := by
  unfold total
  by_cases h : v.1 = k
  · simp [h]
  · simp [h]

theorem total_append (votes ws : List (κ × ℚ)) (k : κ) : total (votes ++ ws) k = total votes k + total ws k := by
  unfold total
  rw [List.filter_append, List.map_append, List.sum_append]

theorem total_cons (v : κ × ℚ) (votes : List (κ × ℚ)) (k : κ) :
    total (v :: votes) k = (if v.1 = k then v.2 else 0) + total votes k := by
  rw [← total_singleton, ← total_append, List.singleton_append]

theorem total_eq_zero {votes : List (κ × ℚ)} {k : κ} (h : k ∉ votes.map Prod.fst) : total votes k = 0 := by
  unfold total
  rw [List.filter_eq_nil_iff.mpr fun v hv hk => h (List.mem_map.mpr ⟨v, hv, of_decide_eq_true hk⟩)]
  rfl

theorem lookup_of_mem {scores : List (κ × ℚ)} (hnd : (Dict.keys scores).Nodup) {k : κ} {s : ℚ}
    (h : (k, s) ∈ scores) : scores.lookup k = some s := by
  induction scores with
  | nil => exact absurd h List.not_mem_nil
  | cons e scores ih =>
    obtain ⟨hne, hrest⟩ := List.nodup_cons.mp hnd
    rcases List.mem_cons.mp h with heq | hmem
    · rw [← heq, List.lookup_cons_self]
    · have hk : k ≠ e.1 := fun hk => hne (hk ▸ List.mem_map.mpr ⟨(k, s), hmem, rfl⟩)
      rw [List.lookup_cons, beq_eq_false_iff_ne.mpr hk]
      exact ih hrest hmem

theorem lookup_eq_none {scores : List (κ × ℚ)} {k : κ} (h : k ∉ Dict.keys scores) : scores.lookup k = none := by
  rw [List.lookup_eq_none_iff]
  intro e he
  have hk : k ≠ e.1 := fun hk => h (List.mem_map.mpr ⟨e, he, hk.symm⟩)
  exact bne_iff_ne.mpr hk

/-- the entries of the scores are the totals of the names voted for, once each -/
structure Counted (votes scores : List (κ × ℚ)) : Prop where
  nodup : (Dict.keys scores).Nodup
  keys : ∀ k, k ∈ Dict.keys scores ↔ k ∈ votes.map Prod.fst
  sums : ∀ e ∈ scores, e.2 = total votes e.1

theorem Counted.count {votes scores : List (κ × ℚ)} (h : Counted votes scores) (v : κ × ℚ) :
    Counted (votes ++ [v]) (count scores v) := by
  have hbase : (scores.lookup v.1).getD 0 = total votes v.1 := by
    by_cases hk : v.1 ∈ Dict.keys scores
    · obtain ⟨e, he, hkey⟩ := List.mem_map.mp hk
      rw [← hkey, lookup_of_mem h.nodup (show (e.1, e.2) ∈ scores from he)]
      exact h.sums e he
    · rw [lookup_eq_none hk, total_eq_zero (fun hv => hk ((h.keys v.1).mpr hv))]
      rfl
  refine ⟨Dict.nodup_put h.nodup _ _, fun k => ?_, fun e he => ?_⟩
  · unfold Ranking.count
    rw [Dict.mem_keys_put, h.keys k, List.map_append, List.mem_append, List.map_singleton, List.mem_singleton]
    exact Or.comm
  · rw [total_append, total_singleton]
    unfold Ranking.count at he
    rw [hbase] at he
    by_cases hk : v.1 = e.1
    · rw [if_pos hk]
      have hmem : (e.1, total votes v.1 + v.2) ∈ Dict.put scores v.1 (total votes v.1 + v.2) := by
        rw [← hk]
        unfold Dict.put
        split
        · next hin =>
          obtain ⟨e', he', hkey⟩ := List.mem_map.mp hin
          exact List.mem_map.mpr ⟨e', he', if_pos hkey⟩
        · exact List.mem_append_right _ (List.mem_singleton_self _)
      have hnd := Dict.nodup_put h.nodup v.1 (total votes v.1 + v.2)
      have heq := (lookup_of_mem hnd (show (e.1, e.2) ∈ _ from he)).symm.trans (lookup_of_mem hnd hmem)
      rw [Option.some.inj heq, hk]
    · rw [if_neg hk, add_zero]
      rcases Dict.mem_put (show (e.1, e.2) ∈ _ from he) with heq | hold
      · exact absurd (congrArg Prod.fst heq).symm hk
      · exact h.sums e hold

theorem counted_tally (votes : List (κ × ℚ)) : Counted votes (tally votes) := by
  induction votes using List.reverseRecOn with
  | nil => exact ⟨List.nodup_nil, fun k => Iff.rfl, fun e he => absurd he List.not_mem_nil⟩
  | append_singleton votes v ih =>
    unfold tally
    rw [List.foldl_append]
    exact ih.count v

theorem mem_tally {votes : List (κ × ℚ)} {k : κ} {s : ℚ} :
    (k, s) ∈ tally votes ↔ k ∈ votes.map Prod.fst ∧ s = total votes k := by
  have h := counted_tally votes
  constructor
  · intro hmem
    exact ⟨(h.keys k).mp (List.mem_map.mpr ⟨(k, s), hmem, rfl⟩), h.sums (k, s) hmem⟩
  · rintro ⟨hk, rfl⟩
    obtain ⟨e, he, hkey⟩ := List.mem_map.mp ((h.keys k).mpr hk)
    rw [← hkey, ← h.sums e he]
    exact he

end

/-! ## The nearest -/

section
variable {α δ : Type*} [LinearOrder δ] (d : α → δ)

structure Nearest (n : ℕ) (l out : List α) : Prop where
  split : ∃ rest, (out ++ rest).Perm l ∧ ∀ a ∈ out, ∀ b ∈ rest, d a ≤ d b
  length : out.length = min n l.length

variable {d}

theorem Nearest.mem {n : ℕ} {l out : List α} (h : Nearest d n l out) {a : α} (ha : a ∈ out) : a ∈ l := by
  obtain ⟨rest, hperm, -⟩ := h.split
  exact hperm.mem_iff.mp (List.mem_append_left rest ha)

theorem Nearest.of_perm {n : ℕ} {l m out : List α} (h : Nearest d n l out) (hperm : l.Perm m) : Nearest d n m out := by
  obtain ⟨rest, hp, hle⟩ := h.split
  exact ⟨⟨rest, hp.trans hperm, hle⟩, by rw [h.length, hperm.length_eq]⟩

theorem Nearest.lt_of_left_out {n : ℕ} {l out : List α} (h : Nearest d n l out) {b : α} (hb : b ∈ l)
    (hout : b ∉ out) : out.length < l.length := by
  obtain ⟨rest, hperm, -⟩ := h.split
  have hrest : b ∈ rest := (List.mem_append.mp (hperm.mem_iff.mpr hb)).resolve_left hout
  rw [← hperm.length_eq, List.length_append]
  exact Nat.lt_add_of_pos_right (List.length_pos_of_mem hrest)

/-- an element left out is no nearer than any taken, and as many are taken as may be -/
theorem Nearest.left_out {n : ℕ} {l out : List α} (h : Nearest d n l out) {b : α} (hb : b ∈ l) (hout : b ∉ out) :
    out.length = n ∧ ∀ a ∈ out, d a ≤ d b := by
  have hlt := h.lt_of_left_out hb hout
  obtain ⟨rest, hperm, hle⟩ := h.split
  have hrest : b ∈ rest := (List.mem_append.mp (hperm.mem_iff.mpr hb)).resolve_left hout
  have hlen := h.length
  exact ⟨by omega, fun a ha => hle a ha b hrest⟩

/-- what a list in order begins with -/
theorem nearest_take {l s : List α} (hperm : s.Perm l) (hs : s.Pairwise fun a b => d a ≤ d b) (n : ℕ) :
    Nearest d n l (s.take n) := by
  refine ⟨⟨s.drop n, by rw [List.take_append_drop]; exact hperm, fun a ha b hb => ?_⟩, ?_⟩
  · rw [← List.take_append_drop n s] at hs
    exact (List.pairwise_append.mp hs).2.2 a ha b hb
  · rw [List.length_take, hperm.length_eq]

/-- elements nearer than one that was taken were taken before it -/
theorem length_filter_lt_of_mem_take {s : List α} (hs : s.Pairwise fun a b => d a ≤ d b) {n : ℕ} {a : α}
    (ha : a ∈ s.take n) : (s.filter fun b => d b < d a).length < n := by
  have hdrop : ((s.drop n).filter fun b => d b < d a) = [] := by
    rw [List.filter_eq_nil_iff]
    intro b hb hlt
    rw [← List.take_append_drop n s] at hs
    exact absurd (of_decide_eq_true hlt) (not_lt_of_ge ((List.pairwise_append.mp hs).2.2 a ha b hb))
  have hsplit : (s.filter fun b => d b < d a) = (s.take n).filter fun b => d b < d a := by
    conv_lhs => rw [← List.take_append_drop n s]
    rw [List.filter_append, hdrop, List.append_nil]
  have hlt : ((s.take n).filter fun b => d b < d a).length < (s.take n).length :=
    List.length_filter_lt_length_iff_exists.mpr ⟨a, ha, by simp⟩
  rw [hsplit]
  exact lt_of_lt_of_le hlt (List.length_take_le n s)

theorem nearest_flatMap {ι : Type*} {n : ℕ} {parts : List ι} {part out : ι → List α}
    (h : ∀ i ∈ parts, Nearest d n (part i) (out i)) {s : List α} (hperm : s.Perm (parts.flatMap out))
    (hs : s.Pairwise fun a b => d a ≤ d b) : Nearest d n (parts.flatMap part) (s.take n) := by
  have hrests : ∃ rests : List α, (parts.flatMap out ++ rests).Perm (parts.flatMap part) ∧
      ∀ b ∈ rests, ∃ i ∈ parts, b ∈ part i ∧ (out i).length = n ∧ ∀ a ∈ out i, d a ≤ d b := by
    clear hperm
    induction parts with
    | nil => exact ⟨[], List.Perm.refl _, fun b hb => absurd hb List.not_mem_nil⟩
    | cons i parts ih =>
      obtain ⟨rests, hp, hall⟩ := ih fun j hj => h j (List.mem_cons_of_mem i hj)
      have hi := h i List.mem_cons_self
      obtain ⟨rest, hpi, hle⟩ := hi.split
      refine ⟨rest ++ rests, ?_, fun b hb => ?_⟩
      · rw [List.flatMap_cons, List.flatMap_cons]
        have hswap : (out i ++ parts.flatMap out ++ (rest ++ rests)).Perm
            (out i ++ rest ++ (parts.flatMap out ++ rests)) := by
          rw [List.append_assoc, List.append_assoc]
          refine List.Perm.append_left (out i) ?_
          rw [← List.append_assoc, ← List.append_assoc]
          exact List.perm_append_comm.append_right rests
        exact hswap.trans (hpi.append hp)
      · rcases List.mem_append.mp hb with hrest | hmem
        · have hlt : (out i).length < (part i).length := by
            rw [← hpi.length_eq, List.length_append]
            exact Nat.lt_add_of_pos_right (List.length_pos_of_mem hrest)
          have hlen := hi.length
          exact ⟨i, List.mem_cons_self, hpi.mem_iff.mp (List.mem_append_right _ hrest), by omega,
            fun a ha => hle a ha b hrest⟩
        · obtain ⟨j, hj, hfound⟩ := hall b hmem
          exact ⟨j, List.mem_cons_of_mem i hj, hfound⟩
  obtain ⟨rests, hp, hall⟩ := hrests
  have hlen : s.length = (parts.flatMap out).length := hperm.length_eq
  have hsub : ∀ i ∈ parts, (out i).Sublist (parts.flatMap out) := fun i hi => by
    rw [List.flatMap_def]
    exact List.sublist_flatten_of_mem (List.mem_map.mpr ⟨i, hi, rfl⟩)
  refine ⟨⟨s.drop n ++ rests, ?_, fun a ha b hb => ?_⟩, ?_⟩
  · rw [← List.append_assoc, List.take_append_drop]
    exact (hperm.append_right rests).trans hp
  · rcases List.mem_append.mp hb with hdrop | hrest
    · rw [← List.take_append_drop n s] at hs
      exact (List.pairwise_append.mp hs).2.2 a ha b hdrop
    · obtain ⟨i, hi, -, hfull, hle⟩ := hall b hrest
      by_contra hgt
      have hcount := length_filter_lt_of_mem_take hs ha
      have hkept : (out i).filter (fun c => d c < d a) = out i :=
        List.filter_eq_self.mpr fun c hc => decide_eq_true (lt_of_le_of_lt (hle c hc) (not_le.mp hgt))
      have hle' := ((hsub i hi).filter fun c => d c < d a).length_le
      rw [hkept, hfull, ← (hperm.filter fun c => d c < d a).length_eq] at hle'
      omega
  · rw [List.length_take, hlen, ← hp.length_eq, List.length_append]
    cases rests with
    | nil => rfl
    | cons b rests =>
      obtain ⟨i, hi, -, hfull, -⟩ := hall b List.mem_cons_self
      have hle := (hsub i hi).length_le
      rw [hfull] at hle
      rw [Nat.min_eq_left hle, Nat.min_eq_left (Nat.le_add_right_of_le hle)]

end

end Ranking
