import Stigmergy.Lib.Text

/-!
# Leftmost matches of a text

A matcher looks at the text from some place on and answers with the length of its match there and a
value.  Matches are taken from left to right and do not overlap.

* `sub m`     every match replaced by its value (`re.sub`);
* `found m`   the values of the matches in order (`re.finditer`);
* `located m` the same with the places where each match begins and ends;
* `subBehind`, `foundBehind`, `locatedBehind`   for a matcher that also looks at the character before
  its match;
* `locatedBehind_mem`   a match that no earlier one runs into is found;
* `Cuts`, `Cuts.keeps`   what a substitution keeps when it matches where a property may be cut;
* `Rest`, `rest_iff`    what is left when all matches are taken out.

All count down the characters of the match they are in.
-/

set_option linter.unusedSectionVars false

namespace Scan

section
variable {α : Type*}

def subFrom (m : Text → Option (ℕ × Text)) : ℕ → Text → Text
  | _, [] => []
  | k + 1, _ :: t => subFrom m k t
  | 0, c :: t =>
    match m (c :: t) with
    | some (n + 1, r) => r ++ subFrom m n t
    | _ => c :: subFrom m 0 t

def sub (m : Text → Option (ℕ × Text)) (t : Text) : Text := subFrom m 0 t

def foundFrom (m : Text → Option (ℕ × α)) : ℕ → Text → List α
  | _, [] => []
  | k + 1, _ :: t => foundFrom m k t
  | 0, c :: t =>
    match m (c :: t) with
    | some (n + 1, a) => a :: foundFrom m n t
    | _ => foundFrom m 0 t

def found (m : Text → Option (ℕ × α)) (t : Text) : List α := foundFrom m 0 t

def locatedFrom (m : Text → Option (ℕ × α)) : ℕ → ℕ → Text → List (ℕ × ℕ × α)
  | _, _, [] => []
  | pos, k + 1, _ :: t => locatedFrom m (pos + 1) k t
  | pos, 0, c :: t =>
    match m (c :: t) with
    | some (n + 1, a) => (pos, pos + n + 1, a) :: locatedFrom m (pos + 1) n t
    | _ => locatedFrom m (pos + 1) 0 t

def located (m : Text → Option (ℕ × α)) (t : Text) : List (ℕ × ℕ × α) := locatedFrom m 0 0 t

def subBehindFrom (m : Option Char → Text → Option (ℕ × Text)) : Option Char → ℕ → Text → Text
  | _, _, [] => []
  | _, k + 1, c :: t => subBehindFrom m (some c) k t
  | prev, 0, c :: t =>
    match m prev (c :: t) with
    | some (n + 1, r) => r ++ subBehindFrom m (some c) n t
    | _ => c :: subBehindFrom m (some c) 0 t

def subBehind (m : Option Char → Text → Option (ℕ × Text)) (t : Text) : Text := subBehindFrom m none 0 t

def foundBehindFrom (m : Option Char → Text → Option (ℕ × α)) : Option Char → ℕ → Text → List α
  | _, _, [] => []
  | _, k + 1, c :: t => foundBehindFrom m (some c) k t
  | prev, 0, c :: t =>
    match m prev (c :: t) with
    | some (n + 1, a) => a :: foundBehindFrom m (some c) n t
    | _ => foundBehindFrom m (some c) 0 t

def foundBehind (m : Option Char → Text → Option (ℕ × α)) (t : Text) : List α := foundBehindFrom m none 0 t

def locatedBehindFrom (m : Option Char → Text → Option (ℕ × α)) : Option Char → ℕ → ℕ → Text → List (ℕ × ℕ × α)
  | _, _, _, [] => []
  | _, pos, k + 1, c :: t => locatedBehindFrom m (some c) (pos + 1) k t
  | prev, pos, 0, c :: t =>
    match m prev (c :: t) with
    | some (n + 1, a) => (pos, pos + n + 1, a) :: locatedBehindFrom m (some c) (pos + 1) n t
    | _ => locatedBehindFrom m (some c) (pos + 1) 0 t

def locatedBehind (m : Option Char → Text → Option (ℕ × α)) (t : Text) : List (ℕ × ℕ × α) :=
  locatedBehindFrom m none 0 0 t

theorem sub_eq_subBehind (m : Text → Option (ℕ × Text)) (prev : Option Char) (t : Text) :
    sub m t = subBehindFrom (fun _ => m) prev 0 t := by
  have h : ∀ (prev : Option Char) (k : ℕ), subFrom m k t = subBehindFrom (fun _ => m) prev k t := by
    induction t with
    | nil =>
      intro _ k
      cases k <;> rfl
    | cons c t ih =>
      intro prev k
      cases k with
      | succ k => exact ih (some c) k
      | zero =>
        rw [subFrom, subBehindFrom]
        split
        · next n r _ => exact congrArg (r ++ ·) (ih (some c) n)
        · exact congrArg (c :: ·) (ih (some c) 0)
  exact h prev 0

/-! ## characters of a match -/

theorem subFrom_drop (m : Text → Option (ℕ × Text)) {k : ℕ} {t : Text} : subFrom m k t = subFrom m 0 (t.drop k) := by
  induction k generalizing t with
  | zero => rfl
  | succ k ih =>
    cases t with
    | nil => rfl
    | cons c t => exact ih

theorem foundFrom_drop (m : Text → Option (ℕ × α)) {k : ℕ} {t : Text} : foundFrom m k t = foundFrom m 0 (t.drop k) := by
  induction k generalizing t with
  | zero => rfl
  | succ k ih =>
    cases t with
    | nil => rfl
    | cons c t => exact ih

theorem sub_none {m : Text → Option (ℕ × Text)} {c : Char} {t : Text} (h : m (c :: t) = none) :
    sub m (c :: t) = c :: sub m t := by
  unfold sub
  rw [subFrom, h]

theorem found_none {m : Text → Option (ℕ × α)} {c : Char} {t : Text} (h : m (c :: t) = none) :
    found m (c :: t) = found m t := by
  unfold found
  rw [foundFrom, h]

theorem sub_match {m : Text → Option (ℕ × Text)} {s t v : Text} (hs : s ≠ []) (h : m (s ++ t) = some (s.length, v)) :
    sub m (s ++ t) = v ++ sub m t := by
  obtain ⟨c, s, rfl⟩ := List.exists_cons_of_ne_nil hs
  rw [List.cons_append, List.length_cons] at h
  unfold sub
  rw [List.cons_append, subFrom, h]
  dsimp only
  rw [subFrom_drop, List.drop_left]

theorem found_match {m : Text → Option (ℕ × α)} {s t : Text} {a : α} (hs : s ≠ [])
    (h : m (s ++ t) = some (s.length, a)) : found m (s ++ t) = a :: found m t := by
  obtain ⟨c, s, rfl⟩ := List.exists_cons_of_ne_nil hs
  rw [List.cons_append, List.length_cons] at h
  unfold found
  rw [List.cons_append, foundFrom, h]
  dsimp only
  rw [foundFrom_drop, List.drop_left]

theorem subFrom_filter {m : Text → Option (ℕ × α)} (f : α → Text) (p : α → Bool) {k : ℕ} {t : Text}
    (h : ∀ a ∈ foundFrom m k t, p a = true) :
    subFrom (fun s => ((m s).filter fun e => p e.2).map fun e => (e.1, f e.2)) k t =
      subFrom (fun s => (m s).map fun e => (e.1, f e.2)) k t := by
  induction t generalizing k with
  | nil => cases k <;> rfl
  | cons c t ih =>
    cases k with
    | succ k => exact ih h
    | zero =>
      rw [foundFrom] at h
      rw [subFrom, subFrom]
      cases hm : m (c :: t) with
      | none =>
        rw [hm] at h
        exact congrArg (c :: ·) (ih h)
      | some e =>
        obtain ⟨n, a⟩ := e
        rw [hm] at h
        cases n with
        | zero =>
          have hrest := congrArg (c :: ·) (ih h)
          rw [Option.filter_some]
          cases hp : p a
          · exact hrest
          · exact hrest
        | succ n =>
          have ha : p a = true := h a List.mem_cons_self
          have hrest := ih fun b hb => h b (List.mem_cons_of_mem a hb)
          simp only [Option.filter_some, ha, if_true, Option.map_some, hrest]

/-- where every match found is of a kind, the matches of that kind are all -/
theorem sub_filter {m : Text → Option (ℕ × α)} (f : α → Text) (p : α → Bool) {t : Text}
    (h : ∀ a ∈ found m t, p a = true) :
    sub (fun s => ((m s).filter fun e => p e.2).map fun e => (e.1, f e.2)) t =
      sub (fun s => (m s).map fun e => (e.1, f e.2)) t := subFrom_filter f p h

/-! ## values of matches -/

theorem mem_foundBehindFrom {m : Option Char → Text → Option (ℕ × α)} {prev : Option Char} {k : ℕ} {t : Text} {a : α}
    (h : a ∈ foundBehindFrom m prev k t) : ∃ prev s n, m prev s = some (n, a) := by
  induction t generalizing prev k with
  | nil => exact absurd h List.not_mem_nil
  | cons c t ih =>
    cases k with
    | succ k => exact ih h
    | zero =>
      rw [foundBehindFrom] at h
      split at h
      · next n b hm =>
        rcases List.mem_cons.mp h with rfl | h
        · exact ⟨_, _, _, hm⟩
        · exact ih h
      · exact ih h

theorem mem_foundFrom {m : Text → Option (ℕ × α)} {k : ℕ} {t : Text} {a : α} (h : a ∈ foundFrom m k t) :
    ∃ s n, s <:+ t ∧ m s = some (n, a) := by
  induction t generalizing k with
  | nil =>
    cases k <;> exact absurd h List.not_mem_nil
  | cons c t ih =>
    have hlater : ∀ k, a ∈ foundFrom m k t → ∃ s n, s <:+ c :: t ∧ m s = some (n, a) := by
      intro k h
      obtain ⟨s, n, hs, hm⟩ := ih h
      exact ⟨s, n, hs.trans (List.suffix_cons c t), hm⟩
    cases k with
    | succ k => exact hlater k h
    | zero =>
      rw [foundFrom] at h
      split at h
      · next n b hm =>
        rcases List.mem_cons.mp h with rfl | h
        · exact ⟨c :: t, n + 1, List.suffix_rfl, hm⟩
        · exact hlater n h
      · exact hlater 0 h

/-- what is found is the value of a match somewhere in the text -/
theorem mem_found {m : Text → Option (ℕ × α)} {t : Text} {a : α} (h : a ∈ found m t) :
    ∃ s n, s <:+ t ∧ m s = some (n, a) := mem_foundFrom h

/-- what is found is the value of a match -/
theorem mem_foundBehind {m : Option Char → Text → Option (ℕ × α)} {t : Text} {a : α} (h : a ∈ foundBehind m t) :
    ∃ prev s n, m prev s = some (n, a) := mem_foundBehindFrom h

/-! ## what substitutions keep -/

section
variable {stop : Char → Prop} {P : Text → Prop}

/-- a property of texts, kept by cuts in front of certain characters -/
structure Cuts (stop : Char → Prop) (P : Text → Prop) : Prop where
  nil : P []
  append : ∀ {s t}, P s → P t → P (s ++ t)
  behind : ∀ {s t}, P (s ++ t) → P t
  front : ∀ {c s t}, stop c → P (s ++ c :: t) → P s

theorem Cuts.tail (h : Cuts stop P) {c : Char} {t : Text} (ht : P (c :: t)) : P t := h.behind (s := [c]) ht

theorem Cuts.keepsFrom (h : Cuts stop P) {m : Option Char → Text → Option (ℕ × Text)}
    (hm : ∀ prev c t n v, P (c :: t) → m prev (c :: t) = some (n, v) → stop c ∧ P v) {prev : Option Char} {k : ℕ}
    {pre t : Text} (ht : k = 0 ∧ P (pre ++ t) ∨ P pre ∧ P t) : P (pre ++ subBehindFrom m prev k t) := by
  induction t generalizing prev k pre with
  | nil =>
    have hend : subBehindFrom m prev k [] = [] := by cases k <;> rfl
    rw [hend]
    rcases ht with ⟨-, ht⟩ | ⟨hpre, -⟩
    · exact ht
    · exact h.append hpre h.nil
  | cons c t ih =>
    cases k with
    | succ k =>
      obtain ⟨hpre, ht⟩ := ht.resolve_left fun hk => Nat.succ_ne_zero k hk.1
      exact ih (Or.inr ⟨hpre, h.tail ht⟩)
    | zero =>
      have hall : P (pre ++ c :: t) := by
        rcases ht with ⟨-, ht⟩ | ⟨hpre, ht⟩
        · exact ht
        · exact h.append hpre ht
      rw [subBehindFrom]
      split
      · next n v hmatch =>
        obtain ⟨hc, hv⟩ := hm prev c t _ v (h.behind hall) hmatch
        rw [← List.append_assoc]
        exact ih (Or.inr ⟨h.append (h.front hc hall) hv, h.tail (h.behind hall)⟩)
      · rw [List.append_cons]
        refine ih (Or.inl ⟨rfl, ?_⟩)
        rwa [← List.append_cons]

theorem Cuts.keepsBehind (h : Cuts stop P) {m : Option Char → Text → Option (ℕ × Text)}
    (hm : ∀ prev c t n v, P (c :: t) → m prev (c :: t) = some (n, v) → stop c ∧ P v) {t : Text} (ht : P t) :
    P (subBehind m t) := @keepsFrom stop P h m hm none 0 [] t (Or.inl ⟨rfl, ht⟩)

theorem Cuts.keeps (h : Cuts stop P) {m : Text → Option (ℕ × Text)}
    (hm : ∀ c t n v, P (c :: t) → m (c :: t) = some (n, v) → stop c ∧ P v) {t : Text} (ht : P t) : P (sub m t) := by
  rw [sub_eq_subBehind m none]
  exact h.keepsBehind (fun _ => hm) ht

/-- without a character -/
theorem cuts_notMem (c : Char) : Cuts (fun _ => True) fun t => c ∉ t where
  nil := List.not_mem_nil
  append := fun hs ht hm => (List.mem_append.mp hm).elim hs ht
  behind := fun h hm => h (List.mem_append_right _ hm)
  front := fun _ h hm => h (List.mem_append_left _ hm)

/-- matches that are only dropped -/
theorem sub_sublist {m : Text → Option (ℕ × Text)} (hm : ∀ t n v, m t = some (n, v) → v = []) (t : Text) :
    (sub m t).Sublist t := by
  have hall : ∀ k, (subFrom m k t).Sublist t := by
    induction t with
    | nil =>
      intro k
      cases k <;> exact List.Sublist.refl []
    | cons c t ih =>
      intro k
      cases k with
      | succ k => exact (ih k).cons c
      | zero =>
        rw [subFrom]
        split
        · next n v hmatch =>
          rw [hm _ _ _ hmatch]
          exact (ih n).cons c
        · exact (ih 0).cons_cons c
  exact hall 0

/-- text without matches at the front -/
theorem sub_gap {m : Text → Option (ℕ × Text)} {gap t : Text} (h : ∀ s, s <:+ gap → s ≠ [] → m (s ++ t) = none) :
    sub m (gap ++ t) = gap ++ sub m t := by
  induction gap with
  | nil => rfl
  | cons c gap ih =>
    have hnone : m (c :: (gap ++ t)) = none := h (c :: gap) List.suffix_rfl (List.cons_ne_nil c gap)
    rw [List.cons_append, sub_none hnone, ih fun s hs => h s (hs.trans (List.suffix_cons c gap)), List.cons_append]

theorem found_gap {m : Text → Option (ℕ × α)} {gap t : Text} (h : ∀ s, s <:+ gap → s ≠ [] → m (s ++ t) = none) :
    found m (gap ++ t) = found m t := by
  induction gap with
  | nil => rfl
  | cons c gap ih =>
    have hnone : m (c :: (gap ++ t)) = none := h (c :: gap) List.suffix_rfl (List.cons_ne_nil c gap)
    rw [List.cons_append, found_none hnone, ih fun s hs => h s (hs.trans (List.suffix_cons c gap))]

end

/-! ## places of matches -/

section
variable {m : Text → Option (ℕ × α)}

theorem locatedFrom_drop (pos : ℕ) {k : ℕ} {t : Text} (h : k ≤ t.length) :
    locatedFrom m pos k t = locatedFrom m (pos + k) 0 (t.drop k) := by
  induction k generalizing pos t with
  | zero => rfl
  | succ k ih =>
    cases t with
    | nil => exact absurd h (Nat.not_succ_le_zero k)
    | cons c t =>
      rw [locatedFrom, ih (pos + 1) (Nat.le_of_succ_le_succ h), List.drop_succ_cons]
      congr 1
      omega

/-- a match at the front -/
theorem locatedFrom_match (pos : ℕ) {n : ℕ} {t : Text} {a : α} (h : m t = some (n + 1, a))
    (hn : n + 1 ≤ t.length) :
    locatedFrom m pos 0 t = (pos, pos + n + 1, a) :: locatedFrom m (pos + n + 1) 0 (t.drop (n + 1)) := by
  cases t with
  | nil => exact absurd hn (Nat.not_succ_le_zero n)
  | cons c t =>
    rw [locatedFrom, h]
    dsimp only
    rw [locatedFrom_drop (pos + 1) (Nat.le_of_succ_le_succ hn), List.drop_succ_cons]
    congr 2
    omega

/-- text in front that no match begins in -/
theorem locatedFrom_gap (pos : ℕ) {gap t : Text} (h : ∀ s, s <:+ gap → s ≠ [] → m (s ++ t) = none) :
    locatedFrom m pos 0 (gap ++ t) = locatedFrom m (pos + gap.length) 0 t := by
  induction gap generalizing pos with
  | nil => rfl
  | cons c gap ih =>
    have hnone : m (c :: (gap ++ t)) = none := h (c :: gap) List.suffix_rfl (List.cons_ne_nil c gap)
    rw [List.cons_append, locatedFrom, hnone]
    dsimp only
    rw [ih (pos + 1) fun s hs => h s (hs.trans (List.suffix_cons c gap)), List.length_cons]
    congr 1
    omega

/-- what a scan has found: nothing, or a first match and what lies behind it -/
theorem locatedFrom_cases (hfit : ∀ s n a, m s = some (n, a) → n ≤ s.length) (pos : ℕ) (t : Text) :
    locatedFrom m pos 0 t = [] ∨ ∃ gap s n a, t = gap ++ s ∧ m s = some (n + 1, a) ∧ n + 1 ≤ s.length ∧
      locatedFrom m pos 0 t = (pos + gap.length, pos + gap.length + n + 1, a) ::
        locatedFrom m (pos + gap.length + n + 1) 0 (s.drop (n + 1)) := by
  induction t generalizing pos with
  | nil => exact Or.inl rfl
  | cons c t ih =>
    by_cases hm : ∃ n a, m (c :: t) = some (n + 1, a)
    · obtain ⟨n, a, hm⟩ := hm
      have hn := hfit _ _ _ hm
      exact Or.inr ⟨[], c :: t, n, a, rfl, hm, hn, locatedFrom_match pos hm hn⟩
    · have hskip : locatedFrom m pos 0 (c :: t) = locatedFrom m (pos + 1) 0 t := by
        rw [locatedFrom]
        split
        · next n a h => exact absurd ⟨n, a, h⟩ hm
        · rfl
      rw [hskip]
      rcases ih (pos + 1) with h | ⟨gap, s, n, a, rfl, hms, hn, h⟩
      · exact Or.inl h
      · have hlen : pos + (c :: gap).length = pos + 1 + gap.length := by
          rw [List.length_cons]
          omega
        refine Or.inr ⟨c :: gap, s, n, a, rfl, hms, hn, ?_⟩
        rw [hlen]
        exact h

end

/-! ## places of matches that look behind -/

section
variable {m : Option Char → Text → Option (ℕ × α)}

theorem map_locatedBehindFrom (prev : Option Char) (pos k : ℕ) (t : Text) :
    (locatedBehindFrom m prev pos k t).map (fun e => e.2.2) = foundBehindFrom m prev k t := by
  induction t generalizing prev pos k with
  | nil =>
    cases k <;> rfl
  | cons c t ih =>
    cases k with
    | succ k => exact ih _ _ _
    | zero =>
      rw [locatedBehindFrom, foundBehindFrom]
      split
      · exact congrArg (_ :: ·) (ih _ _ _)
      · exact ih _ _ _

theorem map_locatedBehind (t : Text) : (locatedBehind m t).map (fun e => e.2.2) = foundBehind m t :=
  map_locatedBehindFrom none 0 0 t

theorem getLast?_cons_or (c : Char) (pre : Text) (prev : Option Char) :
    (c :: pre).getLast?.or prev = pre.getLast?.or (some c) := by
  rw [List.getLast?_cons]
  cases pre.getLast? <;> rfl

theorem locatedBehindFrom_spec {prev : Option Char} {pos k : ℕ} {t : Text} {b e : ℕ} {a : α}
    (h : (b, e, a) ∈ locatedBehindFrom m prev pos k t) :
    ∃ pre s n, t = pre ++ s ∧ b = pos + pre.length ∧ e = b + (n + 1) ∧
      m (pre.getLast?.or prev) s = some (n + 1, a) := by
  induction t generalizing prev pos k with
  | nil =>
    cases k <;> exact absurd h List.not_mem_nil
  | cons c t ih =>
    have hlater : ∀ k, (b, e, a) ∈ locatedBehindFrom m (some c) (pos + 1) k t →
        ∃ pre s n, c :: t = pre ++ s ∧ b = pos + pre.length ∧ e = b + (n + 1) ∧
          m (pre.getLast?.or prev) s = some (n + 1, a) := by
      intro k h
      obtain ⟨pre, s, n, rfl, hb, he, hm⟩ := ih h
      refine ⟨c :: pre, s, n, rfl, ?_, he, ?_⟩
      · rw [hb, List.length_cons]
        omega
      · rw [getLast?_cons_or]
        exact hm
    cases k with
    | succ k => exact hlater k h
    | zero =>
      rw [locatedBehindFrom] at h
      split at h
      · next n v hm =>
        rcases List.mem_cons.mp h with h | h
        · obtain ⟨rfl, h⟩ := Prod.mk.inj h
          obtain ⟨rfl, rfl⟩ := Prod.mk.inj h
          exact ⟨[], c :: t, n, rfl, rfl, by omega, hm⟩
        · exact hlater n h
      · exact hlater 0 h

/-- a match is found where it begins -/
theorem locatedBehind_spec {t : Text} {b e : ℕ} {a : α} (h : (b, e, a) ∈ locatedBehind m t) :
    ∃ pre s n, t = pre ++ s ∧ b = pre.length ∧ e = b + (n + 1) ∧ m pre.getLast? s = some (n + 1, a) := by
  obtain ⟨pre, s, n, ht, hb, he, hm⟩ := locatedBehindFrom_spec h
  rw [Option.or_none] at hm
  exact ⟨pre, s, n, ht, hb.trans (Nat.zero_add _), he, hm⟩

theorem locatedBehindFrom_mem {prev : Option Char} {pos k : ℕ} {pre s : Text} {n : ℕ} {a : α} (hs : s ≠ [])
    (hm : m (pre.getLast?.or prev) s = some (n + 1, a)) (hk : k ≤ pre.length)
    (hover : ∀ p q n' a', pre = p ++ q → q ≠ [] → m (p.getLast?.or prev) (q ++ s) = some (n', a') → n' ≤ q.length) :
    (pos + pre.length, pos + pre.length + (n + 1), a) ∈ locatedBehindFrom m prev pos k (pre ++ s) := by
  induction pre generalizing prev pos k with
  | nil =>
    obtain ⟨c, s, rfl⟩ := List.exists_cons_of_ne_nil hs
    have hk : k = 0 := Nat.le_zero.mp hk
    rw [hk, List.nil_append, locatedBehindFrom, show m prev (c :: s) = some (n + 1, a) from hm]
    exact List.mem_cons_self
  | cons c pre ih =>
    have hlater : ∀ k ≤ pre.length, (pos + (c :: pre).length, pos + (c :: pre).length + (n + 1), a) ∈
        locatedBehindFrom m (some c) (pos + 1) k (pre ++ s) := by
      intro k hk
      rw [getLast?_cons_or] at hm
      have hlen : pos + (c :: pre).length = pos + 1 + pre.length := by
        rw [List.length_cons]
        omega
      rw [hlen]
      exact ih hm hk fun p q n' a' hp hq hm' =>
        hover (c :: p) q n' a' (congrArg (c :: ·) hp) hq (by rwa [getLast?_cons_or])
    cases k with
    | succ k => exact hlater k (Nat.le_of_succ_le_succ hk)
    | zero =>
      rw [List.cons_append, locatedBehindFrom]
      split
      · next n' v hm' =>
        have hfit := hover [] (c :: pre) _ v rfl (List.cons_ne_nil c pre) hm'
        exact List.mem_cons_of_mem _ (hlater n' (Nat.le_of_succ_le_succ hfit))
      · exact hlater 0 (Nat.zero_le _)

/-- a match that no earlier one runs into is found -/
theorem locatedBehind_mem {pre s : Text} {n : ℕ} {a : α} (hs : s ≠ []) (hm : m pre.getLast? s = some (n + 1, a))
    (hover : ∀ p q n' a', pre = p ++ q → q ≠ [] → m p.getLast? (q ++ s) = some (n', a') → n' ≤ q.length) :
    (pre.length, pre.length + (n + 1), a) ∈ locatedBehind m (pre ++ s) := by
  have hmem : (0 + pre.length, 0 + pre.length + (n + 1), a) ∈ locatedBehindFrom m none 0 0 (pre ++ s) :=
    locatedBehindFrom_mem hs (by rwa [Option.or_none]) (Nat.zero_le _) fun p q n' a' hp hq hm' =>
      hover p q n' a' hp hq (by rwa [Option.or_none] at hm')
  rwa [Nat.zero_add] at hmem

end

/-! ## what is left -/

/-- what is left of a text when its matches are taken out, from left to right; `P prev r u` says that `r` is a match
with the character `prev` before it and `u` behind it -/
inductive Rest (P : Option Char → Text → Text → Prop) : Option Char → Text → Text → Prop where
  | nil (prev : Option Char) : Rest P prev [] []
  | cut {prev : Option Char} {r t s : Text} (hr : r ≠ []) (h : P prev r t) (hrest : Rest P (r.getLast?.or prev) t s) :
      Rest P prev (r ++ t) s
  | keep {prev : Option Char} {c : Char} {t s : Text} (h : ∀ r u, r ≠ [] → c :: t = r ++ u → ¬P prev r u)
      (hrest : Rest P (some c) t s) : Rest P prev (c :: t) (c :: s)

theorem Rest.sublist {P : Option Char → Text → Text → Prop} {prev : Option Char} {t s : Text} (h : Rest P prev t s) :
    s.Sublist t := by
  induction h with
  | nil => exact List.Sublist.refl _
  | cut _ _ _ ih => exact ih.trans (List.sublist_append_right _ _)
  | keep _ _ ih => exact ih.cons_cons _

/-- all is left where nothing matches -/
theorem Rest.eq_or_match {P : Option Char → Text → Text → Prop} {prev : Option Char} {t s : Text}
    (h : Rest P prev t s) : s = t ∨ ∃ pre r u, t = pre ++ (r ++ u) ∧ r ≠ [] ∧ P (pre.getLast?.or prev) r u := by
  induction h with
  | nil => exact Or.inl rfl
  | @cut prev r t s hr hP _ _ => exact Or.inr ⟨[], r, t, rfl, hr, hP⟩
  | @keep prev c t s _ _ ih =>
    rcases ih with rfl | ⟨pre, r, u, rfl, hr, hP⟩
    · exact Or.inl rfl
    · refine Or.inr ⟨c :: pre, r, u, rfl, hr, ?_⟩
      rw [getLast?_cons_or]
      exact hP

theorem subBehindFrom_skip (m : Option Char → Text → Option (ℕ × Text)) (prev : Option Char) (r t : Text) :
    subBehindFrom m prev r.length (r ++ t) = subBehindFrom m (r.getLast?.or prev) 0 t := by
  induction r generalizing prev with
  | nil => rfl
  | cons c r ih =>
    rw [getLast?_cons_or, ← ih (some c)]
    rfl

section
variable {P : Option Char → Text → Text → Prop} {m : Option Char → Text → Option (ℕ × Text)}

theorem subBehindFrom_match {prev : Option Char} {s t v : Text} (hs : s ≠ [])
    (h : m prev (s ++ t) = some (s.length, v)) :
    subBehindFrom m prev 0 (s ++ t) = v ++ subBehindFrom m (s.getLast?.or prev) 0 t := by
  obtain ⟨c, s, rfl⟩ := List.exists_cons_of_ne_nil hs
  rw [List.cons_append, List.length_cons] at h
  rw [List.cons_append, subBehindFrom, h]
  dsimp only
  rw [subBehindFrom_skip, getLast?_cons_or]

theorem subBehindFrom_cut {prev : Option Char} {r t : Text} (hr : r ≠ []) (h : m prev (r ++ t) = some (r.length, [])) :
    subBehindFrom m prev 0 (r ++ t) = subBehindFrom m (r.getLast?.or prev) 0 t := subBehindFrom_match hr h

theorem rest_subBehindFrom (hm : ∀ prev t e, m prev t = some e ↔
    ∃ r u, r ≠ [] ∧ t = r ++ u ∧ e = (r.length, []) ∧ P prev r u) (prev : Option Char) (t : Text) :
    Rest P prev t (subBehindFrom m prev 0 t) := by
  induction hn : t.length using Nat.strongRecOn generalizing prev t with
  | ind n ih =>
    subst hn
    cases t with
    | nil => exact Rest.nil prev
    | cons c t =>
      cases he : m prev (c :: t) with
      | none =>
        have hkeep : subBehindFrom m prev 0 (c :: t) = c :: subBehindFrom m (some c) 0 t := by
          rw [subBehindFrom, he]
        rw [hkeep]
        refine Rest.keep (fun r u hr heq hP => ?_) (ih t.length (Nat.lt_succ_self _) (some c) t rfl)
        have hsome := (hm prev (c :: t) (r.length, [])).mpr ⟨r, u, hr, heq, rfl, hP⟩
        rw [he] at hsome
        exact absurd hsome.symm (Option.some_ne_none _)
      | some e =>
        obtain ⟨r, u, hr, heq, rfl, hP⟩ := (hm prev (c :: t) e).mp he
        rw [heq] at he ⊢
        rw [subBehindFrom_cut hr he]
        refine Rest.cut hr hP (ih u.length ?_ _ u rfl)
        rw [heq, List.length_append]
        exact Nat.lt_add_of_pos_left (List.length_pos_iff.mpr hr)

/-- taking out all matches is a substitution by nothing -/
theorem rest_iff (hm : ∀ prev t e, m prev t = some e ↔
    ∃ r u, r ≠ [] ∧ t = r ++ u ∧ e = (r.length, []) ∧ P prev r u) {prev : Option Char} {t s : Text} :
    Rest P prev t s ↔ s = subBehindFrom m prev 0 t := by
  constructor
  · intro h
    induction h with
    | nil => rfl
    | @cut prev r t s hr hP _ ih =>
      rw [ih, subBehindFrom_cut hr ((hm prev (r ++ t) _).mpr ⟨r, t, hr, rfl, rfl, hP⟩)]
    | @keep prev c t s hnot _ ih =>
      have hnone : m prev (c :: t) = none := by
        rw [Option.eq_none_iff_forall_ne_some]
        intro e he
        obtain ⟨r, u, hr, heq, -, hP⟩ := (hm prev (c :: t) e).mp he
        exact hnot r u hr heq hP
      rw [ih, subBehindFrom, hnone]
  · rintro rfl
    exact rest_subBehindFrom hm prev t

end

end

end Scan
