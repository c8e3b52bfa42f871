import Stigmergy.Lib.Text
import Stigmergy.Lib.TokenBucket
import Mathlib.Logic.Function.Basic
import Mathlib.Data.Rat.Cast.Order

/-!
# The rate limiter

`RateLimiter` of `server/ratelimit.py`, with exact rationals for its floats: a token bucket for each identity
and budget, made at the first call and refilled when it is looked at.

* `check`          one call: it spends a token of every budget it draws on, or none and is refused;
* `held`           what an identity holds of a budget at a time;
* `held_check`     a call takes one token of what its identity holds, or nothing;
* `Alike`          states between which an identity sees no difference (`decisions_congr`);
* `accepted_le`    what is held, and what comes in, pays for the calls of a window;
* `rate_limited`   over every run: the bound on each window, what a refused call and another identity's calls
                   change (nothing), and the budget two tools share.
-/

set_option linter.unusedSectionVars false

namespace RateLimit

def DEFAULT_OVERALL_PER_MIN : ℕ := 120
def DEFAULT_ASK_PER_MIN : ℕ := 10
def DEFAULT_DELETE_PER_MIN : ℕ := 3
def DEFAULT_CAPTURE_PER_MIN : ℕ := 30

inductive Budget where
  | overall | ask | delete | capture
deriving DecidableEq

structure Limits where
  overallPerMin : ℕ
  askPerMin : ℕ
  deletePerMin : ℕ
  capturePerMin : ℕ

/-- the limits of `RateLimiter()` -/
def Limits.default : Limits :=
  ⟨DEFAULT_OVERALL_PER_MIN, DEFAULT_ASK_PER_MIN, DEFAULT_DELETE_PER_MIN, DEFAULT_CAPTURE_PER_MIN⟩

def Limits.perMin (L : Limits) : Budget → ℕ
  | .overall => L.overallPerMin
  | .ask => L.askPerMin
  | .delete => L.deletePerMin
  | .capture => L.capturePerMin

/-- the budget `_extra` gives a tool; the last two have one between them -/
def extraOf (tool : Text) : Option Budget :=
  if tool = "ask".toList then some .ask
  else if tool = "brain_delete".toList then some .delete
  else if tool = "brain_submit".toList then some .capture
  else if tool = "brain_upload_finalize".toList then some .capture
  else none

/-- the buckets of each budget by identity -/
abbrev Limiter := Budget → Text → Option (TokenBucket ℚ)

def Limiter.empty : Limiter := fun _ _ => none

def Limiter.set (s : Limiter) (β : Budget) (identity : Text) (b : TokenBucket ℚ) : Limiter :=
  Function.update s β (Function.update (s β) identity (some b))

section
variable (L : Limits)

def Limits.capacity (β : Budget) : ℚ := L.perMin β

def Limits.rate (β : Budget) : ℚ := L.capacity β / 60

/-- `_bucket` -/
def bucket (s : Limiter) (β : Budget) (identity : Text) (now : ℚ) : TokenBucket ℚ :=
  (s β identity).getD (TokenBucket.full (L.capacity β) now)

def exceeded (perMin : ℕ) (what : Text) : Text :=
  "rate limited: ".toList ++ (toString perMin).toList ++ what ++
    " requests/min exceeded — wait a moment and retry".toList

/-- `_check` -/
def check (s : Limiter) (identity tool : Text) (now : ℚ) : Limiter × Except Text Unit :=
  let overall := (bucket L s .overall identity now).refill (L.capacity .overall) (L.rate .overall) now
  match extraOf tool with
  | none =>
    if 1 ≤ overall.tokens then (s.set .overall identity overall.spend, .ok ())
    else (s.set .overall identity overall, .error (exceeded L.overallPerMin []))
  | some β =>
    let made := bucket L s β identity now
    if 1 ≤ overall.tokens then
      let extra := made.refill (L.capacity β) (L.rate β) now
      if 1 ≤ extra.tokens then ((s.set .overall identity overall.spend).set β identity extra.spend, .ok ())
      else ((s.set .overall identity overall).set β identity extra,
        .error (exceeded (L.perMin β) (' ' :: tool)))
    else ((s.set .overall identity overall).set β identity made, .error (exceeded L.overallPerMin []))

structure Call where
  identity : Text
  tool : Text
  time : ℚ
deriving DecidableEq

/-- the answers to calls one after the other -/
def decisions : Limiter → List Call → List (Except Text Unit)
  | _, [] => []
  | s, c :: cs => (check L s c.identity c.tool c.time).2 :: decisions (check L s c.identity c.tool c.time).1 cs

/-- the budgets a call draws on -/
def draws (tool : Text) (β : Budget) : Bool := β == .overall || extraOf tool == some β

/-- the calls of one identity that were accepted in a window and drew on one budget -/
def acceptedIn (s : Limiter) (calls : List Call) (identity : Text) (β : Budget) (a b : ℚ) : List Call :=
  ((calls.zip (decisions L s calls)).filter fun e => e.1.identity == identity && draws e.1.tool β &&
    decide (a ≤ e.1.time) && decide (e.1.time ≤ b) && e.2.isOk).map Prod.fst

/-! ## what an identity holds -/

def held (s : Limiter) (β : Budget) (identity : Text) (t : ℚ) : ℚ :=
  match s β identity with
  | none => L.capacity β
  | some b => b.level (L.capacity β) (L.rate β) t

/-- no bucket is of the future, and none is in debt -/
def Fresh (s : Limiter) (now : ℚ) : Prop := ∀ β k b, s β k = some b → b.last ≤ now ∧ 0 ≤ b.tokens

/-- the answer to a call, from what its identity holds -/
def answer (tool : Text) (h : Budget → ℚ) : Except Text Unit :=
  match extraOf tool with
  | none => if 1 ≤ h .overall then .ok () else .error (exceeded L.overallPerMin [])
  | some β =>
    if 1 ≤ h .overall then
      if 1 ≤ h β then .ok () else .error (exceeded (L.perMin β) (' ' :: tool))
    else .error (exceeded L.overallPerMin [])

variable {L}

theorem capacity_nonneg (β : Budget) : 0 ≤ L.capacity β := Nat.cast_nonneg _

theorem rate_nonneg (β : Budget) : 0 ≤ L.rate β := div_nonneg (capacity_nonneg β) (by norm_num)

theorem extraOf_ne_overall {tool : Text} {β : Budget} (h : extraOf tool = some β) : β ≠ .overall := by
  rintro rfl
  unfold extraOf at h
  split at h
  · exact nomatch h
  split at h
  · exact nomatch h
  split at h
  · exact nomatch h
  split at h <;> exact nomatch h

theorem set_self (s : Limiter) (β : Budget) (k : Text) (b : TokenBucket ℚ) : s.set β k b β k = some b := by
  rw [Limiter.set, Function.update_self, Function.update_self]

theorem set_of_ne (s : Limiter) {β γ : Budget} {k l : Text} (b : TokenBucket ℚ) (h : γ ≠ β ∨ l ≠ k) :
    s.set β k b γ l = s γ l := by
  unfold Limiter.set
  by_cases hγ : γ = β
  · rw [hγ, Function.update_self, Function.update_of_ne (h.resolve_left (not_not.mpr hγ))]
  · rw [Function.update_of_ne hγ]

/-- a bucket that is made is full -/
theorem level_bucket (s : Limiter) (β : Budget) (k : Text) {now t : ℚ} (h : now ≤ t) :
    (bucket L s β k now).level (L.capacity β) (L.rate β) t = held L s β k t := by
  unfold bucket held
  cases s β k with
  | none => exact TokenBucket.level_full (rate_nonneg β) h
  | some b => rfl

theorem Fresh.bucket {s : Limiter} {now : ℚ} (h : Fresh s now) (β : Budget) (k : Text) :
    (bucket L s β k now).last ≤ now ∧ 0 ≤ (bucket L s β k now).tokens := by
  unfold RateLimit.bucket
  cases hb : s β k with
  | none => exact ⟨le_refl now, capacity_nonneg β⟩
  | some b => exact h β k b hb

theorem held_set_self (s : Limiter) (β : Budget) (k : Text) (b : TokenBucket ℚ) (t : ℚ) :
    held L (s.set β k b) β k t = b.level (L.capacity β) (L.rate β) t := by
  rw [held, set_self]

theorem held_set_of_ne (s : Limiter) {β γ : Budget} {k l : Text} (b : TokenBucket ℚ) (h : γ ≠ β ∨ l ≠ k) (t : ℚ) :
    held L (s.set β k b) γ l t = held L s γ l t := by
  rw [held, set_of_ne s b h, held]

/-! ## one call -/

/-- what is held of a budget after a call, by the identity that called -/
def spent (L : Limits) (s : Limiter) (identity tool : Text) (now : ℚ) (β : Budget) (t : ℚ) : ℚ :=
  if (check L s identity tool now).2.isOk && draws tool β then
    min (L.capacity β) (held L s β identity now - 1 + (t - now) * L.rate β)
  else held L s β identity t

theorem check_snd (s : Limiter) (identity tool : Text) (now : ℚ) :
    (check L s identity tool now).2 = answer L tool fun β => held L s β identity now := by
  have htokens : ∀ β, ((bucket L s β identity now).refill (L.capacity β) (L.rate β) now).tokens =
      held L s β identity now := fun β => level_bucket s β identity (le_refl now)
  unfold check answer
  cases extraOf tool with
  | none =>
    dsimp only
    rw [htokens]
    split <;> rfl
  | some β =>
    dsimp only
    rw [htokens, htokens]
    split
    · split <;> rfl
    · rfl

theorem draws_iff {tool : Text} {β : Budget} : draws tool β = true ↔ β = .overall ∨ extraOf tool = some β := by
  rw [draws, Bool.or_eq_true, beq_iff_eq, beq_iff_eq]

/-- the caller has what is left of a token of every budget it drew on, or what it had -/
theorem held_check {s : Limiter} {now : ℚ} (hs : Fresh s now) (identity tool : Text) {t : ℚ} (ht : now ≤ t)
    (β : Budget) : held L (check L s identity tool now).1 β identity t = spent L s identity tool now β t := by
  have hlook : ∀ γ, ((bucket L s γ identity now).refill (L.capacity γ) (L.rate γ) now).level
      (L.capacity γ) (L.rate γ) t = held L s γ identity t := by
    intro γ
    rw [TokenBucket.level_refill (rate_nonneg γ) (hs.bucket γ identity).1 ht, level_bucket s γ identity ht]
  have hspend : ∀ γ, ((bucket L s γ identity now).refill (L.capacity γ) (L.rate γ) now).spend.level
      (L.capacity γ) (L.rate γ) t = min (L.capacity γ) (held L s γ identity now - 1 + (t - now) * L.rate γ) := by
    intro γ
    rw [TokenBucket.level_spend ht, level_bucket s γ identity (le_refl now)]
  unfold spent check
  cases hextra : extraOf tool with
  | none =>
    have hdraws : draws tool β = decide (β = .overall) := by
      rw [Bool.eq_iff_iff, draws_iff, decide_eq_true_iff, hextra]
      exact or_iff_left nofun
    dsimp only
    rw [hdraws]
    by_cases hβ : β = .overall
    · subst hβ
      split
      · rw [held_set_self, hspend]
        rfl
      · rw [held_set_self, hlook]
        rfl
    · rw [decide_eq_false hβ, Bool.and_false, if_neg Bool.false_ne_true]
      split <;> rw [held_set_of_ne s _ (Or.inl hβ)]
  | some γ =>
    have hγ : Budget.overall ≠ γ := (extraOf_ne_overall hextra).symm
    have hdraws : draws tool β = decide (β = .overall ∨ β = γ) := by
      rw [Bool.eq_iff_iff, draws_iff, decide_eq_true_iff, hextra, Option.some_inj, eq_comm (a := γ)]
    dsimp only
    rw [hdraws]
    by_cases hβ : β = γ
    · subst hβ
      rw [decide_eq_true (Or.inr rfl), Bool.and_true]
      split
      · split
        · rw [held_set_self, hspend]
          rfl
        · rw [held_set_self, hlook]
          rfl
      · rw [held_set_self, level_bucket s β identity ht]
        rfl
    · by_cases hoverall : β = .overall
      · subst hoverall
        rw [decide_eq_true (Or.inl rfl), Bool.and_true]
        split
        · split
          · rw [held_set_of_ne _ _ (Or.inl hγ), held_set_self, hspend]
            rfl
          · rw [held_set_of_ne _ _ (Or.inl hγ), held_set_self, hlook]
            rfl
        · rw [held_set_of_ne _ _ (Or.inl hγ), held_set_self, hlook]
          rfl
      · rw [decide_eq_false (not_or.mpr ⟨hoverall, hβ⟩), Bool.and_false, if_neg Bool.false_ne_true]
        split
        · split
          · rw [held_set_of_ne _ _ (Or.inl hβ), held_set_of_ne _ _ (Or.inl hoverall)]
          · rw [held_set_of_ne _ _ (Or.inl hβ), held_set_of_ne _ _ (Or.inl hoverall)]
        · rw [held_set_of_ne _ _ (Or.inl hβ), held_set_of_ne _ _ (Or.inl hoverall)]

/-- the buckets of the others stay as they are -/
theorem check_of_ne (s : Limiter) {identity k : Text} (h : k ≠ identity) (tool : Text) (now : ℚ) (β : Budget) :
    (check L s identity tool now).1 β k = s β k := by
  unfold check
  cases extraOf tool with
  | none =>
    dsimp only
    split <;> exact set_of_ne s _ (Or.inr h)
  | some γ =>
    have htwo : ∀ b b', (s.set .overall identity b).set γ identity b' β k = s β k := fun b b' =>
      (set_of_ne _ b' (Or.inr h)).trans (set_of_ne s b (Or.inr h))
    dsimp only
    split
    · split <;> exact htwo _ _
    · exact htwo _ _

theorem Fresh.set {s : Limiter} {now : ℚ} (h : Fresh s now) (β : Budget) (k : Text) {b : TokenBucket ℚ}
    (hb : b.last ≤ now ∧ 0 ≤ b.tokens) : Fresh (s.set β k b) now := by
  intro γ l b' hb'
  by_cases hsame : γ = β ∧ l = k
  · obtain ⟨rfl, rfl⟩ := hsame
    rw [set_self] at hb'
    obtain rfl := Option.some.inj hb'
    exact hb
  · rw [set_of_ne s b (not_and_or.mp hsame)] at hb'
    exact h γ l b' hb'

theorem Fresh.later {s : Limiter} {now t : ℚ} (h : Fresh s now) (ht : now ≤ t) : Fresh s t :=
  fun β k b hb => ⟨(h β k b hb).1.trans ht, (h β k b hb).2⟩

theorem Fresh.check {s : Limiter} {now : ℚ} (h : Fresh s now) (identity tool : Text) :
    Fresh (RateLimit.check L s identity tool now).1 now := by
  have hlooked : ∀ γ, let b := (RateLimit.bucket L s γ identity now).refill (L.capacity γ) (L.rate γ) now
      b.last ≤ now ∧ 0 ≤ b.tokens := fun γ => ⟨le_refl now, TokenBucket.level_nonneg (capacity_nonneg γ) (rate_nonneg γ)
        (h.bucket γ identity).2 now⟩
  unfold RateLimit.check
  cases extraOf tool with
  | none =>
    dsimp only
    split
    · next hone => exact h.set _ _ ⟨le_refl now, sub_nonneg.mpr hone⟩
    · exact h.set _ _ (hlooked _)
  | some γ =>
    dsimp only
    split
    · next hone =>
      split
      · next hextra => exact (h.set _ _ ⟨le_refl now, sub_nonneg.mpr hone⟩).set _ _ ⟨le_refl now, sub_nonneg.mpr hextra⟩
      · exact (h.set _ _ (hlooked _)).set _ _ (hlooked _)
    · exact (h.set _ _ (hlooked _)).set _ _ (h.bucket γ identity)

/-! ## states that look alike -/

variable (L) in
/-- an identity holds the same from a time on -/
def Alike (k : Text) (now : ℚ) (s s' : Limiter) : Prop := ∀ β t, now ≤ t → held L s β k t = held L s' β k t

theorem Alike.later {k : Text} {now t : ℚ} {s s' : Limiter} (h : Alike L k now s s') (ht : now ≤ t) :
    Alike L k t s s' := fun β u hu => h β u (ht.trans hu)

theorem Alike.check_snd {k : Text} {now : ℚ} {s s' : Limiter} (h : Alike L k now s s') (tool : Text) :
    (check L s k tool now).2 = (check L s' k tool now).2 := by
  rw [RateLimit.check_snd, RateLimit.check_snd]
  congr 1
  funext β
  exact h β now (le_refl now)

/-- a call of anybody keeps states alike -/
theorem Alike.check {k : Text} {now : ℚ} {s s' : Limiter} (h : Alike L k now s s') (hs : Fresh s now)
    (hs' : Fresh s' now) (identity tool : Text) :
    Alike L k now (check L s identity tool now).1 (RateLimit.check L s' identity tool now).1 := by
  intro β t ht
  by_cases hk : k = identity
  · subst hk
    rw [held_check hs k tool ht, held_check hs' k tool ht, spent, spent, h.check_snd tool, h β now (le_refl now), h β t ht]
  · rw [held, held, check_of_ne s hk, check_of_ne s' hk]
    exact h β t ht

/-- another identity's call changes nothing -/
theorem alike_of_ne (s : Limiter) {k identity : Text} (h : k ≠ identity) (tool : Text) (now : ℚ) :
    Alike L k now (check L s identity tool now).1 s := by
  intro β t _
  rw [held, check_of_ne s h]
  rfl

/-- nor does a refused one, for anybody -/
theorem alike_of_refused {s : Limiter} {now : ℚ} (hs : Fresh s now) {identity tool : Text}
    (h : (check L s identity tool now).2.isOk = false) (k : Text) : Alike L k now (check L s identity tool now).1 s := by
  by_cases hk : k = identity
  · subst hk
    intro β t ht
    rw [held_check hs k tool ht, spent, h, Bool.false_and, if_neg Bool.false_ne_true]
  · exact alike_of_ne s hk tool now

/-! ## runs -/

/-- the calls come after a time, in the order of the clock -/
def Clocked (now : ℚ) (calls : List Call) : Prop := (∀ c ∈ calls, now ≤ c.time) ∧ calls.Pairwise fun c d => c.time ≤ d.time

theorem Clocked.tail {now : ℚ} {c : Call} {calls : List Call} (h : Clocked now (c :: calls)) :
    now ≤ c.time ∧ Clocked c.time calls := by
  obtain ⟨hc, hcalls⟩ := List.pairwise_cons.mp h.2
  exact ⟨h.1 c List.mem_cons_self, hc, hcalls⟩

theorem clocked_head {c : Call} {calls : List Call} (h : (c :: calls).Pairwise fun c d => c.time ≤ d.time) :
    Clocked c.time (c :: calls) := by
  refine ⟨fun d hd => ?_, h⟩
  rcases List.mem_cons.mp hd with rfl | hd
  · exact le_refl _
  · exact (List.pairwise_cons.mp h).1 d hd

/-- states alike for everybody give the same answers -/
theorem decisions_congr {calls : List Call} {now : ℚ} {s s' : Limiter} (hclock : Clocked now calls) (hs : Fresh s now)
    (hs' : Fresh s' now) (h : ∀ k, Alike L k now s s') : decisions L s calls = decisions L s' calls := by
  induction calls generalizing now s s' with
  | nil => rfl
  | cons c calls ih =>
    obtain ⟨hnow, hrest⟩ := hclock.tail
    have hs := hs.later hnow
    have hs' := hs'.later hnow
    have hlater := fun k => (h k).later hnow
    rw [decisions, decisions, (hlater c.identity).check_snd]
    congr 1
    exact ih hrest (hs.check _ _) (hs'.check _ _) fun k => (hlater k).check hs hs' _ _

/-- a call that is refused might not have been made -/
theorem decisions_eraseIdx {calls : List Call} {now : ℚ} {s : Limiter} (hclock : Clocked now calls) (hs : Fresh s now)
    {i : ℕ} {message : Text} (h : (decisions L s calls)[i]? = some (.error message)) :
    decisions L s (calls.eraseIdx i) = (decisions L s calls).eraseIdx i := by
  induction calls generalizing now s i with
  | nil => rfl
  | cons c calls ih =>
    obtain ⟨hnow, hrest⟩ := hclock.tail
    have hs := hs.later hnow
    cases i with
    | zero =>
      rw [decisions, List.getElem?_cons_zero] at h
      have hrefused : (check L s c.identity c.tool c.time).2.isOk = false := by
        rw [Option.some.inj h]
        rfl
      rw [List.eraseIdx_cons_zero, decisions, List.eraseIdx_cons_zero]
      exact (decisions_congr hrest (hs.check _ _) hs fun k => alike_of_refused hs hrefused k).symm
    | succ i =>
      rw [decisions, List.getElem?_cons_succ] at h
      rw [List.eraseIdx_cons_succ, decisions, decisions, List.eraseIdx_cons_succ]
      congr 1
      exact ih hrest (hs.check _ _) h

/-- the answers one identity gets -/
def answersOf (L : Limits) (s : Limiter) (calls : List Call) (k : Text) : List (Except Text Unit) :=
  ((calls.zip (decisions L s calls)).filter fun e => e.1.identity == k).map Prod.snd

/-- the calls of others might not have been made -/
theorem answersOf_eq {calls : List Call} {now : ℚ} {s s' : Limiter} (hclock : Clocked now calls) (hs : Fresh s now)
    (hs' : Fresh s' now) {k : Text} (h : Alike L k now s s') :
    answersOf L s calls k = decisions L s' (calls.filter fun c => c.identity == k) := by
  induction calls generalizing now s s' with
  | nil => rfl
  | cons c calls ih =>
    obtain ⟨hnow, hrest⟩ := hclock.tail
    have hs := hs.later hnow
    have hs' := hs'.later hnow
    have h := h.later hnow
    unfold answersOf
    rw [decisions, List.zip_cons_cons, List.filter_cons, List.filter_cons]
    by_cases hk : c.identity = k
    · subst hk
      rw [if_pos (beq_self_eq_true _), if_pos (beq_self_eq_true _), List.map_cons, decisions, h.check_snd]
      congr 1
      exact ih hrest (hs.check _ _) (hs'.check _ _) (h.check hs hs' _ _)
    · have hne : (c.identity == k) = false := beq_eq_false_iff_ne.mpr hk
      rw [if_neg (Bool.eq_false_iff.mp hne), if_neg (Bool.eq_false_iff.mp hne)]
      refine ih hrest (hs.check _ _) hs' fun β t ht => ?_
      exact (alike_of_ne s (Ne.symm hk) c.tool c.time β t ht).trans (h β t ht)

/-! ## windows -/

theorem held_nonneg {s : Limiter} {now : ℚ} (hs : Fresh s now) (β : Budget) (k : Text) (t : ℚ) : 0 ≤ held L s β k t := by
  unfold held
  cases hb : s β k with
  | none => exact capacity_nonneg β
  | some b => exact TokenBucket.level_nonneg (capacity_nonneg β) (rate_nonneg β) (hs β k b hb).2 t

theorem held_le (s : Limiter) (β : Budget) (k : Text) (t : ℚ) : held L s β k t ≤ L.capacity β := by
  unfold held
  cases s β k with
  | none => exact le_refl _
  | some b => exact TokenBucket.level_le _ _ b t

theorem held_le_add (s : Limiter) (β : Budget) (k : Text) {t u : ℚ} (h : t ≤ u) :
    held L s β k u ≤ held L s β k t + (u - t) * L.rate β := by
  unfold held
  cases s β k with
  | none => exact le_add_of_nonneg_right (mul_nonneg (sub_nonneg.mpr h) (rate_nonneg β))
  | some b => exact TokenBucket.level_le_add (rate_nonneg β) h

/-- what an identity holds pays for the call it makes -/
theorem held_check_self {s : Limiter} {now : ℚ} (hs : Fresh s now) (c : Call) (β : Budget) (k : Text) :
    held L (check L s c.identity c.tool now).1 β k now +
      (if c.identity = k ∧ draws c.tool β = true ∧ (check L s c.identity c.tool now).2.isOk = true then 1 else 0) ≤
    held L s β k now := by
  by_cases hk : c.identity = k
  · subst hk
    rw [held_check hs c.identity c.tool (le_refl now), spent]
    by_cases hpaid : (check L s c.identity c.tool now).2.isOk = true ∧ draws c.tool β = true
    · rw [if_pos (Bool.and_eq_true_iff.mpr hpaid), if_pos ⟨rfl, hpaid.2, hpaid.1⟩]
      have hleft : min (L.capacity β) (held L s β c.identity now - 1 + (now - now) * L.rate β) ≤
          held L s β c.identity now - 1 + (now - now) * L.rate β := min_le_right _ _
      linarith
    · rw [if_neg (mt Bool.and_eq_true_iff.mp hpaid), if_neg fun h => hpaid ⟨h.2.2, h.2.1⟩, add_zero]
  · rw [if_neg fun h => hk h.1, add_zero, held, check_of_ne s (Ne.symm hk)]
    exact le_refl _

theorem acceptedIn_cons (s : Limiter) (c : Call) (calls : List Call) (k : Text) (β : Budget) (a b : ℚ) :
    (acceptedIn L s (c :: calls) k β a b).length =
      (acceptedIn L (check L s c.identity c.tool c.time).1 calls k β a b).length +
      if (c.identity = k ∧ draws c.tool β = true ∧ (check L s c.identity c.tool c.time).2.isOk = true) ∧
        a ≤ c.time ∧ c.time ≤ b then 1 else 0 := by
  unfold acceptedIn
  rw [decisions, List.zip_cons_cons, List.filter_cons]
  split
  · next h =>
    simp only [Bool.and_eq_true, beq_iff_eq, decide_eq_true_eq] at h
    rw [if_pos ⟨⟨h.1.1.1.1, h.1.1.1.2, h.2⟩, h.1.1.2, h.1.2⟩, List.map_cons, List.length_cons]
  · next h =>
    simp only [Bool.and_eq_true, beq_iff_eq, decide_eq_true_eq] at h
    rw [if_neg fun hin => h ⟨⟨⟨⟨hin.1.1, hin.1.2.1⟩, hin.2.1⟩, hin.2.2⟩, hin.1.2.2⟩, add_zero]

theorem acceptedIn_of_lt {calls : List Call} {b : ℚ} (h : ∀ c ∈ calls, b < c.time) (s : Limiter) (k : Text) (β : Budget)
    (a : ℚ) : (acceptedIn L s calls k β a b).length = 0 := by
  induction calls generalizing s with
  | nil => rfl
  | cons c calls ih =>
    rw [acceptedIn_cons, ih fun d hd => h d (List.mem_cons_of_mem _ hd), zero_add,
      if_neg fun hin => (h c List.mem_cons_self).not_ge hin.2.2]

/-- what an identity holds, and what comes in, pays for the calls until a time -/
theorem accepted_le_held {calls : List Call} {now b : ℚ} {s : Limiter} (hclock : Clocked now calls) (hs : Fresh s now)
    (hb : now ≤ b) (k : Text) (β : Budget) (a : ℚ) :
    ((acceptedIn L s calls k β a b).length : ℚ) ≤ held L s β k now + (b - now) * L.rate β := by
  have hpotential : 0 ≤ held L s β k now + (b - now) * L.rate β :=
    add_nonneg (held_nonneg hs β k now) (mul_nonneg (sub_nonneg.mpr hb) (rate_nonneg β))
  induction calls generalizing now s with
  | nil => exact hpotential
  | cons c calls ih =>
    obtain ⟨hnow, hrest⟩ := hclock.tail
    have hs := hs.later hnow
    by_cases hin : c.time ≤ b
    · have hpaid := held_check_self (L := L) hs c β k
      have hlater := ih hrest (hs.check (L := L) c.identity c.tool) hin
        (add_nonneg (held_nonneg (hs.check c.identity c.tool) β k c.time)
          (mul_nonneg (sub_nonneg.mpr hin) (rate_nonneg β)))
      have hrefilled := held_le_add (L := L) s β k hnow
      have hcount : ((if (c.identity = k ∧ draws c.tool β = true ∧
          (check L s c.identity c.tool c.time).2.isOk = true) ∧ a ≤ c.time ∧ c.time ≤ b then 1 else 0 : ℕ) : ℚ) ≤
          if c.identity = k ∧ draws c.tool β = true ∧ (check L s c.identity c.tool c.time).2.isOk = true then 1 else 0 := by
        split
        · next h =>
          rw [if_pos h.1, Nat.cast_one]
        · rw [Nat.cast_zero]
          split <;> norm_num
      rw [acceptedIn_cons, Nat.cast_add]
      calc ((acceptedIn L (check L s c.identity c.tool c.time).1 calls k β a b).length : ℚ) + _
          ≤ held L (check L s c.identity c.tool c.time).1 β k c.time + (b - c.time) * L.rate β + _ :=
            add_le_add hlater hcount
        _ ≤ held L s β k c.time + (b - c.time) * L.rate β := by linarith
        _ ≤ held L s β k now + (c.time - now) * L.rate β + (b - c.time) * L.rate β := by linarith
        _ = held L s β k now + (b - now) * L.rate β := by ring
    · rw [acceptedIn_of_lt fun d hd => lt_of_lt_of_le (not_le.mp hin) ((clocked_head hclock.2).1 d hd)]
      exact hpotential

/-- the calls before the window leave at most a full bucket -/
theorem accepted_le {calls : List Call} {now : ℚ} {s : Limiter} (hclock : Clocked now calls) (hs : Fresh s now)
    (k : Text) (β : Budget) {a b : ℚ} (hab : a ≤ b) :
    ((acceptedIn L s calls k β a b).length : ℚ) ≤ L.capacity β + (b - a) * L.rate β := by
  have hcapacity : 0 ≤ L.capacity β + (b - a) * L.rate β :=
    add_nonneg (capacity_nonneg β) (mul_nonneg (sub_nonneg.mpr hab) (rate_nonneg β))
  induction calls generalizing now s with
  | nil => exact hcapacity
  | cons c calls ih =>
    obtain ⟨hnow, hrest⟩ := hclock.tail
    have hs := hs.later hnow
    by_cases hbefore : c.time < a
    · rw [acceptedIn_cons, if_neg fun h => hbefore.not_ge h.2.1, add_zero]
      exact ih hrest (hs.check c.identity c.tool)
    · have hstart := not_lt.mp hbefore
      have hfrom := clocked_head hclock.2
      by_cases hin : c.time ≤ b
      · have hpaid := accepted_le_held (L := L) hfrom hs hin k β a
        have hfull := held_le (L := L) s β k c.time
        have hshorter : (b - c.time) * L.rate β ≤ (b - a) * L.rate β :=
          mul_le_mul_of_nonneg_right (by linarith) (rate_nonneg β)
        linarith
      · rw [acceptedIn_of_lt fun d hd => lt_of_lt_of_le (not_le.mp hin) (hfrom.1 d hd)]
        exact hcapacity

/-! ## the budget two tools share -/

/-- an upload that is finalised, as a text that is submitted -/
def onSubmit (c : Call) : Call :=
  if c.tool = "brain_upload_finalize".toList then ⟨c.identity, "brain_submit".toList, c.time⟩ else c

theorem check_onSubmit (s : Limiter) (identity : Text) (now : ℚ) :
    (check L s identity "brain_submit".toList now).1 = (check L s identity "brain_upload_finalize".toList now).1 ∧
    (check L s identity "brain_submit".toList now).2.isOk =
      (check L s identity "brain_upload_finalize".toList now).2.isOk := by
  have hextra : extraOf "brain_submit".toList = extraOf "brain_upload_finalize".toList := by decide
  unfold check
  rw [hextra]
  cases extraOf "brain_upload_finalize".toList with
  | none => exact ⟨rfl, rfl⟩
  | some β =>
    dsimp only
    split
    · split <;> exact ⟨rfl, rfl⟩
    · exact ⟨rfl, rfl⟩

theorem decisions_onSubmit (s : Limiter) (calls : List Call) :
    (decisions L s (calls.map onSubmit)).map Except.isOk = (decisions L s calls).map Except.isOk := by
  induction calls generalizing s with
  | nil => rfl
  | cons c calls ih =>
    rw [List.map_cons, decisions, decisions, List.map_cons, List.map_cons]
    by_cases h : c.tool = "brain_upload_finalize".toList
    · obtain ⟨hstate, hanswer⟩ := check_onSubmit (L := L) s c.identity c.time
      have hcall : onSubmit c = ⟨c.identity, "brain_submit".toList, c.time⟩ := if_pos h
      rw [hcall, h, hanswer, hstate, ih]
    · have hcall : onSubmit c = c := if_neg h
      rw [hcall, ih]

/-! ## every run -/

theorem fresh_empty (now : ℚ) : Fresh Limiter.empty now := fun _ _ _ h => nomatch h

theorem exists_clocked {calls : List Call} (h : calls.Pairwise fun c d => c.time ≤ d.time) : ∃ now, Clocked now calls := by
  cases calls with
  | nil => exact ⟨0, fun _ hc => (nomatch hc), h⟩
  | cons c calls => exact ⟨c.time, clocked_head h⟩

/-- on a clock that never runs backwards: what one identity draws on one budget in a window of `T` seconds is
bounded, submitting and finalising draw on one budget, and neither a call that is refused nor a call of another
identity changes an answer -/
theorem rate_limited (L : Limits) (calls : List Call) (hclock : calls.Pairwise fun c d => c.time ≤ d.time) :
    (∀ k β a T, 0 ≤ T →
      ((acceptedIn L Limiter.empty calls k β a (a + T)).length : ℚ) ≤ L.perMin β * (1 + T / 60)) ∧
    ((∀ β, draws "brain_submit".toList β = draws "brain_upload_finalize".toList β) ∧
      (decisions L Limiter.empty (calls.map onSubmit)).map Except.isOk =
        (decisions L Limiter.empty calls).map Except.isOk) ∧
    (∀ i message, (decisions L Limiter.empty calls)[i]? = some (.error message) →
      decisions L Limiter.empty (calls.eraseIdx i) = (decisions L Limiter.empty calls).eraseIdx i) ∧
    ∀ k, answersOf L Limiter.empty calls k = decisions L Limiter.empty (calls.filter fun c => c.identity == k) := by
  obtain ⟨now, hclocked⟩ := exists_clocked hclock
  have hfresh := fresh_empty now
  refine ⟨fun k β a T hT => ?_, ⟨fun β => ?_, decisions_onSubmit _ calls⟩, fun i message h => ?_, fun k => ?_⟩
  · calc ((acceptedIn L Limiter.empty calls k β a (a + T)).length : ℚ)
        ≤ L.capacity β + (a + T - a) * L.rate β := accepted_le hclocked hfresh k β (le_add_of_nonneg_right hT)
      _ = L.perMin β * (1 + T / 60) := by
        unfold Limits.rate Limits.capacity
        ring
  · cases β <;> decide
  · exact decisions_eraseIdx hclocked hfresh h
  · exact answersOf_eq hclocked hfresh hfresh fun β t _ => rfl

/-- two uploads of one identity, and one of another -/
def uploads : List Call :=
  [⟨"a".toList, "brain_submit".toList, 0⟩, ⟨"a".toList, "brain_upload_finalize".toList, 1⟩,
    ⟨"b".toList, "brain_submit".toList, 2⟩]

theorem rate_limited_uploads :
    ((acceptedIn ⟨120, 10, 3, 1⟩ Limiter.empty uploads "a".toList .capture 0 (0 + 2)).length : ℚ) ≤
      (1 : ℕ) * (1 + 2 / 60) :=
  (rate_limited ⟨120, 10, 3, 1⟩ uploads (by
    unfold uploads
    simp)).1 "a".toList .capture 0 2 (by norm_num)

end

end RateLimit
