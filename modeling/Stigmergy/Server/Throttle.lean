import Mathlib.Algebra.Order.Field.Rat
import Mathlib.Tactic.Linarith
import Stigmergy.Lib.Lru
import Stigmergy.Lib.Text

/-!
# The throttle on failed authentication

`AuthFailureThrottle` of `server/ratelimit.py` and its use by the HTTP transport, over any run of calls by a clock
that does not go back: the failures of each address in a window, for the addresses that failed last.

* `blocked`, `failed`   the two calls; `attempt`, one request at the door;
* `remembered`          the failures of an address, back to where it was pushed out by others;
* `answers_eq`          every answer is the count of what is remembered in the window;
* `guesses_le`          an address that is not pushed out fails at most `failures` times in a window.
-/

set_option linter.unusedSectionVars false

namespace Throttle

def AUTH_FAILURES : ℕ := 10
def AUTH_FAILURE_WINDOW_SECONDS : ℚ := 15 * 60
def MAX_TRACKED_ADDRESSES : ℕ := 10000

structure Settings where
  failures : ℕ
  window : ℚ

/-- `AuthFailureThrottle()` -/
def Settings.default : Settings := ⟨AUTH_FAILURES, AUTH_FAILURE_WINDOW_SECONDS⟩

/-- the times of the failures of each address, oldest first -/
abbrev Seen := List (Text × List ℚ)

section
variable (S : Settings)

/-- `_recent`: the stamps from the first that is in the window -/
def recent (now : ℚ) (stamps : List ℚ) : List ℚ := stamps.dropWhile fun stamp => S.window < now - stamp

def recentOf (seen : Seen) (address : Text) (now : ℚ) : List ℚ := recent S now ((seen.lookup address).getD [])

def blocked (seen : Seen) (address : Text) (now : ℚ) : Seen × Bool :=
  (seen.map fun e => if e.1 = address then (e.1, recent S now e.2) else e,
    S.failures ≤ (recentOf S seen address now).length)

def failed (seen : Seen) (address : Text) (now : ℚ) : Seen :=
  Lru.touch MAX_TRACKED_ADDRESSES seen address (recentOf S seen address now ++ [now])

inductive Call where
  | blocked (address : Text) (time : ℚ)
  | failed (address : Text) (time : ℚ)

def Call.time : Call → ℚ
  | .blocked _ t => t
  | .failed _ t => t

/-- the answers of a run, one for each time `blocked` is called -/
def answers : Seen → List Call → List Bool
  | _, [] => []
  | seen, .blocked address t :: calls => (blocked S seen address t).2 :: answers (blocked S seen address t).1 calls
  | seen, .failed address t :: calls => answers (failed S seen address t) calls

/-! ## What is remembered -/

/-- failures, newest first -/
abbrev History := List (Text × ℚ)

def History.pushedOut (history : History) (address : Text) : Bool :=
  Lru.pushedOut MAX_TRACKED_ADDRESSES address (history.map Prod.fst)

/-- the failures of an address, newest first, back to where it was pushed out -/
def remembered (address : Text) : History → List ℚ
  | [] => []
  | f :: history =>
    if f.1 = address then f.2 :: if History.pushedOut history address then [] else remembered address history
    else remembered address history

/-- what is still remembered of an address -/
def current (history : History) (address : Text) : List ℚ :=
  if history.pushedOut address then [] else remembered address history

def inWindow (now stamp : ℚ) : Bool := now - stamp ≤ S.window

/-- as many failures as are allowed are remembered in the window -/
def overLimit (history : History) (address : Text) (now : ℚ) : Bool :=
  S.failures ≤ ((current history address).filter (inWindow S now)).length

/-- the answers by what is remembered -/
def expected : History → List Call → List Bool
  | _, [] => []
  | history, .blocked address t :: calls => overLimit S history address t :: expected history calls
  | history, .failed address t :: calls => expected ((address, t) :: history) calls

end

section
variable {S : Settings}

theorem remembered_of_notMem {address : Text} {history : History} (h : address ∉ history.map Prod.fst) :
    remembered address history = [] := by
  induction history with
  | nil => rfl
  | cons f history ih =>
    rw [List.map_cons, List.mem_cons, not_or] at h
    unfold remembered
    rw [if_neg (Ne.symm h.1), ih h.2]

theorem remembered_cons_self (address : Text) (t : ℚ) (history : History) :
    remembered address ((address, t) :: history) = t :: current history address := by
  unfold remembered current
  rw [if_pos rfl]

theorem remembered_cons_ne {address other : Text} (h : other ≠ address) (t : ℚ) (history : History) :
    remembered address ((other, t) :: history) = remembered address history := by
  conv_lhs => unfold remembered
  rw [if_neg h]

theorem recent_eq_filter {now : ℚ} {stamps : List ℚ} (h : stamps.Pairwise (· ≤ ·)) :
    recent S now stamps = stamps.filter (inWindow S now) := by
  induction stamps with
  | nil => rfl
  | cons s stamps ih =>
    obtain ⟨hs, hrest⟩ := List.pairwise_cons.mp h
    unfold recent
    rw [List.dropWhile_cons]
    by_cases hout : S.window < now - s
    · have hnot : ¬inWindow S now s = true := fun hin => absurd (of_decide_eq_true hin) (not_le.mpr hout)
      rw [if_pos (decide_eq_true hout), List.filter_cons_of_neg hnot]
      exact ih hrest
    · have hin : inWindow S now s = true := decide_eq_true (not_lt.mp hout)
      rw [if_neg (by simpa using hout), List.filter_cons_of_pos hin]
      congr 1
      refine (List.filter_eq_self.mpr fun r hr => decide_eq_true ?_).symm
      linarith [hs r hr, not_lt.mp hout]

/-- a later window holds nothing that an earlier one did not -/
theorem filter_inWindow {now later : ℚ} (h : now ≤ later) (stamps : List ℚ) :
    (stamps.filter (inWindow S now)).filter (inWindow S later) = stamps.filter (inWindow S later) := by
  rw [List.filter_filter]
  refine List.filter_congr fun s _ => ?_
  cases hl : inWindow S later s with
  | false => rfl
  | true =>
    have hle := of_decide_eq_true hl
    show (true && inWindow S now s) = true
    rw [Bool.true_and]
    exact decide_eq_true (by linarith)

/-! ## Every answer -/

variable (S) in
/-- the stamps kept are what is remembered, as far as a later window can tell -/
structure Keeps (history : History) (seen : Seen) (now : ℚ) : Prop where
  recent : Lru.Recent MAX_TRACKED_ADDRESSES (history.map Prod.fst) seen
  ordered : ∀ e ∈ seen, e.2.Pairwise (· ≤ ·) ∧ ∀ s ∈ e.2, s ≤ now
  stamps : ∀ e ∈ seen, ∀ later, now ≤ later →
    e.2.filter (inWindow S later) = (remembered e.1 history).reverse.filter (inWindow S later)

theorem Keeps.later {history : History} {seen : Seen} {now later : ℚ} (h : Keeps S history seen now)
    (hle : now ≤ later) : Keeps S history seen later :=
  ⟨h.recent, fun e he => ⟨(h.ordered e he).1, fun s hs => ((h.ordered e he).2 s hs).trans hle⟩,
    fun e he l hl => h.stamps e he l (hle.trans hl)⟩

/-- what is recent of an address is what is remembered of it in the window -/
theorem Keeps.recentOf {history : History} {seen : Seen} {now : ℚ} (h : Keeps S history seen now) (address : Text) :
    recentOf S seen address now = (current history address).reverse.filter (inWindow S now) := by
  unfold Throttle.recentOf
  cases hlookup : seen.lookup address with
  | some stamps =>
    obtain ⟨l₁, l₂, rfl, -⟩ := List.lookup_eq_some_iff.mp hlookup
    have hmem : (address, stamps) ∈ l₁ ++ (address, stamps) :: l₂ := List.mem_append_right _ List.mem_cons_self
    obtain ⟨-, hin⟩ := (h.recent.mem_iff address).mp (List.mem_map.mpr ⟨_, hmem, rfl⟩)
    have hcurrent : current history address = remembered address history := by
      unfold current
      rw [show history.pushedOut address = false from hin]
      rfl
    rw [hcurrent, ← h.stamps _ hmem now le_rfl]
    exact recent_eq_filter (h.ordered _ hmem).1
  | none =>
    have hnot : address ∉ Lru.keys seen := fun hk => by
      obtain ⟨e, he, hkey⟩ := List.mem_map.mp hk
      exact absurd (List.lookup_eq_none_iff.mp hlookup e he) (by simp [hkey])
    have hcurrent : current history address = [] := by
      by_cases hfailed : address ∈ history.map Prod.fst
      · unfold current
        have hout : history.pushedOut address = true := by
          by_contra hin
          exact hnot ((h.recent.mem_iff address).mpr ⟨hfailed, Bool.eq_false_of_not_eq_true hin⟩)
        rw [hout]
        rfl
      · unfold current
        rw [remembered_of_notMem hfailed, ite_self]
    rw [hcurrent]
    rfl

theorem Keeps.blocked {history : History} {seen : Seen} {now : ℚ} (h : Keeps S history seen now) (address : Text) :
    Keeps S history (blocked S seen address now).1 now ∧
      (Throttle.blocked S seen address now).2 = overLimit S history address now := by
  refine ⟨⟨h.recent.of_keys ?_, fun e he => ?_, fun e he later hle => ?_⟩, ?_⟩
  · show (seen.map _).map Prod.fst = seen.map Prod.fst
    rw [List.map_map]
    refine List.map_congr_left fun e _ => ?_
    show (if e.1 = address then (e.1, Throttle.recent S now e.2) else e).1 = e.1
    split
    · rfl
    · rfl
  · obtain ⟨old, hold, rfl⟩ := List.mem_map.mp he
    split
    · have hsub : (Throttle.recent S now old.2).Sublist old.2 := List.dropWhile_sublist _
      exact ⟨(h.ordered old hold).1.sublist hsub, fun s hs => (h.ordered old hold).2 s (hsub.subset hs)⟩
    · exact h.ordered old hold
  · obtain ⟨old, hold, rfl⟩ := List.mem_map.mp he
    split
    · show (Throttle.recent S now old.2).filter _ = (remembered old.1 history).reverse.filter _
      rw [recent_eq_filter (h.ordered old hold).1, filter_inWindow hle]
      exact h.stamps old hold later hle
    · exact h.stamps old hold later hle
  · show decide (S.failures ≤ (Throttle.recentOf S seen address now).length) = _
    unfold overLimit
    rw [h.recentOf, List.filter_reverse, List.length_reverse]

theorem mem_touch {max : ℕ} {d : Seen} {k : Text} {b : List ℚ} {e : Text × List ℚ} (h : e ∈ Lru.touch max d k b) :
    e = (k, b) ∨ e ∈ d ∧ e.1 ≠ k := by
  rcases List.mem_append.mp (List.mem_of_mem_drop h) with hold | hnew
  · obtain ⟨hmem, hne⟩ := List.mem_filter.mp hold
    exact Or.inr ⟨hmem, of_decide_eq_true hne⟩
  · exact Or.inl (List.mem_singleton.mp hnew)

theorem Keeps.failed {history : History} {seen : Seen} {now : ℚ} (h : Keeps S history seen now) (address : Text) :
    Keeps S ((address, now) :: history) (failed S seen address now) now := by
  have hrecent := h.recentOf address
  refine ⟨h.recent.touch (by decide) address _, fun e he => ?_, fun e he later hle => ?_⟩
  · rcases mem_touch he with rfl | ⟨hold, -⟩
    · have hbefore : (Throttle.recentOf S seen address now).Pairwise (· ≤ ·) ∧
          ∀ s ∈ Throttle.recentOf S seen address now, s ≤ now := by
        unfold Throttle.recentOf
        cases hlookup : seen.lookup address with
        | none => exact ⟨List.Pairwise.nil, fun s hs => absurd hs List.not_mem_nil⟩
        | some stamps =>
          obtain ⟨l₁, l₂, rfl, -⟩ := List.lookup_eq_some_iff.mp hlookup
          have hmem : (address, stamps) ∈ l₁ ++ (address, stamps) :: l₂ := List.mem_append_right _ List.mem_cons_self
          have hsub : (Throttle.recent S now stamps).Sublist stamps := List.dropWhile_sublist _
          exact ⟨(h.ordered _ hmem).1.sublist hsub, fun s hs => (h.ordered _ hmem).2 s (hsub.subset hs)⟩
      refine ⟨List.pairwise_append.mpr ⟨hbefore.1, List.pairwise_singleton _ _, fun a ha b hb => ?_⟩, fun s hs => ?_⟩
      · rw [List.mem_singleton.mp hb]
        exact hbefore.2 a ha
      · rcases List.mem_append.mp hs with hs | hs
        · exact hbefore.2 s hs
        · exact (List.mem_singleton.mp hs).le
    · exact h.ordered e hold
  · rcases mem_touch he with rfl | ⟨hold, hne⟩
    · show (Throttle.recentOf S seen address now ++ [now]).filter _ = _
      rw [remembered_cons_self, List.reverse_cons, List.filter_append, List.filter_append, hrecent,
        filter_inWindow hle]
    · rw [remembered_cons_ne (Ne.symm hne)]
      exact h.stamps e hold later hle

theorem Keeps.nil (now : ℚ) : Keeps S [] [] now :=
  ⟨Lru.Recent.nil _, fun _ he => absurd he List.not_mem_nil, fun _ he => absurd he List.not_mem_nil⟩

/-- the calls come by a clock that does not go back -/
def InOrder (now : ℚ) (calls : List Call) : Prop := (now :: calls.map Call.time).Pairwise (· ≤ ·)

theorem answers_of_keeps {history : History} {seen : Seen} {now : ℚ} (h : Keeps S history seen now) {calls : List Call}
    (horder : InOrder now calls) : answers S seen calls = expected S history calls := by
  induction calls generalizing history seen now with
  | nil => rfl
  | cons call calls ih =>
    obtain ⟨hfirst, hrest⟩ := List.pairwise_cons.mp horder
    cases call with
    | blocked address t =>
      obtain ⟨hkeeps, hanswer⟩ := (h.later (hfirst t List.mem_cons_self)).blocked address
      unfold answers expected
      rw [hanswer, ih hkeeps hrest]
    | failed address t =>
      unfold answers expected
      exact ih ((h.later (hfirst t List.mem_cons_self)).failed address) hrest

/-- every answer counts the failures in the window, those of an address back to where as many others as are tracked
failed after it -/
theorem answers_eq {calls : List Call} (now : ℚ) (horder : InOrder now calls) :
    answers S [] calls = expected S [] calls :=
  answers_of_keeps (Keeps.nil now) horder

end

/-- ten failures of one address in a minute, and one of another -/
def tenFailures : List Call :=
  .failed "203.0.113.9".toList 0 ::
    ((List.range 10).map fun i => .failed "198.51.100.7".toList (6 * i)) ++
    [.blocked "198.51.100.7".toList 60, .blocked "203.0.113.9".toList 60, .blocked "198.51.100.7".toList 901]

theorem answers_eq_tenFailures :
    answers Settings.default [] tenFailures = expected Settings.default [] tenFailures :=
  answers_eq 0 (by unfold InOrder; decide +kernel)

example : answers Settings.default [] tenFailures = [true, false, false] := by decide +kernel

section
variable {S : Settings}

/-! ## Guesses at the door -/

inductive Outcome where
  | passed | refused | throttled
deriving DecidableEq

/-- a request with a token, valid or not -/
structure Attempt where
  address : Text
  valid : Bool
  time : ℚ

variable (S) in
/-- a valid token always passes; only failures count -/
def attempt (seen : Seen) (r : Attempt) : Seen × Outcome :=
  if r.valid then (seen, .passed)
  else
    let asked := blocked S seen r.address r.time
    if asked.2 then (asked.1, .throttled) else (failed S asked.1 r.address r.time, .refused)

variable (S) in
/-- the requests of a run that were refused as unauthorized -/
def refusals : Seen → List Attempt → History
  | _, [] => []
  | seen, r :: rs =>
    if (attempt S seen r).2 = .refused then (r.address, r.time) :: refusals (attempt S seen r).1 rs
    else refusals (attempt S seen r).1 rs

theorem refusals_passed {seen : Seen} {r : Attempt} {rs : List Attempt} (h : r.valid = true) :
    refusals S seen (r :: rs) = refusals S seen rs := by
  have hattempt : attempt S seen r = (seen, .passed) := if_pos h
  conv_lhs => unfold refusals
  rw [hattempt, if_neg (fun h => Outcome.noConfusion h)]

theorem refusals_throttled {seen : Seen} {r : Attempt} {rs : List Attempt} (h : ¬r.valid = true)
    (hblocked : (blocked S seen r.address r.time).2 = true) :
    refusals S seen (r :: rs) = refusals S (blocked S seen r.address r.time).1 rs := by
  have hattempt : attempt S seen r = ((blocked S seen r.address r.time).1, .throttled) :=
    (if_neg h).trans (if_pos hblocked)
  conv_lhs => unfold refusals
  rw [hattempt, if_neg (fun h => Outcome.noConfusion h)]

theorem refusals_refused {seen : Seen} {r : Attempt} {rs : List Attempt} (h : ¬r.valid = true)
    (hblocked : (blocked S seen r.address r.time).2 = false) : refusals S seen (r :: rs) =
      (r.address, r.time) :: refusals S (failed S (blocked S seen r.address r.time).1 r.address r.time) rs := by
  have hattempt : attempt S seen r = (failed S (blocked S seen r.address r.time).1 r.address r.time, .refused) :=
    (if_neg h).trans (if_neg (by rw [hblocked]; exact Bool.false_ne_true))
  conv_lhs => unfold refusals
  rw [hattempt, if_pos rfl]

variable (S) in
/-- the failures of an address from a time on, as long as the window -/
def guesses (address : Text) (start : ℚ) (history : History) : ℕ :=
  (history.filter fun f => f.1 = address ∧ start ≤ f.2 ∧ f.2 ≤ start + S.window).length

theorem guesses_cons (address : Text) (start : ℚ) (f : Text × ℚ) (history : History) :
    guesses S address start (f :: history) =
      (if f.1 = address ∧ start ≤ f.2 ∧ f.2 ≤ start + S.window then 1 else 0) + guesses S address start history := by
  unfold guesses
  rw [List.filter_cons]
  by_cases h : f.1 = address ∧ start ≤ f.2 ∧ f.2 ≤ start + S.window
  · rw [if_pos (decide_eq_true h), if_pos h, List.length_cons, Nat.add_comm]
  · rw [if_neg (by simpa using h), if_neg h, Nat.zero_add]

/-- fewer others than are tracked push nobody out -/
theorem not_pushedOut {history : History} {address : Text} {others : List Text}
    (hothers : ∀ f ∈ history, f.1 = address ∨ f.1 ∈ others) (hfew : others.length < MAX_TRACKED_ADDRESSES) :
    history.pushedOut address = false := by
  have hsub : (firsts (Lru.since address (history.map Prod.fst))).Subperm others := by
    refine List.subperm_of_subset (nodup_firsts _) fun a ha => ?_
    have hmem := mem_firsts.mp ha
    obtain ⟨f, hf, rfl⟩ := List.mem_map.mp ((List.takeWhile_sublist _).subset hmem)
    have hne := List.mem_takeWhile_imp hmem
    exact (hothers f hf).resolve_left (of_decide_eq_true hne)
  have hlt := lt_of_le_of_lt hsub.length_le hfew
  unfold History.pushedOut Lru.pushedOut
  rw [decide_eq_false_iff_not, Nat.not_le]
  exact hlt

theorem remembered_eq {history : History} {address : Text} {others : List Text}
    (hothers : ∀ f ∈ history, f.1 = address ∨ f.1 ∈ others) (hfew : others.length < MAX_TRACKED_ADDRESSES) :
    remembered address history = (history.filter fun f => f.1 = address).map Prod.snd := by
  induction history with
  | nil => rfl
  | cons f history ih =>
    have hrest : ∀ g ∈ history, g.1 = address ∨ g.1 ∈ others := fun g hg => hothers g (List.mem_cons_of_mem f hg)
    by_cases h : f.1 = address
    · obtain ⟨other, t⟩ := f
      obtain rfl : other = address := h
      rw [remembered_cons_self, List.filter_cons, if_pos (by simp), List.map_cons, ← ih hrest]
      unfold current
      rw [not_pushedOut hrest hfew]
      rfl
    · obtain ⟨other, t⟩ := f
      rw [remembered_cons_ne h, List.filter_cons_of_neg (by simpa using h), ih hrest]

/-- an address that may still guess has not made all its guesses in any window that has not ended -/
theorem guesses_lt {history : History} {address : Text} {others : List Text} {now : ℚ} (start : ℚ)
    (hothers : ∀ f ∈ history, f.1 = address ∨ f.1 ∈ others) (hfew : others.length < MAX_TRACKED_ADDRESSES)
    (hend : now ≤ start + S.window) (hopen : overLimit S history address now = false) :
    guesses S address start history < S.failures := by
  have hcount := Nat.not_le.mp (of_decide_eq_false hopen)
  have hcurrent : current history address = (history.filter fun f => f.1 = address).map Prod.snd := by
    unfold current
    rw [not_pushedOut hothers hfew, ← remembered_eq hothers hfew]
    rfl
  rw [hcurrent, List.filter_map, List.length_map, List.filter_filter] at hcount
  refine lt_of_le_of_lt ?_ hcount
  refine (List.monotone_filter_right history fun f hf => ?_).length_le
  obtain ⟨haddress, hstart, -⟩ := of_decide_eq_true hf
  rw [Bool.and_eq_true]
  refine ⟨decide_eq_true ?_, decide_eq_true haddress⟩
  show now - f.2 ≤ S.window
  linarith

variable (S) in
theorem guesses_refusals {history : History} {seen : Seen} {now : ℚ} {address : Text} {others : List Text}
    {attempts : List Attempt} (start : ℚ) (h : Keeps S history seen now)
    (horder : (now :: attempts.map Attempt.time).Pairwise (· ≤ ·))
    (hhistory : ∀ f ∈ history, f.1 = address ∨ f.1 ∈ others)
    (hattempts : ∀ r ∈ attempts, r.address = address ∨ r.address ∈ others)
    (hfew : others.length < MAX_TRACKED_ADDRESSES) (hle : guesses S address start history ≤ S.failures) :
    guesses S address start history + guesses S address start (refusals S seen attempts) ≤ S.failures := by
  induction attempts generalizing history seen now with
  | nil => exact hle
  | cons r rs ih =>
    obtain ⟨hfirst, hrest⟩ := List.pairwise_cons.mp horder
    have hnow := h.later (hfirst r.time List.mem_cons_self)
    have hrs : ∀ r ∈ rs, r.address = address ∨ r.address ∈ others := fun q hq =>
      hattempts q (List.mem_cons_of_mem r hq)
    obtain ⟨hkeeps, hanswer⟩ := hnow.blocked r.address
    by_cases hvalid : r.valid = true
    · rw [refusals_passed hvalid]
      exact ih hnow hrest hhistory hrs hle
    · cases hblocked : (blocked S seen r.address r.time).2 with
      | true =>
        rw [refusals_throttled hvalid hblocked]
        exact ih hkeeps hrest hhistory hrs hle
      | false =>
        have hopen : overLimit S history r.address r.time = false := hanswer.symm.trans hblocked
        have hmore : ∀ f ∈ (r.address, r.time) :: history, f.1 = address ∨ f.1 ∈ others := fun f hf => by
          rcases List.mem_cons.mp hf with rfl | hf
          · exact hattempts r List.mem_cons_self
          · exact hhistory f hf
        have hle' : guesses S address start ((r.address, r.time) :: history) ≤ S.failures := by
          rw [guesses_cons]
          split
          · next hin =>
            obtain ⟨haddress, -, hend⟩ := hin
            have hlt := guesses_lt start hhistory hfew hend (haddress ▸ hopen)
            omega
          · omega
        have hstep := ih (hkeeps.failed r.address) hrest hmore hrs hle'
        rw [guesses_cons] at hstep
        rw [refusals_refused hvalid hblocked, guesses_cons]
        omega

end

end Throttle
