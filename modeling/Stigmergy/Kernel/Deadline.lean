import Mathlib.Algebra.Order.Ring.Rat
import Mathlib.Tactic.Linarith
import Mathlib.Tactic.Ring
import Stigmergy.Lib.Runs

/-!
# Nested deadlines

`hard_deadline` of `kernel/deadline.py`: one timer and one handler of `SIGALRM` for all open blocks.  A block that
is entered takes both over, and puts back what it found when its time is up and when it is left.

* `Handler`          what the signal calls, with what `expired` closes over;
* `step`             what the program and the clock do;
* `Covered`          every open block has had its error raised or an alarm in time;
* `Timely`           what a block puts back has not run out;
* `deadlines_kept`   in a run of timely steps a block that is left leaves the blocks around it covered;
* `not_deadlines_kept`   an alarm that runs late in an inner block takes the outer one with it.
-/

set_option linter.unusedSectionVars false

namespace Deadline

/-- what `SIGALRM` calls: what was there at the start, or `expired` of a block -/
inductive Handler where
  | default
  | expired (id : ℕ) (previousHandler : Handler) (previousDelay started : ℚ) (previousIsEarlier : Bool)
deriving DecidableEq

/-- an open block; its budget is used up at `deadline` -/
structure Block where
  id : ℕ
  deadline : ℚ
  previousHandler : Handler
  previousDelay : ℚ
  started : ℚ
  previousIsEarlier : Bool
deriving DecidableEq

def Block.expired (b : Block) : Handler :=
  .expired b.id b.previousHandler b.previousDelay b.started b.previousIsEarlier

/-- the timer goes off at `alarm`, and its handler runs then or later; `blocks` are open, the innermost first;
`raised` are the blocks whose errors have been raised, and `raising` the one on its way; `strayed` says that the
innermost block has seen the error of a block around it -/
structure State where
  now : ℚ
  alarm : Option ℚ
  handler : Handler
  blocks : List Block
  raised : List ℕ
  raising : Option ℕ
  strayed : Bool
  next : ℕ
deriving DecidableEq

/-- the timer has gone off and its handler has not run -/
def State.due (s : State) : Bool := s.alarm.any fun t => t ≤ s.now

/-- `restore_previous` -/
def restorePrevious (previousHandler : Handler) (previousDelay started : ℚ) (s : State) : State :=
  let s := { s with handler := previousHandler }
  if previousDelay ≤ 0 then s
  else
    let remaining := previousDelay - (s.now - started)
    if 0 < remaining then { s with alarm := some (s.now + remaining) } else s

/-- `raise error_factory()` of a block -/
def raise (id : ℕ) (s : State) : State :=
  { s with
    raised := id :: s.raised
    raising := some id
    strayed := s.strayed || s.blocks.head?.any fun b => b.id != id }

/-- `expired`; a previous handler that can be called raises, and nothing after it is done -/
def run : Handler → State → State
  | .default, s => s
  | .expired id previousHandler previousDelay started previousIsEarlier, s =>
    if previousIsEarlier && previousHandler != .default then run previousHandler s
    else raise id (restorePrevious previousHandler previousDelay started s)

/-- time passes; a block is entered; the handler runs; an error is caught; the innermost block is left, with an
error or without -/
inductive Action where
  | wait (time : ℚ)
  | enter (seconds : ℚ)
  | handle
  | except
  | exit
deriving DecidableEq

def step (s : State) : Action → Option State
  | .wait time => if time < 0 then none else some { s with now := s.now + time }
  | .enter seconds =>
    -- an alarm that is due runs its handler first, before `signal.signal` changes it
    if s.raising.isSome || s.due then none
    else if seconds ≤ 0 then some { s with raising := some s.next, next := s.next + 1 }
    else
      let previousDelay := match s.alarm with
        | none => 0
        | some t => t - s.now
      let previousIsEarlier := 0 < previousDelay && previousDelay ≤ seconds
      let effectiveSeconds := if previousIsEarlier then previousDelay else seconds
      let b : Block := ⟨s.next, s.now + seconds, s.handler, previousDelay, s.now, previousIsEarlier⟩
      some { s with
        alarm := some (s.now + effectiveSeconds)
        handler := b.expired
        blocks := b :: s.blocks
        strayed := false
        next := s.next + 1 }
  | .handle => if s.due then some (run s.handler { s with alarm := none }) else none
  | .except => if s.raising.isSome then some { s with raising := none } else none
  | .exit =>
    match s.blocks with
    | [] => none
    | b :: rest =>
      -- an alarm that is due runs its handler in the `finally`, and its error ends that
      let left := if s.due then run s.handler { s with alarm := none }
        else restorePrevious b.previousHandler b.previousDelay b.started { s with alarm := none }
      some { left with blocks := rest, strayed := false }

/-- a process without blocks -/
def start (now : ℚ) : State := ⟨now, none, .default, [], [], none, false, 0⟩

/-! ## what is claimed of a run, and of its steps -/

/-- the error of every open block has been raised, or an alarm is set for its remaining time or less, and at once
when none remains -/
def Covered (s : State) : Prop :=
  ∀ b ∈ s.blocks, b.id ∈ s.raised ∨ ∃ t, s.alarm = some t ∧ t ≤ max b.deadline s.now

/-- of the time a block has saved for the blocks `rest` around it some remains, or all their errors have been
raised -/
def Timely (s : State) (b : Block) (rest : List Block) : Prop :=
  (0 < b.previousDelay ∧ s.now < b.started + b.previousDelay) ∨ ∀ c ∈ rest, c.id ∈ s.raised

/-- the block whose error a handler raises -/
def raiser : Handler → Option ℕ
  | .default => none
  | .expired id previousHandler _ _ previousIsEarlier =>
    if previousIsEarlier && previousHandler != .default then raiser previousHandler else some id

/-- where the handler runs as a block is left: the blocks between it and the one whose error is raised have had
theirs, or have an alarm in time -/
def Between (s : State) (c : Block) (between : List Block) : Prop :=
  ∀ d ∈ between, d.id ∈ s.raised ∨ ((0 < c.previousDelay ∧ s.now < c.started + c.previousDelay) ∧
    c.started + c.previousDelay ≤ d.deadline)

/-- the saved alarm is put back in time; and no block is entered in one that has lost its alarm to the error of a
block around it -/
def InTime (s : State) : Action → Prop
  | .wait _ => True
  | .enter _ => s.strayed = true → Covered s
  | .handle => ∀ b rest, s.blocks = b :: rest → raiser s.handler = some b.id → Timely s b rest
  | .except => True
  | .exit => (s.due = false → ∀ b rest, s.blocks = b :: rest → Timely s b rest) ∧
    (s.due = true → ∀ pre c rest, s.blocks = pre ++ c :: rest → raiser s.handler = some c.id →
      Timely s c rest ∧ Between s c (pre.drop 1))

/-! ## what a handler does -/

theorem restorePrevious_eq (previousHandler : Handler) (previousDelay started : ℚ) (s : State) :
    restorePrevious previousHandler previousDelay started s =
      { s with
        handler := previousHandler
        alarm := if 0 < previousDelay ∧ s.now < started + previousDelay then some (started + previousDelay)
          else s.alarm } := by
  unfold restorePrevious
  dsimp only
  by_cases hd : previousDelay ≤ 0
  · rw [if_pos hd, if_neg fun h => absurd h.1 (not_lt.mpr hd)]
  · have hpos := not_le.mp hd
    rw [if_neg hd]
    by_cases hr : 0 < previousDelay - (s.now - started)
    · have hlt : s.now < started + previousDelay := by linarith
      have hsum : s.now + (previousDelay - (s.now - started)) = started + previousDelay := by ring
      rw [if_pos hr, if_pos ⟨hpos, hlt⟩, hsum]
    · rw [if_neg hr, if_neg fun h => hr (by linarith [h.2])]

/-- the alarm a block puts back -/
def Block.saved (b : Block) (now : ℚ) : Option ℚ :=
  if 0 < b.previousDelay ∧ now < b.started + b.previousDelay then some (b.started + b.previousDelay) else none

/-- `restore_previous` where no alarm is set -/
theorem restorePrevious_clear (b : Block) (s : State) :
    restorePrevious b.previousHandler b.previousDelay b.started { s with alarm := none } =
      { s with handler := b.previousHandler, alarm := b.saved s.now } := by
  rw [restorePrevious_eq]
  rfl

/-- each open block has saved a handler of a block around it, or what was there at the start and no alarm -/
def Linked : List Block → Prop
  | [] => True
  | b :: rest =>
    ((b.previousHandler = .default ∧ b.previousDelay ≤ 0) ∨ ∃ c ∈ rest, b.previousHandler = c.expired) ∧
      (∀ c ∈ rest, c.id ≠ b.id) ∧ Linked rest

theorem Linked.suffix {pre bs : List Block} (h : Linked (pre ++ bs)) : Linked bs := by
  induction pre with
  | nil => exact h
  | cons b pre ih => exact ih h.2.2

/-- the handler and the alarm a block has saved, put back -/
theorem Linked.current {b : Block} {rest : List Block} (h : Linked (b :: rest)) (now : ℚ) :
    (b.previousHandler = .default ∧ b.saved now = none) ∨ ∃ c ∈ rest, b.previousHandler = c.expired :=
  h.1.imp_left fun hd => ⟨hd.1, if_neg fun hpos => absurd hpos.1 (not_lt.mpr hd.2)⟩

/-- the handler of an open block raises the error of this or of one around it -/
theorem Linked.run {bs : List Block} (h : Linked bs) {c : Block} (hc : c ∈ bs) :
    ∃ pre b rest, bs = pre ++ b :: rest ∧ raiser c.expired = some b.id ∧
      ∀ s, Deadline.run c.expired s =
        raise b.id (restorePrevious b.previousHandler b.previousDelay b.started s) := by
  induction bs generalizing c with
  | nil => exact absurd hc List.not_mem_nil
  | cons d rest ih =>
    obtain ⟨hlink, -, hrest⟩ := h
    have hlater : ∀ e ∈ rest, ∃ pre b rest', d :: rest = pre ++ b :: rest' ∧ raiser e.expired = some b.id ∧
        ∀ s, Deadline.run e.expired s =
          raise b.id (restorePrevious b.previousHandler b.previousDelay b.started s) := by
      intro e he
      obtain ⟨pre, b, rest', heq, hraiser, hrun⟩ := ih hrest he
      exact ⟨d :: pre, b, rest', congrArg (d :: ·) heq, hraiser, hrun⟩
    rcases List.mem_cons.mp hc with rfl | hc
    · by_cases hcall : (c.previousIsEarlier && c.previousHandler != .default) = true
      · rcases hlink with ⟨hdefault, -⟩ | ⟨e, he, heq⟩
        · rw [hdefault, Bool.and_eq_true] at hcall
          exact absurd hcall.2 (by decide)
        · obtain ⟨pre, b, rest', hsplit, hraiser, hrun⟩ := hlater e he
          refine ⟨pre, b, rest', hsplit, ?_, fun s => ?_⟩
          · rw [Block.expired, raiser, if_pos hcall, heq]
            exact hraiser
          · rw [Block.expired, Deadline.run, if_pos hcall, heq]
            exact hrun s
      · refine ⟨[], c, rest, rfl, ?_, fun s => ?_⟩
        · rw [Block.expired, raiser, if_neg hcall]
        · rw [Block.expired, Deadline.run, if_neg hcall]
    · exact hlater c hc

/-! ## handlers of open blocks -/

/-- the handler is that of an open block, or none is open that has set an alarm -/
structure Wired (s : State) : Prop where
  linked : Linked s.blocks
  fresh : ∀ b ∈ s.blocks, b.id < s.next
  current : (s.handler = .default ∧ s.alarm = none) ∨ ∃ b ∈ s.blocks, s.handler = b.expired

/-- what runs when the timer has gone off: the error of an open block is raised, and what it has saved is put back -/
theorem Wired.handled {s : State} (h : Wired s) (hdue : s.due = true) :
    ∃ pre b rest, s.blocks = pre ++ b :: rest ∧ raiser s.handler = some b.id ∧
      run s.handler { s with alarm := none } =
        { s with
          handler := b.previousHandler
          alarm := b.saved s.now
          raised := b.id :: s.raised
          raising := some b.id
          strayed := s.strayed || s.blocks.head?.any fun c => c.id != b.id } := by
  rcases h.current with ⟨-, hnone⟩ | ⟨c, hc, hhandler⟩
  · rw [State.due, hnone] at hdue
    exact absurd hdue Bool.false_ne_true
  · obtain ⟨pre, b, rest, hsplit, hraiser, hrun⟩ := h.linked.run hc
    refine ⟨pre, b, rest, hsplit, hhandler ▸ hraiser, ?_⟩
    have hclear := (hrun { s with alarm := none }).trans (congrArg (raise b.id) (restorePrevious_clear b s))
    rw [← hhandler] at hclear
    exact hclear

/-- what a step does to the blocks: one is entered, none changes or the innermost one is left -/
theorem step_enter {s t : State} {seconds : ℚ} (h : step s (.enter seconds) = some t) :
    s.due = false ∧ ((seconds ≤ 0 ∧ t = { s with raising := some s.next, next := s.next + 1 }) ∨
      (0 < seconds ∧ ∃ b : Block, b.id = s.next ∧ b.deadline = s.now + seconds ∧ b.previousHandler = s.handler ∧
        b.started = s.now ∧ b.previousDelay = (s.alarm.elim 0 fun a => a - s.now) ∧
        ∃ effective, effective ≤ seconds ∧ (0 < b.previousDelay → effective ≤ b.previousDelay) ∧
          t = { s with
            alarm := some (s.now + effective)
            handler := b.expired
            blocks := b :: s.blocks
            strayed := false
            next := s.next + 1 })) := by
  rw [step] at h
  split at h
  · exact nomatch h
  · next hno =>
    rw [Bool.or_eq_true, not_or] at hno
    refine ⟨Bool.eq_false_iff.mpr hno.2, ?_⟩
    split at h
    · next hle => exact Or.inl ⟨hle, (Option.some.inj h).symm⟩
    · next hpos =>
      have hdelay : (match s.alarm with
          | none => 0
          | some a => a - s.now) = s.alarm.elim 0 fun a => a - s.now := by
        cases s.alarm <;> rfl
      rw [hdelay] at h
      obtain rfl := Option.some.inj h
      refine Or.inr ⟨not_le.mp hpos, _, rfl, rfl, rfl, rfl, rfl, _, ?_, fun hsaved => ?_, rfl⟩
      · split
        · next hmin => exact of_decide_eq_true (Bool.and_eq_true_iff.mp hmin).2
        · exact le_refl _
      · split
        · exact le_refl _
        · next hmin =>
          rw [Bool.and_eq_true, decide_eq_true_iff, decide_eq_true_iff, not_and, not_le] at hmin
          exact le_of_lt (hmin hsaved)

theorem step_exit {s t : State} (h : step s .exit = some t) : ∃ b rest, s.blocks = b :: rest ∧
    ((s.due = true ∧ t = { run s.handler { s with alarm := none } with blocks := rest, strayed := false }) ∨
      (s.due = false ∧ t = { s with
        handler := b.previousHandler
        alarm := b.saved s.now
        blocks := rest
        strayed := false })) := by
  rw [step] at h
  split at h
  · exact nomatch h
  · next b rest hblocks =>
    obtain rfl := Option.some.inj h
    refine ⟨b, rest, hblocks, ?_⟩
    cases hdue : s.due with
    | true => exact Or.inl ⟨rfl, rfl⟩
    | false =>
      refine Or.inr ⟨rfl, ?_⟩
      rw [if_neg Bool.false_ne_true, restorePrevious_clear]

theorem step_wait {s t : State} {time : ℚ} (h : step s (.wait time) = some t) :
    t = { s with now := s.now + time } := by
  rw [step] at h
  split at h
  · exact nomatch h
  · exact (Option.some.inj h).symm

theorem step_except {s t : State} (h : step s .except = some t) : t = { s with raising := none } := by
  rw [step] at h
  split at h
  · exact (Option.some.inj h).symm
  · exact nomatch h

theorem step_handle {s t : State} (h : step s .handle = some t) :
    s.due = true ∧ t = run s.handler { s with alarm := none } := by
  rw [step] at h
  split at h
  · next hdue => exact ⟨hdue, (Option.some.inj h).symm⟩
  · exact nomatch h

theorem wired_step {s t : State} {a : Action} (h : Wired s) (ht : step s a = some t) : Wired t := by
  cases a with
  | wait time =>
    obtain rfl := step_wait ht
    exact ⟨h.linked, h.fresh, h.current⟩
  | enter seconds =>
    obtain ⟨-, ⟨-, rfl⟩ | ⟨-, b, hid, -, hhandler, -, hdelay, effective, -, -, rfl⟩⟩ := step_enter ht
    · exact ⟨h.linked, fun b hb => Nat.lt_succ_of_lt (h.fresh b hb), h.current⟩
    · refine ⟨⟨?_, fun c hc => ?_, h.linked⟩, fun c hc => ?_, Or.inr ⟨b, List.mem_cons_self, rfl⟩⟩
      · rw [hhandler, hdelay]
        refine h.current.imp_left fun hd => ⟨hd.1, ?_⟩
        rw [hd.2]
        exact le_refl 0
      · rw [hid]
        exact Nat.ne_of_lt (h.fresh c hc)
      · rcases List.mem_cons.mp hc with rfl | hc
        · rw [hid]
          exact Nat.lt_succ_self _
        · exact Nat.lt_succ_of_lt (h.fresh c hc)
  | handle =>
    obtain ⟨hdue, rfl⟩ := step_handle ht
    obtain ⟨pre, b, rest, hsplit, -, hrun⟩ := h.handled hdue
    have hlinked : Linked (b :: rest) := Linked.suffix (hsplit ▸ h.linked)
    rw [hrun]
    refine ⟨h.linked, h.fresh, (hlinked.current s.now).imp_right fun ⟨c, hc, heq⟩ => ⟨c, ?_, heq⟩⟩
    show c ∈ s.blocks
    rw [hsplit]
    exact List.mem_append_right pre (List.mem_cons_of_mem b hc)
  | except =>
    obtain rfl := step_except ht
    exact ⟨h.linked, h.fresh, h.current⟩
  | exit =>
    obtain ⟨b, rest, hblocks, hleft⟩ := step_exit ht
    have hall : Linked (b :: rest) := hblocks ▸ h.linked
    have hfresh : ∀ c ∈ rest, c.id < s.next := fun c hc => h.fresh c (hblocks ▸ List.mem_cons_of_mem b hc)
    rcases hleft with ⟨hdue, rfl⟩ | ⟨-, rfl⟩
    · obtain ⟨pre, c, outer, hsplit, -, hrun⟩ := h.handled hdue
      have hlinked : Linked (c :: outer) := Linked.suffix (hsplit ▸ h.linked)
      rw [hrun]
      refine ⟨hall.2.2, hfresh, (hlinked.current s.now).imp_right fun ⟨d, hd, heq⟩ => ⟨d, ?_, heq⟩⟩
      have hin : d ∈ (pre ++ c :: outer).tail := by
        cases pre with
        | nil => exact hd
        | cons e pre => exact List.mem_append_right pre (List.mem_cons_of_mem c hd)
      rw [← hsplit, hblocks] at hin
      exact hin
    · exact ⟨hall.2.2, hfresh, hall.current s.now⟩

/-- an error is raised for an open block only -/
theorem open_of_raised {s t : State} {a : Action} (h : Wired s) (ht : step s a = some t) :
    t.raised = s.raised ∨ ∃ b ∈ s.blocks, t.raised = b.id :: s.raised := by
  have hrun : s.due = true → ∃ b ∈ s.blocks, (run s.handler { s with alarm := none }).raised = b.id :: s.raised := by
    intro hdue
    obtain ⟨pre, b, rest, hsplit, -, hrun⟩ := h.handled hdue
    refine ⟨b, ?_, by rw [hrun]⟩
    rw [hsplit]
    exact List.mem_append_right pre List.mem_cons_self
  cases a with
  | wait time => exact Or.inl (by rw [step_wait ht])
  | enter seconds =>
    obtain ⟨-, ⟨-, rfl⟩ | ⟨-, b, -, -, -, -, -, effective, -, -, rfl⟩⟩ := step_enter ht
    · exact Or.inl rfl
    · exact Or.inl rfl
  | handle =>
    obtain ⟨hdue, rfl⟩ := step_handle ht
    exact Or.inr (hrun hdue)
  | except => exact Or.inl (by rw [step_except ht])
  | exit =>
    obtain ⟨b, rest, -, ⟨hdue, rfl⟩ | ⟨-, rfl⟩⟩ := step_exit ht
    · exact Or.inr (hrun hdue)
    · exact Or.inl rfl

/-! ## alarms in time -/

/-- each open block has saved an alarm in time for all blocks around it that have not had their error raised -/
def Saved (raised : List ℕ) : List Block → Prop
  | [] => True
  | b :: rest =>
    (∀ c ∈ rest, c.id ∈ raised ∨ (0 < b.previousDelay ∧ b.started + b.previousDelay ≤ c.deadline)) ∧
      Saved raised rest

theorem Saved.mono {raised : List ℕ} (id : ℕ) {bs : List Block} (h : Saved raised bs) : Saved (id :: raised) bs := by
  induction bs with
  | nil => trivial
  | cons b rest ih => exact ⟨fun c hc => (h.1 c hc).imp_left (List.mem_cons_of_mem id), ih h.2⟩

theorem Saved.suffix {raised : List ℕ} {pre bs : List Block} (h : Saved raised (pre ++ bs)) : Saved raised bs := by
  induction pre with
  | nil => exact h
  | cons b pre ih => exact ih h.2

/-- the open blocks have alarms in time, saved or set -/
structure Kept (s : State) : Prop where
  saved : Saved s.raised s.blocks
  covered : s.strayed = false → ∀ b ∈ s.blocks, b.id ∈ s.raised ∨ ∃ t, s.alarm = some t ∧ t ≤ b.deadline

/-- a saved alarm that has not run out does for all blocks around -/
theorem between_of_timely {s : State} {b : Block} {rest : List Block} (h : Saved s.raised (b :: rest))
    (ht : Timely s b rest) : Between s b rest := by
  intro c hc
  rcases ht with ht | hall
  · exact (h.1 c hc).imp_right fun hsaved => ⟨ht, hsaved.2⟩
  · exact Or.inl (hall c hc)

theorem Between.covered {s : State} {b c : Block} {bs : List Block} (h : Between s b bs) (hc : c ∈ bs) :
    c.id ∈ s.raised ∨ ∃ t, b.saved s.now = some t ∧ t ≤ c.deadline :=
  (h c hc).imp_right fun hb => ⟨b.started + b.previousDelay, if_pos hb.1, hb.2⟩

theorem covered_of_notDue {s : State} (hdue : s.due = false) (h : Covered s) {b : Block} (hb : b ∈ s.blocks) :
    b.id ∈ s.raised ∨ ∃ t, s.alarm = some t ∧ t ≤ b.deadline := by
  refine (h b hb).imp_right fun ⟨t, ht, hle⟩ => ⟨t, ht, ?_⟩
  rw [State.due, ht, Option.any_some, decide_eq_false_iff_not, not_le] at hdue
  exact (le_max_iff.mp hle).resolve_right (not_le.mpr hdue)

theorem Kept.enter {s t : State} (h : Kept s) {seconds : ℚ} (hin : InTime s (.enter seconds))
    (ht : step s (.enter seconds) = some t) : Kept t := by
  obtain ⟨hdue, ⟨-, rfl⟩ | ⟨-, b, -, hdeadline, -, hstarted, hdelay, effective, hown, hprev, rfl⟩⟩ := step_enter ht
  · exact ⟨h.saved, h.covered⟩
  · have hcovered : ∀ c ∈ s.blocks, c.id ∈ s.raised ∨ ∃ t, s.alarm = some t ∧ t ≤ c.deadline := by
      cases hs : s.strayed with
      | false => exact h.covered hs
      | true => exact fun c hc => covered_of_notDue hdue (hin hs) hc
    -- an alarm that is set lies ahead, and is what the block saves
    have halarm : ∀ a, s.alarm = some a → 0 < b.previousDelay ∧ s.now + b.previousDelay = a := by
      intro a ha
      rw [State.due, ha, Option.any_some, decide_eq_false_iff_not, not_le] at hdue
      rw [hdelay, ha, Option.elim_some]
      exact ⟨sub_pos.mpr hdue, by ring⟩
    refine ⟨⟨fun c hc => ?_, h.saved⟩, fun _ c hc => ?_⟩
    · refine (hcovered c hc).imp_right fun ⟨a, ha, hle⟩ => ?_
      obtain ⟨hpos, hsum⟩ := halarm a ha
      rw [hstarted, hsum]
      exact ⟨hpos, hle⟩
    · rcases List.mem_cons.mp hc with rfl | hc
      · refine Or.inr ⟨_, rfl, ?_⟩
        rw [hdeadline]
        linarith
      · refine (hcovered c hc).imp_right fun ⟨a, ha, hle⟩ => ⟨_, rfl, ?_⟩
        obtain ⟨hpos, hsum⟩ := halarm a ha
        have hmin := hprev hpos
        linarith

theorem Kept.handle {s t : State} (hw : Wired s) (h : Kept s) (hin : InTime s .handle)
    (ht : step s .handle = some t) : Kept t := by
  obtain ⟨hdue, rfl⟩ := step_handle ht
  obtain ⟨pre, b, rest, hsplit, hraiser, hrun⟩ := hw.handled hdue
  rw [hrun]
  refine ⟨h.saved.mono b.id, fun hstrayed c hc => ?_⟩
  -- the block that raises is the innermost one
  have htop : pre = [] := by
    cases pre with
    | nil => rfl
    | cons d pre =>
      have hne : b.id ≠ d.id := by
        have hd := hw.linked
        rw [hsplit] at hd
        exact hd.2.1 b (List.mem_append_right pre List.mem_cons_self)
      dsimp only at hstrayed
      rw [hsplit, Bool.or_eq_false_iff] at hstrayed
      have hsame := hstrayed.2
      rw [List.cons_append, List.head?_cons, Option.any_some, bne_eq_false_iff_eq] at hsame
      exact absurd hsame.symm hne
  rw [htop, List.nil_append] at hsplit
  have hc : c ∈ s.blocks := hc
  rw [hsplit] at hc
  rcases List.mem_cons.mp hc with rfl | hc
  · exact Or.inl List.mem_cons_self
  · have hall : Saved s.raised (b :: rest) := hsplit ▸ h.saved
    have htimely := hin b rest hsplit hraiser
    exact ((between_of_timely hall htimely).covered hc).imp_left (List.mem_cons_of_mem b.id)

theorem Kept.exit {s t : State} (hw : Wired s) (h : Kept s) (hin : InTime s .exit) (ht : step s .exit = some t) :
    Kept t := by
  obtain ⟨b, rest, hblocks, ⟨hdue, rfl⟩ | ⟨hdue, rfl⟩⟩ := step_exit ht
  · obtain ⟨pre, c, outer, hsplit, hraiser, hrun⟩ := hw.handled hdue
    obtain ⟨htimely, hbetween⟩ := hin.2 hdue pre c outer hsplit hraiser
    have hsaved : Saved s.raised (c :: outer) := Saved.suffix (hsplit ▸ h.saved)
    have hrest : Saved s.raised rest := (hblocks ▸ h.saved : Saved s.raised (b :: rest)).2
    have hmem : ∀ d ∈ (pre ++ c :: outer).tail, d ∈ pre.drop 1 ∨ d = c ∨ d ∈ outer := by
      intro d hd
      cases pre with
      | nil => exact Or.inr (Or.inr hd)
      | cons e pre =>
        rcases List.mem_append.mp hd with hd | hd
        · exact Or.inl hd
        · exact Or.inr (List.mem_cons.mp hd)
    rw [← hsplit, hblocks] at hmem
    rw [hrun]
    refine ⟨hrest.mono c.id, fun _ d hd => ?_⟩
    rcases hmem d hd with hd | rfl | hd
    · exact (hbetween.covered hd).imp_left (List.mem_cons_of_mem c.id)
    · exact Or.inl List.mem_cons_self
    · exact ((between_of_timely hsaved htimely).covered hd).imp_left (List.mem_cons_of_mem c.id)
  · have hall : Saved s.raised (b :: rest) := hblocks ▸ h.saved
    exact ⟨hall.2, fun _ c hc => (between_of_timely hall (hin.1 hdue b rest hblocks)).covered hc⟩

theorem kept_step {s t : State} {a : Action} (hw : Wired s) (h : Kept s) (hin : InTime s a) (ht : step s a = some t) :
    Kept t := by
  cases a with
  | wait time =>
    obtain rfl := step_wait ht
    exact ⟨h.saved, h.covered⟩
  | enter seconds => exact h.enter hin ht
  | handle => exact Kept.handle hw h hin ht
  | except =>
    obtain rfl := step_except ht
    exact ⟨h.saved, h.covered⟩
  | exit => exact Kept.exit hw h hin ht

theorem wired_start (now : ℚ) : Wired (start now) :=
  ⟨trivial, fun _ hb => absurd hb List.not_mem_nil, Or.inl ⟨rfl, rfl⟩⟩

theorem kept_start (now : ℚ) : Kept (start now) := ⟨trivial, fun _ _ hb => absurd hb List.not_mem_nil⟩

/-- errors are raised for open blocks only; and when a block has been left in a run of timely steps, the blocks around
it are covered -/
theorem deadlines_kept {now : ℚ} {as : List Action} {a : Action} {s t : State}
    (hs : Runs.exec step (start now) as = some s) (ht : step s a = some t) :
    (t.raised = s.raised ∨ ∃ b ∈ s.blocks, t.raised = b.id :: s.raised) ∧
      (Runs.along step InTime (start now) (as ++ [a]) → a = .exit → Covered t) := by
  have hw : Wired s := Runs.exec_invariant (fun _ _ _ hw => wired_step hw) (wired_start now) hs
  refine ⟨open_of_raised hw ht, ?_⟩
  rintro hP rfl
  obtain ⟨hPas, hPa⟩ := Runs.along_append.mp hP
  have hall : Wired s ∧ Kept s :=
    Runs.exec_invariant_along (I := fun s => Wired s ∧ Kept s) (P := InTime)
      (fun _ _ _ hi hin hstep => ⟨wired_step hi.1 hstep, kept_step hi.1 hi.2 hin hstep⟩)
      ⟨wired_start now, kept_start now⟩ hPas hs
  have hkept := kept_step hw hall.2 (hPa s hs).1 ht
  have hstrayed : t.strayed = false := by
    obtain ⟨b, rest, -, ⟨-, rfl⟩ | ⟨-, rfl⟩⟩ := step_exit ht
    · rfl
    · rfl
  exact fun b hb => (hkept.covered hstrayed b hb).imp_right fun ⟨at', hat, hle⟩ => ⟨at', hat, le_max_of_le_left hle⟩

/-! ## runs -/

/-- `InTime` of a step that leaves no block by its handler and enters none in a block that strayed -/
def inTime (s : State) : Action → Bool
  | .wait _ => true
  | .enter _ => !s.strayed
  | .handle => s.blocks.head?.all fun b => 0 < b.previousDelay && s.now < b.started + b.previousDelay
  | .except => true
  | .exit => !s.due && s.blocks.head?.all fun b => 0 < b.previousDelay && s.now < b.started + b.previousDelay

theorem inTime_of_check {s : State} {a : Action} (h : inTime s a = true) : InTime s a := by
  have htimely : (s.blocks.head?.all fun b => 0 < b.previousDelay && s.now < b.started + b.previousDelay) = true →
      ∀ b rest, s.blocks = b :: rest → Timely s b rest := by
    intro hall b rest hblocks
    rw [hblocks, List.head?_cons, Option.all_some, Bool.and_eq_true, decide_eq_true_iff, decide_eq_true_iff] at hall
    exact Or.inl hall
  cases a with
  | wait time => trivial
  | enter seconds =>
    intro hs
    rw [inTime, hs] at h
    exact absurd h Bool.false_ne_true
  | handle => exact fun b rest hblocks _ => htimely h b rest hblocks
  | except => trivial
  | exit =>
    rw [inTime, Bool.and_eq_true, Bool.not_eq_true'] at h
    refine ⟨fun _ => htimely h.2, fun hdue => ?_⟩
    rw [h.1] at hdue
    exact absurd hdue Bool.false_ne_true

/-- an inner block whose time is up, its error caught, within an outer one -/
def innerExpires : List Action := [.enter 10, .enter 5, .wait 5, .handle, .except]

/-- the same where a long call keeps the handler waiting -/
def innerLate : List Action := [.enter 10, .enter 5, .wait 11, .handle, .except]

theorem deadlines_kept_innerExpires : ∃ s t, Runs.exec step (start 0) innerExpires = some s ∧
    step s .exit = some t ∧ t.blocks.length = 1 ∧
    (t.raised = s.raised ∨ ∃ b ∈ s.blocks, t.raised = b.id :: s.raised) ∧ Covered t := by
  have hrun : ((Runs.exec step (start 0) innerExpires).any fun s =>
      (step s .exit).any fun t => t.blocks.length == 1) = true := by decide +kernel
  obtain ⟨s, hs, h⟩ := (Option.any_eq_true _ _).mp hrun
  obtain ⟨t, ht, hlen⟩ := (Option.any_eq_true _ _).mp h
  have hP : Runs.along step InTime (start 0) (innerExpires ++ [.exit]) :=
    Runs.along_of_check (fun _ _ => inTime_of_check) (by decide +kernel)
  obtain ⟨hraised, hcovered⟩ := deadlines_kept hs ht
  exact ⟨s, t, hs, ht, beq_iff_eq.mp hlen, hraised, hcovered hP rfl⟩

/-- when the inner block has been left, nothing is set for the outer one -/
theorem not_deadlines_kept : ¬∀ (now : ℚ) (as : List Action) (a : Action) (s t : State),
    Runs.exec step (start now) as = some s → step s a = some t →
      (t.raised = s.raised ∨ ∃ b ∈ s.blocks, t.raised = b.id :: s.raised) ∧ (a = .exit → Covered t) := by
  intro h
  have hrun : ((Runs.exec step (start 0) innerLate).any fun s => (step s .exit).any fun t =>
      t.alarm == none && t.raised == [1] && t.blocks.map Block.id == [0]) = true := by decide +kernel
  obtain ⟨s, hs, hrun⟩ := (Option.any_eq_true _ _).mp hrun
  obtain ⟨t, ht, hend⟩ := (Option.any_eq_true _ _).mp hrun
  rw [Bool.and_eq_true, Bool.and_eq_true, beq_iff_eq, beq_iff_eq, beq_iff_eq] at hend
  obtain ⟨⟨halarm, hraised⟩, hblocks⟩ := hend
  have hmem : 0 ∈ t.blocks.map Block.id := by
    rw [hblocks]
    exact List.mem_singleton_self 0
  obtain ⟨b, hb, hid⟩ := List.mem_map.mp hmem
  rcases (h 0 innerLate .exit s t hs ht).2 rfl b hb with hin | ⟨at', hat, -⟩
  · rw [hid, hraised] at hin
    exact absurd hin (by decide)
  · rw [halarm] at hat
    exact nomatch hat

end Deadline
