import Stigmergy.Capture.Service

/-!
# Brain reactions

`handle_reaction_added` of `slack/capture.py` over the rows of `slack/store.py`: any number of handlers,
each cut at its database units, with every timeout, error, cancellation and expired lease between them.

* `reserveReaction`, `bindThread`, `attachSubmission`, `releaseReservation`   the statements on the rows;
* `submit`            the last unit: bind, queue and attach, or nothing;
* `step`              one action of one handler;
* `Recorded`          one capture a thread and person, named by the row of the handler that queued it;
* `Answered`          who gave way silently is answered by another: the capture is queued, or somebody was
                      told, or a handler ended by raising;
* `one_capture`       `Recorded` over every run, `Answered` where no reservation in use expires (a handler whose
                      reservation expired while it was acquiring gives way to nobody);
* `not_answered`      a cancelled handler tells nobody.

A reservation is written as its handler: a handler makes at most one.  `Threads` is what Slack answers.
-/

set_option linter.unusedSectionVars false

namespace Reactions

open Capture Queue

def ACQUISITION_LEASE_MINUTES : ℕ := 30

def lease : Time := seconds (60 * ACQUISITION_LEASE_MINUTES)

/-- ids and timestamps of Slack: no colon and no white space -/
def isSlackId (t : Text) : Bool := t.all fun c => c != ':' && !Text.isSpace c

/-- the thread a message is in, by the timestamp of its root -/
structure Threads where
  root : Text → Text → Text
  isSlackId_root : ∀ channelId ts, isSlackId (root channelId ts) = true
  root_root : ∀ channelId ts, root channelId (root channelId ts) = root channelId ts

/-- the event, and the identity it was resolved to -/
structure Reaction where
  teamId : Text
  channelId : Text
  messageTs : Text
  slackUserId : Text
  email : Text
deriving DecidableEq

def Reaction.isSlack (r : Reaction) : Bool :=
  isSlackId r.teamId && isSlackId r.channelId && isSlackId r.messageTs && isSlackId r.slackUserId

/-- how a handler ended -/
inductive Outcome where
  | queued | told | gaveWay | raised
deriving DecidableEq

/-- where a handler is; a raising handler is on its way out with an exception it does not handle -/
inductive Phase where
  | waiting
  | acquiring
  | submitting (threadTs : Text)
  | releasing (raises : Bool)
  | telling
  | ended (o : Outcome)
deriving DecidableEq

section
variable (η : Type*)

/-- a row of `slack_submissions` -/
structure Row where
  id : η
  teamId : Text
  channelId : Text
  messageTs : Text
  threadTs : Text
  slackUserId : Text
  submittedBy : Text
  submissionId : Option Text
  createdAt : Time

structure World where
  rows : List (Row η)
  db : Db Text Request
  handlers : η → Option (Reaction × Phase)
  now : Time
  /-- the captures queued, each with the handler whose transaction queued it -/
  queuedBy : List (η × Text)

inductive Action where
  | tick (time : Time)
  | start (h : η) (r : Reaction)
  /-- refused, or failed, before the reservation -/
  | refuse (h : η)
  | reserve (h : η)
  /-- the unit raises, before or after its commit -/
  | reserveFails (h : η) (committed : Bool)
  | acquire (h : η)
  | acquireFails (h : η) (raises : Bool)
  | submit (h : η) (e : Envelope) (now : Time)
  | submitFails (h : η) (committed : Bool) (e : Envelope) (now : Time)
  | release (h : η)
  | releaseFails (h : η)
  | tell (h : η)
  | cancel (h : η)

end

section
variable {η : Type*} [DecidableEq η]

/-! ## The rows -/

def Row.isUnattached (row : Row η) : Bool := row.submissionId.isNone

/-- `submission_id IS NULL AND created_at < now() - …` -/
def expired (now : Time) (row : Row η) : Bool := row.isUnattached && decide (row.createdAt + lease < now)

def ofPerson (teamId channelId slackUserId : Text) (row : Row η) : Bool :=
  row.teamId == teamId && row.channelId == channelId && row.slackUserId == slackUserId

/-- a row of one of the two unique constraints -/
def conflicts (r : Reaction) (row : Row η) : Bool :=
  ofPerson r.teamId r.channelId r.slackUserId row &&
    (row.messageTs == r.messageTs || row.threadTs == r.messageTs)

def newRow (h : η) (r : Reaction) (now : Time) : Row η :=
  ⟨h, r.teamId, r.channelId, r.messageTs, r.messageTs, r.slackUserId, r.email, none, now⟩

/-- `reserve_reaction`: whether the row was inserted, and the rows -/
def reserveReaction (rows : List (Row η)) (h : η) (r : Reaction) (now : Time) : Bool × List (Row η) :=
  let rows := rows.filter fun row => !expired now row
  if rows.any (conflicts r) then (false, rows) else (true, newRow h r now :: rows)

/-- `DELETE … WHERE id = … AND submission_id IS NULL` -/
def releaseReservation (rows : List (Row η)) (h : η) : List (Row η) :=
  rows.filter fun row => !(row.id == h && row.isUnattached)

/-- another row of the thread -/
def taken (rows : List (Row η)) (h : η) (r : Reaction) (threadTs : Text) : Bool :=
  rows.any fun row => ofPerson r.teamId r.channelId r.slackUserId row && row.threadTs == threadTs && row.id != h

/-- `bind_thread` -/
def bindThread (rows : List (Row η)) (h : η) (r : Reaction) (threadTs : Text) : Bool × List (Row η) :=
  if taken rows h r threadTs then (false, releaseReservation rows h)
  else (rows.any fun row => row.id == h && row.isUnattached,
    rows.map fun row => if row.id = h ∧ row.isUnattached = true then { row with threadTs := threadTs } else row)

/-- `attach_submission` -/
def attachSubmission (rows : List (Row η)) (h : η) (submissionId : Text) : List (Row η) :=
  rows.map fun row => if row.id = h then { row with submissionId := some submissionId } else row

/-! ## The last unit -/

/-- `slack:{team_id}:{channel_id}:{thread_ts}:{slack_user_id}` -/
def slackKey (teamId channelId threadTs slackUserId : Text) : Text :=
  "slack".toList ++ ':' :: (teamId ++ ':' :: (channelId ++ ':' :: (threadTs ++ ':' :: slackUserId)))

/-- the envelope `submit_artifacts` queues: `e` with the key and the person of the reaction -/
def envelopeOf (e : Envelope) (r : Reaction) (threadTs : Text) : Except Text Envelope :=
  (cleanIdempotencyKey (slackKey r.teamId r.channelId threadTs r.slackUserId)).map fun key =>
    { e with idempotencyKey := key, actor := ⟨r.email, e.actor.displayName⟩ }

/-- what the transaction of `submit` commits: whether it queued, the rows, the queue, and the capture -/
structure Submitted (η : Type*) where
  rows : List (Row η)
  db : Db Text Request
  /-- the capture of the receipt, and whether it is a new one -/
  receipt : Option (Text × Bool)

variable (tenant : Text)

/-- `submit`; nothing when the transaction rolls back -/
def submit (rows : List (Row η)) (db : Db Text Request) (h : η) (r : Reaction) (threadTs : Text) (e : Envelope)
    (now : Time) : Option (Submitted η) :=
  match bindThread rows h r threadTs with
  | (false, rows) => some ⟨rows, db, none⟩
  | (true, rows) =>
    match envelopeOf e r threadTs with
    | .error _ => none
    | .ok e => match enqueueCapture tenant now db e with
      | (.error _, _) => none
      | (.ok receipt, db) => some ⟨attachSubmission rows h receipt.id, db, some (receipt.id, receipt.created)⟩

/-! ## Steps -/

variable (T : Threads)

def World.move (w : World η) (h : η) (r : Reaction) (p : Phase) : World η :=
  { w with handlers := Function.update w.handlers h (some (r, p)) }

/-- what `submit` commits, with the handler's next phase -/
def World.commit (w : World η) (h : η) (r : Reaction) (s : Submitted η) (p : Phase) : World η :=
  { (w.move h r p) with
    rows := s.rows
    db := s.db
    queuedBy := match s.receipt with
      | some (id, true) => (h, id) :: w.queuedBy
      | _ => w.queuedBy }

def step (w : World η) : Action η → Option (World η)
  | .tick time => some { w with now := w.now + time }
  | .start h r => if (w.handlers h).isNone && r.isSlack then some (w.move h r .waiting) else none
  | .refuse h =>
    match w.handlers h with
    | some (r, .waiting) => some (w.move h r .telling)
    | _ => none
  | .reserve h =>
    match w.handlers h with
    | some (r, .waiting) =>
      let (inserted, rows) := reserveReaction w.rows h r w.now
      some { (w.move h r (if inserted then .acquiring else .ended .gaveWay)) with rows := rows }
    | _ => none
  | .reserveFails h committed =>
    match w.handlers h with
    | some (r, .waiting) => some { (w.move h r (.releasing false)) with
        rows := if committed then (reserveReaction w.rows h r w.now).2 else w.rows }
    | _ => none
  | .acquire h =>
    match w.handlers h with
    | some (r, .acquiring) => some (w.move h r (.submitting (T.root r.channelId r.messageTs)))
    | _ => none
  | .acquireFails h raises =>
    match w.handlers h with
    | some (r, .acquiring) => some (w.move h r (.releasing raises))
    | _ => none
  | .submit h e now =>
    match w.handlers h with
    | some (r, .submitting threadTs) =>
      match submit tenant w.rows w.db h r threadTs e now with
      | none => some (w.move h r (.releasing false))
      | some s => some (w.commit h r s (.ended (if s.receipt.isSome then .queued else .gaveWay)))
    | _ => none
  | .submitFails h committed e now =>
    match w.handlers h with
    | some (r, .submitting threadTs) =>
      match submit tenant w.rows w.db h r threadTs e now, committed with
      | some s, true => some (w.commit h r s (.releasing false))
      | _, _ => some (w.move h r (.releasing false))
    | _ => none
  | .release h =>
    match w.handlers h with
    | some (r, .releasing raises) => some { (w.move h r (if raises then .ended .raised else .telling)) with
        rows := releaseReservation w.rows h }
    | _ => none
  | .releaseFails h =>
    match w.handlers h with
    | some (r, .releasing _) => some (w.move h r (.ended .raised))
    | _ => none
  | .tell h =>
    match w.handlers h with
    | some (r, .telling) => some (w.move h r (.ended .told))
    | _ => none
  | .cancel h =>
    match w.handlers h with
    | some (r, .waiting) | some (r, .telling) => some (w.move h r (.ended .raised))
    -- `run_blocking` lets the unit in progress end; the reservation is released before the exception goes on
    | some (r, .acquiring) | some (r, .submitting _) | some (r, .releasing _) => some (w.move h r (.releasing true))
    | _ => none

end

section
variable {η : Type*} [DecidableEq η] (T : Threads)

/-! ## What is to hold -/

def Reaction.threadTs (r : Reaction) : Text := T.root r.channelId r.messageTs

/-- the person's capture of the thread is queued -/
def Queued (db : Db Text Request) (r : Reaction) : Prop :=
  ∃ id c, db.lookup id = some c ∧ c.idempotencyKey = slackKey r.teamId r.channelId (r.threadTs T) r.slackUserId

/-- the same thread and person -/
structure SameThread (r r' : Reaction) : Prop where
  teamId : r'.teamId = r.teamId
  channelId : r'.channelId = r.channelId
  slackUserId : r'.slackUserId = r.slackUserId
  threadTs : r'.threadTs T = r.threadTs T

structure Recorded (w : World η) : Prop where
  once : ∀ teamId channelId threadTs slackUserId id id' c c', w.db.lookup id = some c → w.db.lookup id' = some c' →
    isSlackId teamId = true → isSlackId channelId = true → isSlackId threadTs = true →
      c.idempotencyKey = slackKey teamId channelId threadTs slackUserId →
      c'.idempotencyKey = slackKey teamId channelId threadTs slackUserId → id = id'
  /-- a row names the capture its own handler queued -/
  named : ∀ row ∈ w.rows, ∀ id, row.submissionId = some id → (row.id, id) ∈ w.queuedBy ∧
    ∃ c, w.db.lookup id = some c ∧ c.submittedBy = row.submittedBy ∧
      c.idempotencyKey = slackKey row.teamId row.channelId row.threadTs row.slackUserId
  has_row : ∀ id c, w.db.lookup id = some c → ∃ row ∈ w.rows, row.submissionId = some id
  logged : ∀ h id, (h, id) ∈ w.queuedBy → ∃ row ∈ w.rows, row.id = h ∧ row.submissionId = some id

def Finished (w : World η) : Prop := ∀ h r p, w.handlers h = some (r, p) → ∃ o, p = .ended o

def Answered (w : World η) : Prop :=
  ∀ h r, w.handlers h = some (r, .ended .gaveWay) → Queued T w.db r ∨ ∃ h' r' o, h' ≠ h ∧
    w.handlers h' = some (r', .ended o) ∧ (o = .told ∨ o = .raised) ∧ SameThread T r r'

/-- no reservation expires under a handler that goes on -/
def InTime (w : World η) : Action η → Prop
  | .reserve _ | .reserveFails _ _ => ∀ row ∈ w.rows, expired w.now row = true →
      ∀ r p, w.handlers row.id = some (r, p) → ∃ o, p = .ended o
  | _ => True

/-! ## The key of a capture -/

theorem colon_notMem {t : Text} (h : isSlackId t = true) : ':' ∉ t := by
  intro hmem
  have hc := List.all_eq_true.mp h ':' hmem
  exact absurd hc (by decide)

theorem append_colon_inj {a a' b b' : Text} (ha : ':' ∉ a) (ha' : ':' ∉ a') (h : a ++ ':' :: b = a' ++ ':' :: b') :
    a = a' ∧ b = b' := by
  induction a generalizing a' with
  | nil =>
    cases a' with
    | nil => exact ⟨rfl, (List.cons.inj h).2⟩
    | cons c a' =>
      rw [(List.cons.inj h).1] at ha'
      exact absurd List.mem_cons_self ha'
  | cons c a ih =>
    cases a' with
    | nil =>
      rw [(List.cons.inj h).1] at ha
      exact absurd List.mem_cons_self ha
    | cons c' a' =>
      obtain ⟨rfl, htail⟩ := List.cons.inj h
      obtain ⟨rfl, hb⟩ := ih (fun hm => ha (List.mem_cons_of_mem _ hm)) (fun hm => ha' (List.mem_cons_of_mem _ hm)) htail
      exact ⟨rfl, hb⟩

theorem slackKey_inj {teamId channelId threadTs user teamId' channelId' threadTs' user' : Text}
    (ht : isSlackId teamId = true) (hc : isSlackId channelId = true) (hh : isSlackId threadTs = true)
    (ht' : isSlackId teamId' = true) (hc' : isSlackId channelId' = true) (hh' : isSlackId threadTs' = true)
    (h : slackKey teamId channelId threadTs user = slackKey teamId' channelId' threadTs' user') :
    teamId = teamId' ∧ channelId = channelId' ∧ threadTs = threadTs' ∧ user = user' := by
  have hrest : teamId ++ ':' :: (channelId ++ ':' :: (threadTs ++ ':' :: user)) =
      teamId' ++ ':' :: (channelId' ++ ':' :: (threadTs' ++ ':' :: user')) :=
    (List.cons.inj (List.append_cancel_left h)).2
  obtain ⟨hteam, hafter⟩ := append_colon_inj (colon_notMem ht) (colon_notMem ht') hrest
  obtain ⟨hchannel, hlast⟩ := append_colon_inj (colon_notMem hc) (colon_notMem hc') hafter
  obtain ⟨hthread, huser⟩ := append_colon_inj (colon_notMem hh) (colon_notMem hh') hlast
  exact ⟨hteam, hchannel, hthread, huser⟩

/-- the key is queued as it is -/
theorem envelopeOf_eq_ok {e e' : Envelope} {r : Reaction} {threadTs : Text} (hr : r.isSlack = true)
    (ht : isSlackId threadTs = true) (h : envelopeOf e r threadTs = .ok e') :
    e'.idempotencyKey = slackKey r.teamId r.channelId threadTs r.slackUserId ∧ e'.actor.subject = r.email := by
  obtain ⟨key, hkey, rfl⟩ := Checks.map_eq_ok h
  refine ⟨?_, rfl⟩
  simp only [Reaction.isSlack, Bool.and_eq_true] at hr
  have hplain : ∀ t, isSlackId t = true → ∀ c ∈ t, Text.isSpace c = false := by
    intro t hts c hc
    have hall := List.all_eq_true.mp hts c hc
    rw [Bool.and_eq_true, Bool.not_eq_true'] at hall
    exact hall.2
  have hblank : ∀ c ∈ slackKey r.teamId r.channelId threadTs r.slackUserId, Text.isSpace c = false := by
    intro c hc
    have hcolon : Text.isSpace ':' = false := by decide
    have hslack : ∀ c ∈ "slack".toList, Text.isSpace c = false := by decide
    simp only [slackKey, List.mem_append, List.mem_cons] at hc
    rcases hc with hc | rfl | hc | rfl | hc | rfl | hc | rfl | hc
    · exact hslack c hc
    · exact hcolon
    · exact hplain _ hr.1.1.1 c hc
    · exact hcolon
    · exact hplain _ hr.1.1.2 c hc
    · exact hcolon
    · exact hplain _ ht c hc
    · exact hcolon
    · exact hplain _ hr.2 c hc
  show key = _
  rw [strip_cleanIdempotencyKey hkey]
  exact Text.strip_eq_self_of_all hblank

/-! ## The invariant -/

/-- a handler that may still have a reservation of its own -/
def Phase.holds : Phase → Bool
  | .acquiring | .submitting _ | .releasing _ | .ended .raised => true
  | _ => false

/-- the row of a handler's reaction -/
structure RowOf (row : Row η) (r : Reaction) : Prop where
  teamId : row.teamId = r.teamId
  channelId : row.channelId = r.channelId
  messageTs : row.messageTs = r.messageTs
  slackUserId : row.slackUserId = r.slackUserId
  submittedBy : row.submittedBy = r.email

structure RowOk (handlers : η → Option (Reaction × Phase)) (db : Db Text Request) (queuedBy : List (η × Text))
    (row : Row η) : Prop where
  unattached : row.submissionId = none → row.threadTs = row.messageTs
  attached : ∀ id, row.submissionId = some id → row.threadTs = T.root row.channelId row.messageTs ∧
    (row.id, id) ∈ queuedBy ∧ ∃ c, db.lookup id = some c ∧ c.submittedBy = row.submittedBy ∧
      c.idempotencyKey = slackKey row.teamId row.channelId row.threadTs row.slackUserId
  owner : ∃ r p, handlers row.id = some (r, p) ∧ RowOf row r ∧ p ≠ .waiting ∧
    (row.submissionId = none → p.holds = true)

structure Inv (w : World η) : Prop where
  ids : (w.rows.map Row.id).Nodup
  threads : ∀ row ∈ w.rows, ∀ row' ∈ w.rows, ofPerson row.teamId row.channelId row.slackUserId row' = true →
    row'.threadTs = row.threadTs → row'.id = row.id
  rows_ok : ∀ row ∈ w.rows, RowOk T w.handlers w.db w.queuedBy row
  has_row : ∀ id c, w.db.lookup id = some c → ∃ row ∈ w.rows, row.submissionId = some id
  logged : ∀ h id, (h, id) ∈ w.queuedBy → ∃ row ∈ w.rows, row.id = h ∧ row.submissionId = some id
  slack : ∀ h r p, w.handlers h = some (r, p) → r.isSlack = true
  at_thread : ∀ h r threadTs, w.handlers h = some (r, .submitting threadTs) → threadTs = r.threadTs T

variable {T}

theorem Inv.eq_of_id {w : World η} (h : Inv T w) {row row' : Row η} (hr : row ∈ w.rows) (hr' : row' ∈ w.rows)
    (hid : row.id = row'.id) : row = row' :=
  List.inj_on_of_nodup_map h.ids hr hr' hid

theorem ofPerson_iff {teamId channelId slackUserId : Text} {row : Row η} :
    ofPerson teamId channelId slackUserId row = true ↔
      row.teamId = teamId ∧ row.channelId = channelId ∧ row.slackUserId = slackUserId := by
  rw [ofPerson, Bool.and_eq_true, Bool.and_eq_true, beq_iff_eq, beq_iff_eq, beq_iff_eq, and_assoc]

/-- the ids of a row are ids of Slack -/
theorem Inv.slack_row {w : World η} (h : Inv T w) {row : Row η} (hr : row ∈ w.rows) :
    isSlackId row.teamId = true ∧ isSlackId row.channelId = true ∧ isSlackId row.messageTs = true := by
  obtain ⟨r, p, hp, hof, -⟩ := (h.rows_ok row hr).owner
  have hslack := h.slack row.id r p hp
  simp only [Reaction.isSlack, Bool.and_eq_true] at hslack
  rw [hof.teamId, hof.channelId, hof.messageTs]
  exact ⟨hslack.1.1.1, hslack.1.1.2, hslack.1.2⟩

theorem Inv.recorded {w : World η} (h : Inv T w) : Recorded w where
  once := by
    intro teamId channelId threadTs user id id' c c' hc hc' ht hch hth hkey hkey'
    obtain ⟨row, hrow, hid⟩ := h.has_row id c hc
    obtain ⟨row', hrow', hid'⟩ := h.has_row id' c' hc'
    obtain ⟨hroot, -, d, hd, -, hdkey⟩ := (h.rows_ok row hrow).attached id hid
    obtain ⟨hroot', -, d', hd', -, hdkey'⟩ := (h.rows_ok row' hrow').attached id' hid'
    obtain rfl := Option.some.inj (hc.symm.trans hd)
    obtain rfl := Option.some.inj (hc'.symm.trans hd')
    obtain ⟨hst, hsc, -⟩ := h.slack_row hrow
    obtain ⟨hst', hsc', -⟩ := h.slack_row hrow'
    obtain ⟨h₁, h₂, h₃, h₄⟩ := slackKey_inj ht hch hth hst hsc (hroot ▸ T.isSlackId_root _ _) (hkey.symm.trans hdkey)
    obtain ⟨h₁', h₂', h₃', h₄'⟩ :=
      slackKey_inj ht hch hth hst' hsc' (hroot' ▸ T.isSlackId_root _ _) (hkey'.symm.trans hdkey')
    have hsame : row'.id = row.id := h.threads row hrow row' hrow'
      (ofPerson_iff.mpr ⟨h₁'.symm.trans h₁, h₂'.symm.trans h₂, h₄'.symm.trans h₄⟩) (h₃'.symm.trans h₃)
    rw [h.eq_of_id hrow' hrow hsame] at hid'
    exact Option.some.inj (hid.symm.trans hid')
  named := by
    intro row hrow id hid
    obtain ⟨-, hlog, hc⟩ := (h.rows_ok row hrow).attached id hid
    exact ⟨hlog, hc⟩
  has_row := h.has_row
  logged := h.logged

/-! ### what the units do to the rows -/

/-- a handler goes on -/
theorem Inv.move {w : World η} (h : Inv T w) {hd : η} {r : Reaction} {p : Phase} (hr : r.isSlack = true)
    (hown : ∀ row ∈ w.rows, row.id = hd → RowOf row r ∧ p ≠ .waiting ∧ (row.submissionId = none → p.holds = true))
    (hat : ∀ threadTs, p = .submitting threadTs → threadTs = r.threadTs T) : Inv T (w.move hd r p) := by
  have hself : (w.move hd r p).handlers hd = some (r, p) := Function.update_self _ _ _
  have hother : ∀ {k}, k ≠ hd → (w.move hd r p).handlers k = w.handlers k := fun hk => Function.update_of_ne hk _ _
  refine ⟨h.ids, h.threads, fun row hrow => ?_, h.has_row, h.logged, fun k q ph hk => ?_, fun k q threadTs hk => ?_⟩
  · obtain ⟨hun, hatt, howner⟩ := h.rows_ok row hrow
    refine ⟨hun, hatt, ?_⟩
    by_cases hid : row.id = hd
    · obtain ⟨hof, hne, hholds⟩ := hown row hrow hid
      exact ⟨r, p, hid ▸ hself, hof, hne, hholds⟩
    · rw [hother hid]
      exact howner
  · by_cases hid : k = hd
    · rw [hid, hself] at hk
      rw [← (Prod.mk.inj (Option.some.inj hk)).1]
      exact hr
    · rw [hother hid] at hk
      exact h.slack k q ph hk
  · by_cases hid : k = hd
    · rw [hid, hself] at hk
      obtain ⟨rfl, hp⟩ := Prod.mk.inj (Option.some.inj hk)
      exact hat threadTs hp
    · rw [hother hid] at hk
      exact h.at_thread k q threadTs hk

/-- unattached rows are deleted -/
theorem Inv.shrink {w : World η} (h : Inv T w) {f : Row η → Bool}
    (hf : ∀ row ∈ w.rows, ∀ id, row.submissionId = some id → f row = true) :
    Inv T { w with rows := w.rows.filter f } := by
  have hsub : ∀ {row}, row ∈ w.rows.filter f → row ∈ w.rows := fun hrow => (List.mem_filter.mp hrow).1
  refine ⟨h.ids.sublist (List.filter_sublist.map _), ?_, ?_, ?_, ?_, h.slack, h.at_thread⟩
  · exact fun row hrow row' hrow' => h.threads row (hsub hrow) row' (hsub hrow')
  · exact fun row hrow => h.rows_ok row (hsub hrow)
  · intro id c hc
    obtain ⟨row, hrow, hid⟩ := h.has_row id c hc
    exact ⟨row, List.mem_filter.mpr ⟨hrow, hf row hrow id hid⟩, hid⟩
  · intro k id hk
    obtain ⟨row, hrow, hid, hsubm⟩ := h.logged k id hk
    exact ⟨row, List.mem_filter.mpr ⟨hrow, hf row hrow id hsubm⟩, hid, hsubm⟩

/-- a handler that waits has no row -/
theorem Inv.no_row {w : World η} (h : Inv T w) {hd : η} {r : Reaction} (hw : w.handlers hd = some (r, .waiting))
    {row : Row η} (hrow : row ∈ w.rows) : row.id ≠ hd := by
  rintro rfl
  obtain ⟨q, p, hp, -, hne, -⟩ := (h.rows_ok row hrow).owner
  exact hne (Prod.mk.inj (Option.some.inj (hp.symm.trans hw))).2

theorem Inv.reserved {w : World η} (h : Inv T w) {hd : η} {r : Reaction} (hw : w.handlers hd = some (r, .waiting))
    (hfree : w.rows.any (conflicts r) = false) {p : Phase} (hholds : p.holds = true)
    (hsub : ∀ threadTs, p ≠ .submitting threadTs) (now : Time) :
    Inv T { (w.move hd r p) with rows := newRow hd r now :: w.rows } := by
  have hne : p ≠ .waiting := fun hp => nomatch hp ▸ hholds
  have hfree' : ∀ row ∈ w.rows, ofPerson r.teamId r.channelId r.slackUserId row = true →
      row.threadTs ≠ r.messageTs := by
    intro row hrow hof heq
    refine List.any_eq_false.mp hfree row hrow ?_
    rw [conflicts, hof, heq, beq_self_eq_true, Bool.or_true]
    rfl
  have hmoved : Inv T (w.move hd r p) := h.move (h.slack hd r _ hw)
    (fun row hrow hid => absurd hid (h.no_row hw hrow)) fun threadTs hp => absurd hp (hsub threadTs)
  refine ⟨?_, ?_, ?_, ?_, ?_, hmoved.slack, hmoved.at_thread⟩
  · refine List.nodup_cons.mpr ⟨fun hmem => ?_, h.ids⟩
    obtain ⟨row, hrow, hid⟩ := List.mem_map.mp hmem
    exact h.no_row hw hrow hid
  · intro row hrow row' hrow' hof heq
    rcases List.mem_cons.mp hrow with rfl | hrow <;> rcases List.mem_cons.mp hrow' with rfl | hrow'
    · rfl
    · exact absurd heq (hfree' row' hrow' hof)
    · obtain ⟨ht, hc, hu⟩ := ofPerson_iff.mp hof
      exact absurd heq.symm (hfree' row hrow (ofPerson_iff.mpr ⟨ht.symm, hc.symm, hu.symm⟩))
    · exact h.threads row hrow row' hrow' hof heq
  · intro row hrow
    rcases List.mem_cons.mp hrow with rfl | hrow
    · exact ⟨fun _ => rfl, nofun, r, p, Function.update_self _ _ _, ⟨rfl, rfl, rfl, rfl, rfl⟩, hne, fun _ => hholds⟩
    · exact hmoved.rows_ok row hrow
  · intro id c hc
    obtain ⟨row, hrow, hid⟩ := h.has_row id c hc
    exact ⟨row, List.mem_cons_of_mem _ hrow, hid⟩
  · intro k id hk
    obtain ⟨row, hrow, hid⟩ := h.logged k id hk
    exact ⟨row, List.mem_cons_of_mem _ hrow, hid⟩

/-- the reservation as a whole: old ones that expired go, then the row is inserted or conflicts -/
theorem Inv.reserveReaction {w : World η} (h : Inv T w) {hd : η} {r : Reaction}
    (hw : w.handlers hd = some (r, .waiting)) {p : Bool → Phase} (htrue : (p true).holds = true)
    (hsub : ∀ b threadTs, p b ≠ .submitting threadTs) :
    Inv T { (w.move hd r (p (Reactions.reserveReaction w.rows hd r w.now).1)) with
      rows := (Reactions.reserveReaction w.rows hd r w.now).2 } := by
  have hkept : Inv T { w with rows := w.rows.filter fun row => !expired w.now row } := by
    refine h.shrink fun row _ id hid => ?_
    rw [expired, Row.isUnattached, hid]
    rfl
  unfold Reactions.reserveReaction
  dsimp only
  split
  · exact hkept.move (h.slack hd r _ hw) (fun row hrow hid => absurd hid (hkept.no_row hw hrow))
      fun threadTs hp => absurd hp (hsub false threadTs)
  · next hfree => exact hkept.reserved hw (Bool.eq_false_iff.mpr hfree) htrue (hsub true) w.now

theorem mem_releaseReservation {rows : List (Row η)} {hd : η} {row : Row η} :
    row ∈ releaseReservation rows hd ↔ row ∈ rows ∧ (row.id = hd → row.submissionId ≠ none) := by
  rw [releaseReservation, List.mem_filter, Bool.not_eq_true', Bool.and_eq_false_iff, beq_eq_false_iff_ne,
    Row.isUnattached, Option.isNone_eq_false_iff, Option.isSome_iff_ne_none]
  exact and_congr_right fun _ => imp_iff_not_or.symm

/-- a handler that is on its way out deletes its row, if it is not attached -/
theorem Inv.released {w : World η} (h : Inv T w) {hd : η} {r : Reaction} {p₀ p : Phase}
    (hw : w.handlers hd = some (r, p₀)) (hne : p ≠ .waiting) (hsub : ∀ threadTs, p ≠ .submitting threadTs) :
    Inv T { (w.move hd r p) with rows := releaseReservation w.rows hd } := by
  have hkept : Inv T { w with rows := releaseReservation w.rows hd } := by
    refine h.shrink fun row _ id hid => ?_
    rw [Row.isUnattached, hid]
    exact congrArg not (Bool.and_false _)
  refine hkept.move (h.slack hd r _ hw) (fun row hrow hid => ?_) fun threadTs hp => absurd hp (hsub threadTs)
  obtain ⟨hmem, hatt⟩ := mem_releaseReservation.mp hrow
  obtain ⟨q, p', hp', hof, -, -⟩ := (h.rows_ok row hmem).owner
  rw [hid, hw] at hp'
  obtain ⟨rfl, -⟩ := Prod.mk.inj (Option.some.inj hp')
  exact ⟨hof, hne, fun hnone => absurd hnone (hatt hid)⟩

/-! ### the last unit -/

/-- a handler that may not bind has no unattached row left -/
theorem bindThread_false {rows rows' : List (Row η)} {hd : η} {r : Reaction} {threadTs : Text}
    (hb : bindThread rows hd r threadTs = (false, rows')) : rows' = releaseReservation rows hd := by
  unfold bindThread at hb
  split at hb
  · exact (Prod.mk.inj hb).2.symm
  · obtain ⟨hnone, rfl⟩ := Prod.mk.inj hb
    have hnot : ∀ row ∈ rows, ¬(row.id = hd ∧ row.isUnattached = true) := by
      intro row hrow hboth
      refine List.any_eq_false.mp hnone row hrow ?_
      rw [hboth.1, hboth.2, beq_self_eq_true]
      rfl
    have hmap : (rows.map fun row =>
        if row.id = hd ∧ row.isUnattached = true then { row with threadTs := threadTs } else row) = rows := by
      refine (List.map_congr_left fun row hrow => ?_).trans (List.map_id _)
      exact if_neg (hnot row hrow)
    rw [hmap, releaseReservation]
    refine (List.filter_eq_self.mpr fun row hrow => ?_).symm
    rw [Bool.not_eq_true', Bool.and_eq_false_iff]
    by_cases hid : row.id = hd
    · exact Or.inr (Bool.eq_false_iff.mpr fun hu => hnot row hrow ⟨hid, hu⟩)
    · exact Or.inl (beq_eq_false_iff_ne.mpr hid)

/-- the row of a handler that binds and attaches -/
def bound (hd : η) (threadTs id : Text) (row : Row η) : Row η :=
  if row.id = hd then { row with threadTs := threadTs, submissionId := some id } else row

theorem id_bound (hd : η) (threadTs id : Text) (row : Row η) : (bound hd threadTs id row).id = row.id := by
  unfold bound
  split <;> rfl

theorem Inv.bindThread_true {w : World η} (h : Inv T w) {hd : η} {r : Reaction} {threadTs : Text}
    {rows : List (Row η)} (hb : bindThread w.rows hd r threadTs = (true, rows)) :
    (∀ row ∈ w.rows, ofPerson r.teamId r.channelId r.slackUserId row = true → row.threadTs = threadTs → row.id = hd) ∧
      (∃ own ∈ w.rows, own.id = hd ∧ own.submissionId = none) ∧
        ∀ id, attachSubmission rows hd id = w.rows.map (bound hd threadTs id) := by
  unfold bindThread at hb
  split at hb
  · exact nomatch (Prod.mk.inj hb).1
  · next htaken =>
    obtain ⟨hsome, rfl⟩ := Prod.mk.inj hb
    obtain ⟨own, hown, hboth⟩ := List.any_eq_true.mp hsome
    rw [Bool.and_eq_true, beq_iff_eq, Row.isUnattached, Option.isNone_iff_eq_none] at hboth
    refine ⟨fun row hrow hof hthread => ?_, ⟨own, hown, hboth⟩, fun id => ?_⟩
    · by_contra hne
      refine htaken (List.any_eq_true.mpr ⟨row, hrow, ?_⟩)
      rw [hof, hthread, beq_self_eq_true, bne_iff_ne.mpr hne]
      rfl
    · rw [attachSubmission, List.map_map]
      refine List.map_congr_left fun row hrow => ?_
      by_cases hid : row.id = hd
      · have hun : row.isUnattached = true := by
          rw [h.eq_of_id hrow hown (hid.trans hboth.1.symm), Row.isUnattached, hboth.2]
          rfl
        simp only [Function.comp_apply, bound, hid, hun, and_self, if_true]
      · simp only [Function.comp_apply, bound, hid, false_and, if_false]

/-- what the transaction of a handler that may bind commits: a new capture under the thread's key, and its row -/
theorem Inv.attached {tenant : Text} {w : World η} (h : Inv T w) {hd : η} {r : Reaction} {threadTs : Text}
    (hw : w.handlers hd = some (r, .submitting threadTs)) {rows : List (Row η)}
    (hb : bindThread w.rows hd r threadTs = (true, rows)) {e e' : Envelope} (he : envelopeOf e r threadTs = .ok e')
    {now : Time} {receipt : Receipt} {db : Db Text Request}
    (hq : enqueueCapture tenant now w.db e' = (.ok receipt, db)) {p : Phase} (hne : p ≠ .waiting)
    (hsub : ∀ threadTs, p ≠ .submitting threadTs) :
    Queued T db r ∧ Inv T (w.commit hd r ⟨attachSubmission rows hd receipt.id, db,
      some (receipt.id, receipt.created)⟩ p) := by
  have hslack := h.slack hd r _ hw
  have hthread := h.at_thread hd r threadTs hw
  have hts : isSlackId threadTs = true := hthread ▸ T.isSlackId_root _ _
  obtain ⟨hkey, hsubject⟩ := envelopeOf_eq_ok hslack hts he
  obtain ⟨hfree, ⟨own, hown, hownid, hunatt⟩, hattach⟩ := h.bindThread_true hb
  simp only [Reaction.isSlack, Bool.and_eq_true] at hslack
  have howner : RowOf own r := by
    obtain ⟨q, p', hp', hof, -⟩ := (h.rows_ok own hown).owner
    rw [hownid, hw] at hp'
    obtain ⟨rfl, -⟩ := Prod.mk.inj (Option.some.inj hp')
    exact hof
  -- no capture has the thread's key, else its row would have taken the thread
  have hnew : ∀ id c, w.db.lookup id = some c → c.idempotencyKey ≠ e'.idempotencyKey := by
    intro id c hc hsame
    obtain ⟨row, hrow, hid⟩ := h.has_row id c hc
    obtain ⟨hroot, -, d, hd', -, hdkey⟩ := (h.rows_ok row hrow).attached id hid
    obtain rfl := Option.some.inj (hc.symm.trans hd')
    obtain ⟨hst, hsc, -⟩ := h.slack_row hrow
    obtain ⟨h₁, h₂, h₃, h₄⟩ := slackKey_inj hst hsc (hroot ▸ T.isSlackId_root _ _) hslack.1.1.1 hslack.1.1.2 hts
      (hdkey.symm.trans (hsame.trans hkey))
    have hmine := hfree row hrow (ofPerson_iff.mpr ⟨h₁, h₂, h₄⟩) h₃
    rw [h.eq_of_id hrow hown (hmine.trans hownid.symm), hunatt] at hid
    exact nomatch hid
  rcases enqueueCapture_eq_ok hq with ⟨hcreated, -, c, hdb, hfiled⟩ | ⟨-, -, c, hc, -, -, hck⟩
  swap
  · exact absurd hck (hnew _ c hc)
  have ho : Onward w.db db := by
    have hon := onward_enqueueCapture tenant now w.db e'
    rwa [hq] at hon
  have hlookup : db.lookup receipt.id = some c := by
    rw [hdb, AList.lookup_insert]
  have hckey : c.idempotencyKey = slackKey r.teamId r.channelId threadTs r.slackUserId :=
    hfiled.idempotencyKey.trans hkey
  refine ⟨⟨receipt.id, c, hlookup, hthread ▸ hckey⟩, ?_⟩
  have hrows : (w.commit hd r ⟨attachSubmission rows hd receipt.id, db, some (receipt.id, receipt.created)⟩ p).rows =
      w.rows.map (bound hd threadTs receipt.id) := hattach receipt.id
  have hlog : (w.commit hd r ⟨attachSubmission rows hd receipt.id, db, some (receipt.id, receipt.created)⟩
      p).queuedBy = (hd, receipt.id) :: w.queuedBy := by
    unfold World.commit
    rw [hcreated]
  have hself : (w.move hd r p).handlers hd = some (r, p) := Function.update_self _ _ _
  have hother : ∀ {k}, k ≠ hd → (w.move hd r p).handlers k = w.handlers k := fun hk => Function.update_of_ne hk _ _
  have hmoved : Inv T { (w.move hd r p) with rows := releaseReservation w.rows hd } := h.released hw hne hsub
  -- a row of another handler as it was, or the handler's own, bound
  have hcases : ∀ row ∈ w.rows.map (bound hd threadTs receipt.id),
      (row ∈ w.rows ∧ row.id ≠ hd) ∨ row = { own with threadTs := threadTs, submissionId := some receipt.id } := by
    intro row hrow
    obtain ⟨row₀, hrow₀, rfl⟩ := List.mem_map.mp hrow
    unfold bound
    by_cases hid : row₀.id = hd
    · rw [if_pos hid, h.eq_of_id hrow₀ hown (hid.trans hownid.symm)]
      exact Or.inr rfl
    · rw [if_neg hid]
      exact Or.inl ⟨hrow₀, hid⟩
  have hkept : ∀ row ∈ w.rows, row.id ≠ hd → row ∈ w.rows.map (bound hd threadTs receipt.id) := by
    intro row hrow hid
    refine List.mem_map.mpr ⟨row, hrow, ?_⟩
    rw [bound, if_neg hid]
  have hbound : ({ own with threadTs := threadTs, submissionId := some receipt.id } : Row η) ∈
      w.rows.map (bound hd threadTs receipt.id) := by
    refine List.mem_map.mpr ⟨own, hown, ?_⟩
    rw [bound, if_pos hownid]
  refine ⟨?_, ?_, ?_, ?_, ?_, hmoved.slack, hmoved.at_thread⟩
  · rw [hrows, List.map_map]
    have hids : Row.id ∘ bound hd threadTs receipt.id = Row.id := funext (id_bound hd threadTs receipt.id)
    rw [hids]
    exact h.ids
  · rw [hrows]
    intro row hrow row' hrow' hof heq
    rcases hcases row hrow with ⟨hrow, -⟩ | rfl <;> rcases hcases row' hrow' with ⟨hrow', -⟩ | rfl
    · exact h.threads row hrow row' hrow' hof heq
    · obtain ⟨h₁, h₂, h₃⟩ := ofPerson_iff.mp hof
      refine hownid.trans (hfree row hrow (ofPerson_iff.mpr ⟨?_, ?_, ?_⟩) heq.symm).symm
      · exact h₁.symm.trans howner.teamId
      · exact h₂.symm.trans howner.channelId
      · exact h₃.symm.trans howner.slackUserId
    · obtain ⟨h₁, h₂, h₃⟩ := ofPerson_iff.mp hof
      refine (hfree row' hrow' (ofPerson_iff.mpr ⟨?_, ?_, ?_⟩) heq).trans hownid.symm
      · exact h₁.trans howner.teamId
      · exact h₂.trans howner.channelId
      · exact h₃.trans howner.slackUserId
    · rfl
  · rw [hrows, hlog]
    intro row hrow
    rcases hcases row hrow with ⟨hrow, hid⟩ | rfl
    · obtain ⟨hun, hatt, howns⟩ := h.rows_ok row hrow
      refine ⟨hun, fun id hid' => ?_, ?_⟩
      · obtain ⟨hroot, hl, d, hd', hdsub, hdkey⟩ := hatt id hid'
        obtain ⟨d', hd'', hon⟩ := ho id d hd'
        exact ⟨hroot, List.mem_cons_of_mem _ hl, d', hd'', hon.submittedBy.trans hdsub, hon.idempotencyKey.trans hdkey⟩
      · show ∃ q p', (w.move hd r p).handlers row.id = some (q, p') ∧ _
        rw [hother hid]
        exact howns
    · refine ⟨nofun, fun id hid => ?_, r, p, ?_, ?_, hne, nofun⟩
      · obtain rfl := Option.some.inj hid
        refine ⟨?_, ?_, c, hlookup, ?_, ?_⟩
        · rw [howner.channelId, howner.messageTs, hthread]
          rfl
        · rw [hownid]
          exact List.mem_cons_self
        · rw [hfiled.submittedBy, hsubject, howner.submittedBy]
        · rw [hckey, howner.teamId, howner.channelId, howner.slackUserId]
      · rw [hownid]
        exact hself
      · exact ⟨howner.teamId, howner.channelId, howner.messageTs, howner.slackUserId, howner.submittedBy⟩
  · rw [hrows]
    intro id d hd'
    change db.lookup id = some d at hd'
    rw [hdb, Table.lookup_insert_eq] at hd'
    by_cases hid : id = receipt.id
    · exact ⟨_, hbound, congrArg some hid.symm⟩
    · rw [if_neg hid] at hd'
      obtain ⟨row, hrow, hrid⟩ := h.has_row id d hd'
      refine ⟨row, hkept row hrow fun hrow' => ?_, hrid⟩
      rw [h.eq_of_id hrow hown (hrow'.trans hownid.symm), hunatt] at hrid
      exact nomatch hrid
  · rw [hrows, hlog]
    intro k id hk
    rcases List.mem_cons.mp hk with heq | hk
    · obtain ⟨rfl, rfl⟩ := Prod.mk.inj heq
      exact ⟨_, hbound, hownid, rfl⟩
    · obtain ⟨row, hrow, hrid, hsubm⟩ := h.logged k id hk
      refine ⟨row, hkept row hrow fun hrow' => ?_, hrid, hsubm⟩
      rw [h.eq_of_id hrow hown (hrow'.trans hownid.symm), hunatt] at hsubm
      exact nomatch hsubm

/-- what the transaction commits: the way is given, or the capture is queued and attached -/
theorem Inv.submitted {tenant : Text} {w : World η} (h : Inv T w) {hd : η} {r : Reaction} {threadTs : Text}
    (hw : w.handlers hd = some (r, .submitting threadTs)) {e : Envelope} {now : Time} {s : Submitted η}
    (hs : submit tenant w.rows w.db hd r threadTs e now = some s) {p : Phase} (hne : p ≠ .waiting)
    (hsub : ∀ threadTs, p ≠ .submitting threadTs) :
    Inv T (w.commit hd r s p) ∧ (s.receipt.isSome = true → Queued T s.db r) ∧
      (s.receipt = none → s.rows = releaseReservation w.rows hd ∧ s.db = w.db ∧
        (bindThread w.rows hd r threadTs).1 = false) := by
  unfold submit at hs
  split at hs
  · next rows hb =>
    obtain rfl := Option.some.inj hs
    have hrows := bindThread_false hb
    refine ⟨?_, nofun, fun _ => ⟨hrows, rfl, by rw [hb]⟩⟩
    rw [hrows]
    exact h.released hw hne hsub
  · next rows hb =>
    split at hs
    · exact nomatch hs
    · next e' he =>
      split at hs
      · exact nomatch hs
      · next receipt db hq =>
        obtain rfl := Option.some.inj hs
        obtain ⟨hqueued, hinv⟩ := h.attached hw hb he hq hne hsub
        exact ⟨hinv, fun _ => hqueued, nofun⟩

/-- an attempt that only moves the handler -/
theorem Inv.goes {w : World η} (h : Inv T w) {hd : η} {r : Reaction} {p₀ p : Phase}
    (hw : w.handlers hd = some (r, p₀)) (hholds : p₀.holds = true → p.holds = true)
    (hwait : p₀ = .waiting ∨ p ≠ .waiting) (hat : ∀ threadTs, p = .submitting threadTs → threadTs = r.threadTs T) :
    Inv T (w.move hd r p) := by
  refine h.move (h.slack hd r _ hw) (fun row hrow hid => ?_) hat
  obtain ⟨q, p', hp', hof, hne, hown⟩ := (h.rows_ok row hrow).owner
  rw [hid, hw] at hp'
  obtain ⟨rfl, rfl⟩ := Prod.mk.inj (Option.some.inj hp')
  exact ⟨hof, hwait.resolve_left hne, fun hnone => hholds (hown hnone)⟩

/-- every action of every handler keeps the invariant -/
theorem inv_step {tenant : Text} {w w' : World η} {a : Action η} (h : Inv T w)
    (hstep : step tenant T w a = some w') : Inv T w' := by
  cases a with
  | tick time =>
    obtain rfl := Option.some.inj hstep
    exact ⟨h.ids, h.threads, h.rows_ok, h.has_row, h.logged, h.slack, h.at_thread⟩
  | start hd r =>
    simp only [step] at hstep
    split at hstep
    · next hnew =>
      obtain rfl := Option.some.inj hstep
      rw [Bool.and_eq_true, Option.isNone_iff_eq_none] at hnew
      refine h.move hnew.2 (fun row hrow hid => ?_) nofun
      obtain ⟨q, p, hp, -⟩ := (h.rows_ok row hrow).owner
      rw [hid, hnew.1] at hp
      exact nomatch hp
    · exact nomatch hstep
  | refuse hd =>
    simp only [step] at hstep
    split at hstep
    · next r hw =>
      obtain rfl := Option.some.inj hstep
      exact h.goes hw nofun (Or.inl rfl) nofun
    · exact nomatch hstep
  | reserve hd =>
    simp only [step] at hstep
    split at hstep
    · next r hw =>
      obtain rfl := Option.some.inj hstep
      exact h.reserveReaction (p := fun b => if b then .acquiring else .ended .gaveWay) hw rfl
        (fun b => by cases b <;> exact nofun)
    · exact nomatch hstep
  | reserveFails hd committed =>
    simp only [step] at hstep
    split at hstep
    · next r hw =>
      obtain rfl := Option.some.inj hstep
      cases committed with
      | false => exact h.goes hw nofun (Or.inl rfl) nofun
      | true => exact h.reserveReaction (p := fun _ => .releasing false) hw rfl (fun _ => nofun)
    · exact nomatch hstep
  | acquire hd =>
    simp only [step] at hstep
    split at hstep
    · next r hw =>
      obtain rfl := Option.some.inj hstep
      exact h.goes hw (fun _ => rfl) (Or.inr nofun) fun threadTs hp => (Phase.submitting.inj hp).symm
    · exact nomatch hstep
  | acquireFails hd raises =>
    simp only [step] at hstep
    split at hstep
    · next r hw =>
      obtain rfl := Option.some.inj hstep
      exact h.goes hw (fun _ => rfl) (Or.inr nofun) nofun
    · exact nomatch hstep
  | submit hd e now =>
    simp only [step] at hstep
    split at hstep
    · next r threadTs hw =>
      split at hstep
      · obtain rfl := Option.some.inj hstep
        exact h.goes hw (fun _ => rfl) (Or.inr nofun) nofun
      · next s hs =>
        obtain rfl := Option.some.inj hstep
        exact (h.submitted (p := .ended _) hw hs nofun nofun).1
    · exact nomatch hstep
  | submitFails hd committed e now =>
    simp only [step] at hstep
    split at hstep
    · next r threadTs hw =>
      split at hstep
      · next s hs =>
        obtain rfl := Option.some.inj hstep
        exact (h.submitted (p := .releasing false) hw hs nofun nofun).1
      · obtain rfl := Option.some.inj hstep
        exact h.goes hw (fun _ => rfl) (Or.inr nofun) nofun
    · exact nomatch hstep
  | release hd =>
    simp only [step] at hstep
    split at hstep
    · next r raises hw =>
      obtain rfl := Option.some.inj hstep
      cases raises with
      | true => exact h.released hw nofun nofun
      | false => exact h.released hw nofun nofun
    · exact nomatch hstep
  | releaseFails hd =>
    simp only [step] at hstep
    split at hstep
    · next r raises hw =>
      obtain rfl := Option.some.inj hstep
      exact h.goes hw (fun _ => rfl) (Or.inr nofun) nofun
    · exact nomatch hstep
  | tell hd =>
    simp only [step] at hstep
    split at hstep
    · next r hw =>
      obtain rfl := Option.some.inj hstep
      exact h.goes hw nofun (Or.inr nofun) nofun
    · exact nomatch hstep
  | cancel hd =>
    simp only [step] at hstep
    split at hstep
    · next r hw =>
      obtain rfl := Option.some.inj hstep
      exact h.goes hw nofun (Or.inl rfl) nofun
    · next r hw =>
      obtain rfl := Option.some.inj hstep
      exact h.goes hw nofun (Or.inr nofun) nofun
    · next r hw =>
      obtain rfl := Option.some.inj hstep
      exact h.goes hw (fun _ => rfl) (Or.inr nofun) nofun
    · next r threadTs hw =>
      obtain rfl := Option.some.inj hstep
      exact h.goes hw (fun _ => rfl) (Or.inr nofun) nofun
    · next r raises hw =>
      obtain rfl := Option.some.inj hstep
      exact h.goes hw (fun _ => rfl) (Or.inr nofun) nofun
    · exact nomatch hstep

/-! ## Who gave way -/

/-- a handler that will answer its person, or has: by a capture, by telling them, or by raising -/
def Phase.answers : Phase → Bool
  | .acquiring | .submitting _ | .releasing _ | .telling | .ended .told | .ended .raised => true
  | _ => false

theorem answers_of_holds {p : Phase} (h : p.holds = true) : p.answers = true := by
  cases p with
  | ended o => cases o <;> first | rfl | exact nomatch h
  | _ => first | rfl | exact nomatch h

variable (T) in
/-- somebody will answer for the thread, or the capture is queued -/
def Stands (handlers : η → Option (Reaction × Phase)) (db : Db Text Request) (r : Reaction) : Prop :=
  Queued T db r ∨ ∃ h' r' p, handlers h' = some (r', p) ∧ p.answers = true ∧ SameThread T r r'

variable (T) in
structure Handed (w : World η) : Prop where
  /-- a handler at work has its reservation -/
  held : ∀ h r p, w.handlers h = some (r, p) → (p = .acquiring ∨ ∃ threadTs, p = .submitting threadTs) →
    ∃ row ∈ w.rows, row.id = h ∧ row.submissionId = none
  stands : ∀ h r, w.handlers h = some (r, .ended .gaveWay) → Stands T w.handlers w.db r

/-- the row a handler gives way to: its capture is queued, or its own handler will answer -/
theorem Inv.stands_of_row {w : World η} (h : Inv T w) {row : Row η} (hrow : row ∈ w.rows) {r : Reaction}
    (hperson : ofPerson r.teamId r.channelId r.slackUserId row = true)
    (hts : row.messageTs = r.messageTs ∨ row.threadTs = r.messageTs ∨ row.threadTs = r.threadTs T) :
    Queued T w.db r ∨ ∃ q p, w.handlers row.id = some (q, p) ∧ p.answers = true ∧ SameThread T r q := by
  obtain ⟨hun, hatt, q, p, hp, hof, -, hholds⟩ := h.rows_ok row hrow
  obtain ⟨hteam, hchannel, huser⟩ := ofPerson_iff.mp hperson
  -- the thread of the row's message is the reaction's thread
  have hroot : T.root row.channelId row.messageTs = r.threadTs T := by
    rw [hchannel]
    cases hsub : row.submissionId with
    | none =>
      rw [hun hsub] at hts
      rcases hts with heq | heq | heq
      · rw [heq]
        rfl
      · rw [heq]
        rfl
      · rw [heq]
        exact T.root_root _ _
    | some id =>
      obtain ⟨hthread, -⟩ := hatt id hsub
      rw [hthread, hchannel] at hts
      rcases hts with heq | heq | heq
      · rw [heq]
        rfl
      · unfold Reaction.threadTs
        rw [← heq, T.root_root]
      · exact heq
  cases hsub : row.submissionId with
  | none =>
    refine Or.inr ⟨q, p, hp, answers_of_holds (hholds hsub), ?_, ?_, ?_, ?_⟩
    · exact hof.teamId.symm.trans hteam
    · exact hof.channelId.symm.trans hchannel
    · exact hof.slackUserId.symm.trans huser
    · rw [← hroot, hof.channelId, hof.messageTs]
      rfl
  | some id =>
    obtain ⟨hthread, -, c, hc, -, hkey⟩ := hatt id hsub
    refine Or.inl ⟨id, c, hc, ?_⟩
    rw [hkey, hthread, hroot, hteam, hchannel, huser]

theorem SameThread.trans {r₁ r₂ r₃ : Reaction} (h : SameThread T r₁ r₂) (h' : SameThread T r₂ r₃) :
    SameThread T r₁ r₃ :=
  ⟨h'.teamId.trans h.teamId, h'.channelId.trans h.channelId, h'.slackUserId.trans h.slackUserId,
    h'.threadTs.trans h.threadTs⟩

theorem Queued.same {db : Db Text Request} {r r' : Reaction} (h : Queued T db r') (hs : SameThread T r r') :
    Queued T db r := by
  obtain ⟨id, c, hc, hkey⟩ := h
  refine ⟨id, c, hc, ?_⟩
  rw [hkey, hs.teamId, hs.channelId, hs.slackUserId, hs.threadTs]

theorem Queued.onward {db db' : Db Text Request} (ho : Onward db db') {r : Reaction} (h : Queued T db r) :
    Queued T db' r := by
  obtain ⟨id, c, hc, hkey⟩ := h
  obtain ⟨c', hc', hon⟩ := ho id c hc
  exact ⟨id, c', hc', hon.idempotencyKey.trans hkey⟩

/-- What stands goes on standing when one handler goes on and answers, or leaves something that stands -/
theorem Stands.moved {w w' : World η} {hd : η} {r : Reaction} {p₀ p : Phase} (hw : w.handlers hd = some (r, p₀))
    (hhandlers : w'.handlers = Function.update w.handlers hd (some (r, p))) (ho : Onward w.db w'.db)
    (hp : p₀.answers = true → p.answers = true ∨ Stands T w'.handlers w'.db r) {r' : Reaction}
    (h : Stands T w.handlers w.db r') : Stands T w'.handlers w'.db r' := by
  rcases h with hq | ⟨k, q, ph, hk, hans, hsame⟩
  · exact Or.inl (hq.onward ho)
  · by_cases hid : k = hd
    · rw [hid, hw] at hk
      obtain ⟨rfl, rfl⟩ := Prod.mk.inj (Option.some.inj hk)
      rcases hp hans with hans | hq | ⟨k', q', ph', hk', hans', hsame'⟩
      · refine Or.inr ⟨hd, r, p, ?_, hans, hsame⟩
        rw [hhandlers, Function.update_self]
      · exact Or.inl (hq.same hsame)
      · exact Or.inr ⟨k', q', ph', hk', hans', hsame.trans hsame'⟩
    · refine Or.inr ⟨k, q, ph, ?_, hans, hsame⟩
      rw [hhandlers, Function.update_of_ne hid]
      exact hk

/-- a row of another handler stands after the step -/
theorem Inv.stands_after {w : World η} (h : Inv T w) {hd : η} {handlers : η → Option (Reaction × Phase)}
    {n : Option (Reaction × Phase)} (hhandlers : handlers = Function.update w.handlers hd n) {db : Db Text Request}
    (ho : Onward w.db db) {row : Row η} (hrow : row ∈ w.rows) (hid : row.id ≠ hd) {r : Reaction}
    (hperson : ofPerson r.teamId r.channelId r.slackUserId row = true)
    (hts : row.messageTs = r.messageTs ∨ row.threadTs = r.messageTs ∨ row.threadTs = r.threadTs T) :
    Stands T handlers db r := by
  rcases h.stands_of_row hrow hperson hts with hq | ⟨q, p, hp, hans, hsame⟩
  · exact Or.inl (hq.onward ho)
  · refine Or.inr ⟨row.id, q, p, ?_, hans, hsame⟩
    rw [hhandlers, Function.update_of_ne hid]
    exact hp

/-- one handler goes on: it keeps its reservation while it is at work, and so do the others -/
theorem Handed.moved {w w' : World η} (hg : Handed T w) {hd : η} {r : Reaction} {p₀ p : Phase}
    (hw : w.handlers hd = some (r, p₀)) (hhandlers : w'.handlers = Function.update w.handlers hd (some (r, p)))
    (ho : Onward w.db w'.db)
    (hrows : ∀ row ∈ w.rows, row.id ≠ hd → row.submissionId = none →
      (∀ q ph, w.handlers row.id = some (q, ph) → ∀ o, ph ≠ .ended o) → ∃ row' ∈ w'.rows, row'.id = row.id ∧
        row'.submissionId = none)
    (hown : p = .acquiring ∨ (∃ threadTs, p = .submitting threadTs) →
      ∃ row ∈ w'.rows, row.id = hd ∧ row.submissionId = none)
    (hp : p₀.answers = true → p.answers = true ∨ Stands T w'.handlers w'.db r)
    (hgave : p = .ended .gaveWay → Stands T w'.handlers w'.db r) : Handed T w' := by
  refine ⟨fun k q ph hk hwork => ?_, fun k q hk => ?_⟩
  · by_cases hid : k = hd
    · rw [hhandlers, hid, Function.update_self] at hk
      obtain ⟨-, rfl⟩ := Prod.mk.inj (Option.some.inj hk)
      rw [hid]
      exact hown hwork
    · rw [hhandlers, Function.update_of_ne hid] at hk
      obtain ⟨row, hrow, hrid, hnone⟩ := hg.held k q ph hk hwork
      have hgoing : ∀ q' ph', w.handlers row.id = some (q', ph') → ∀ o, ph' ≠ .ended o := by
        intro q' ph' hk' o ho'
        rw [hrid, hk] at hk'
        obtain ⟨-, rfl⟩ := Prod.mk.inj (Option.some.inj hk')
        rcases hwork with rfl | ⟨threadTs, rfl⟩ <;> exact nomatch ho'
      obtain ⟨row', hrow', hid', hnone'⟩ := hrows row hrow (hrid ▸ hid) hnone hgoing
      exact ⟨row', hrow', hid'.trans hrid, hnone'⟩
  · by_cases hid : k = hd
    · rw [hhandlers, hid, Function.update_self] at hk
      obtain ⟨rfl, rfl⟩ := Prod.mk.inj (Option.some.inj hk)
      exact hgave rfl
    · rw [hhandlers, Function.update_of_ne hid] at hk
      exact Stands.moved hw hhandlers ho hp (hg.stands k q hk)

/-- a handler that goes on without a statement on the rows -/
theorem Handed.goes {w : World η} (hg : Handed T w) {hd : η} {r : Reaction} {p₀ p : Phase}
    (hw : w.handlers hd = some (r, p₀)) (hown : p = .acquiring ∨ (∃ threadTs, p = .submitting threadTs) →
      p₀ = .acquiring) (hp : p₀.answers = true → p.answers = true) (hgave : p ≠ .ended .gaveWay) :
    Handed T (w.move hd r p) := by
  refine hg.moved hw rfl (Onward.refl _) (fun row hrow _ hnone _ => ⟨row, hrow, rfl, hnone⟩) (fun hwork => ?_)
    (fun hans => Or.inl (hp hans)) fun heq => absurd heq hgave
  exact hg.held hd r p₀ hw (Or.inl (hown hwork))

/-- a reservation, where none in use has expired -/
theorem Handed.reserved {w : World η} (h : Inv T w) (hg : Handed T w) {hd : η} {r : Reaction}
    (hw : w.handlers hd = some (r, .waiting))
    (hP : ∀ row ∈ w.rows, expired w.now row = true → ∀ q p, w.handlers row.id = some (q, p) → ∃ o, p = .ended o)
    {p : Bool → Phase} (hwork : ∀ b, p b = .acquiring ∨ (∃ threadTs, p b = .submitting threadTs) → b = true)
    (hgave : p true ≠ .ended .gaveWay) :
    Handed T { (w.move hd r (p (reserveReaction w.rows hd r w.now).1)) with
      rows := (reserveReaction w.rows hd r w.now).2 } := by
  have hkept : ∀ row ∈ w.rows, (∀ q ph, w.handlers row.id = some (q, ph) → ∀ o, ph ≠ .ended o) →
      row ∈ w.rows.filter fun row => !expired w.now row := by
    intro row hrow hgoing
    refine List.mem_filter.mpr ⟨hrow, ?_⟩
    rw [Bool.not_eq_true']
    refine Bool.eq_false_iff.mpr fun hexp => ?_
    obtain ⟨q, ph, hph, -⟩ := (h.rows_ok row hrow).owner
    obtain ⟨o, ho⟩ := hP row hrow hexp q ph hph
    exact hgoing q ph hph o ho
  unfold reserveReaction
  dsimp only
  split
  · next hconf =>
    refine hg.moved hw rfl (Onward.refl _) (fun row hrow _ hnone hgoing => ⟨row, hkept row hrow hgoing, rfl, hnone⟩)
      (fun hat => nomatch hwork false hat) nofun fun _ => ?_
    obtain ⟨row, hrow, hc⟩ := List.any_eq_true.mp hconf
    rw [conflicts, Bool.and_eq_true, Bool.or_eq_true, beq_iff_eq, beq_iff_eq] at hc
    have hmem := (List.mem_filter.mp hrow).1
    exact h.stands_after rfl (Onward.refl _) hmem (h.no_row hw hmem) hc.1
      (hc.2.elim Or.inl fun heq => Or.inr (Or.inl heq))
  · refine hg.moved hw rfl (Onward.refl _) (fun row hrow _ hnone hgoing =>
      ⟨row, List.mem_cons_of_mem _ (hkept row hrow hgoing), rfl, hnone⟩) (fun _ => ?_) nofun
      fun heq => absurd heq hgave
    exact ⟨newRow hd r w.now, List.mem_cons_self, rfl, rfl⟩

theorem mem_bindThread {rows : List (Row η)} {hd : η} {row : Row η} (hrow : row ∈ rows) (hid : row.id ≠ hd)
    (r : Reaction) (threadTs : Text) : row ∈ (bindThread rows hd r threadTs).2 := by
  unfold bindThread
  split
  · exact mem_releaseReservation.mpr ⟨hrow, fun heq => absurd heq hid⟩
  · exact List.mem_map.mpr ⟨row, hrow, if_neg fun heq => hid heq.1⟩

/-- the transaction leaves the rows of the others as they are -/
theorem mem_submit {tenant : Text} {rows : List (Row η)} {db : Db Text Request} {hd : η} {r : Reaction}
    {threadTs : Text} {e : Envelope} {now : Time} {s : Submitted η}
    (hs : submit tenant rows db hd r threadTs e now = some s) {row : Row η} (hrow : row ∈ rows) (hid : row.id ≠ hd) :
    row ∈ s.rows := by
  have hmem := mem_bindThread hrow hid r threadTs
  unfold submit at hs
  split at hs
  · next rows' hb =>
    obtain rfl := Option.some.inj hs
    rwa [hb] at hmem
  · next rows' hb =>
    rw [hb] at hmem
    split at hs
    · exact nomatch hs
    · split at hs
      · exact nomatch hs
      · obtain rfl := Option.some.inj hs
        exact List.mem_map.mpr ⟨row, hmem, if_neg hid⟩

theorem onward_submit {tenant : Text} {rows : List (Row η)} {db : Db Text Request} {hd : η} {r : Reaction}
    {threadTs : Text} {e : Envelope} {now : Time} {s : Submitted η}
    (hs : submit tenant rows db hd r threadTs e now = some s) : Onward db s.db := by
  unfold submit at hs
  split at hs
  · obtain rfl := Option.some.inj hs
    exact Onward.refl db
  · split at hs
    · exact nomatch hs
    · next e' he =>
      split at hs
      · exact nomatch hs
      · next receipt db' hq =>
        obtain rfl := Option.some.inj hs
        have hon := onward_enqueueCapture tenant now db e'
        rwa [hq] at hon

/-- a handler with its reservation may bind unless another row has taken the thread -/
theorem taken_of_bindThread {rows : List (Row η)} {hd : η} {r : Reaction} {threadTs : Text}
    (hown : ∃ row ∈ rows, row.id = hd ∧ row.submissionId = none) (hb : (bindThread rows hd r threadTs).1 = false) :
    ∃ row ∈ rows, ofPerson r.teamId r.channelId r.slackUserId row = true ∧ row.threadTs = threadTs ∧ row.id ≠ hd := by
  unfold bindThread at hb
  split at hb
  · next htaken =>
    obtain ⟨row, hrow, h⟩ := List.any_eq_true.mp htaken
    rw [Bool.and_eq_true, Bool.and_eq_true, beq_iff_eq, bne_iff_ne] at h
    exact ⟨row, hrow, h.1.1, h.1.2, h.2⟩
  · obtain ⟨row, hrow, hid, hnone⟩ := hown
    refine absurd ?_ (List.any_eq_false.mp hb row hrow)
    rw [hid, Row.isUnattached, hnone, beq_self_eq_true]
    rfl

/-- the last unit commits: the thread's capture is queued, or it is another's -/
theorem Handed.submits {tenant : Text} {w : World η} (h : Inv T w) (hg : Handed T w) {hd : η} {r : Reaction}
    {threadTs : Text} (hw : w.handlers hd = some (r, .submitting threadTs)) {e : Envelope} {now : Time}
    {s : Submitted η} (hs : submit tenant w.rows w.db hd r threadTs e now = some s) {p : Phase} (hwait : p ≠ .waiting)
    (hacq : p ≠ .acquiring) (hsub : ∀ threadTs, p ≠ .submitting threadTs) : Handed T (w.commit hd r s p) := by
  obtain ⟨-, hqueued, hnone⟩ := h.submitted hw hs hwait hsub
  have hstands : Stands T (w.commit hd r s p).handlers s.db r := by
    cases hr : s.receipt with
    | some receipt => exact Or.inl (hqueued (hr ▸ rfl))
    | none =>
      have hown := hg.held hd r _ hw (Or.inr ⟨threadTs, rfl⟩)
      obtain ⟨row, hrow, hperson, hts, hid⟩ := taken_of_bindThread hown (hnone hr).2.2
      have hroot : row.threadTs = r.threadTs T := hts.trans (h.at_thread hd r threadTs hw)
      exact h.stands_after rfl (onward_submit hs) hrow hid hperson (Or.inr (Or.inr hroot))
  refine hg.moved hw rfl (onward_submit hs) (fun row hrow hid hun _ => ⟨row, mem_submit hs hrow hid, rfl, hun⟩)
    (fun hwork => ?_) (fun _ => Or.inr hstands) fun _ => hstands
  rcases hwork with hp | ⟨threadTs', hp⟩
  · exact absurd hp hacq
  · exact absurd hp (hsub threadTs')

/-- a new handler -/
theorem Handed.started {w : World η} (hg : Handed T w) {hd : η} (hw : w.handlers hd = none) (r : Reaction) :
    Handed T (w.move hd r .waiting) := by
  have hself : (w.move hd r .waiting).handlers hd = some (r, .waiting) := Function.update_self _ _ _
  have hother : ∀ {k}, k ≠ hd → (w.move hd r .waiting).handlers k = w.handlers k :=
    fun hk => Function.update_of_ne hk _ _
  have hkept : ∀ {r'}, Stands T w.handlers w.db r' → Stands T (w.move hd r .waiting).handlers w.db r' := by
    rintro r' (hq | ⟨k, q, p, hk, hans, hsame⟩)
    · exact Or.inl hq
    · refine Or.inr ⟨k, q, p, ?_, hans, hsame⟩
      rw [hother]
      · exact hk
      · rintro rfl
        rw [hw] at hk
        exact nomatch hk
  refine ⟨fun k q p hk hwork => ?_, fun k q hk => ?_⟩
  · by_cases hid : k = hd
    · rw [hid, hself] at hk
      obtain ⟨-, rfl⟩ := Prod.mk.inj (Option.some.inj hk)
      rcases hwork with hp | ⟨threadTs, hp⟩
      · exact nomatch hp
      · exact nomatch hp
    · rw [hother hid] at hk
      exact hg.held k q p hk hwork
  · by_cases hid : k = hd
    · rw [hid, hself] at hk
      exact nomatch (Prod.mk.inj (Option.some.inj hk)).2
    · rw [hother hid] at hk
      exact hkept (hg.stands k q hk)

/-- a handler on its way out deletes its reservation -/
theorem Handed.released {w : World η} (hg : Handed T w) {hd : η} {r : Reaction} {p₀ p : Phase}
    (hw : w.handlers hd = some (r, p₀)) (hacq : p ≠ .acquiring) (hsub : ∀ threadTs, p ≠ .submitting threadTs)
    (hans : p.answers = true) : Handed T { (w.move hd r p) with rows := releaseReservation w.rows hd } := by
  refine hg.moved hw rfl (Onward.refl _) (fun row hrow hid hnone _ => ?_) (fun hwork => ?_) (fun _ => Or.inl hans)
    fun heq => ?_
  · exact ⟨row, mem_releaseReservation.mpr ⟨hrow, fun heq => absurd heq hid⟩, rfl, hnone⟩
  · rcases hwork with hp | ⟨threadTs, hp⟩
    · exact absurd hp hacq
    · exact absurd hp (hsub threadTs)
  · rw [heq] at hans
    exact nomatch hans

/-- who gave way is answered for, over every action that keeps the reservations in use -/
theorem handed_step {tenant : Text} {w w' : World η} {a : Action η} (h : Inv T w) (hg : Handed T w) (hP : InTime w a)
    (hstep : step tenant T w a = some w') : Handed T w' := by
  cases a with
  | tick time =>
    obtain rfl := Option.some.inj hstep
    exact ⟨hg.held, hg.stands⟩
  | start hd r =>
    simp only [step] at hstep
    split at hstep
    · next hnew =>
      obtain rfl := Option.some.inj hstep
      rw [Bool.and_eq_true, Option.isNone_iff_eq_none] at hnew
      exact hg.started hnew.1 r
    · exact nomatch hstep
  | refuse hd =>
    simp only [step] at hstep
    split at hstep
    · next r hw =>
      obtain rfl := Option.some.inj hstep
      exact hg.goes hw (by rintro (hp | ⟨_, hp⟩) <;> exact nomatch hp) nofun nofun
    · exact nomatch hstep
  | reserve hd =>
    simp only [step] at hstep
    split at hstep
    · next r hw =>
      obtain rfl := Option.some.inj hstep
      refine hg.reserved h hw hP (p := fun b => if b then .acquiring else .ended .gaveWay) (fun b hat => ?_) nofun
      cases b with
      | true => rfl
      | false => rcases hat with hp | ⟨_, hp⟩ <;> exact nomatch hp
    · exact nomatch hstep
  | reserveFails hd committed =>
    simp only [step] at hstep
    split at hstep
    · next r hw =>
      obtain rfl := Option.some.inj hstep
      cases committed with
      | false => exact hg.goes hw (by rintro (hp | ⟨_, hp⟩) <;> exact nomatch hp) nofun nofun
      | true =>
        refine hg.reserved h hw hP (p := fun _ => .releasing false) (fun b hat => ?_) nofun
        rcases hat with hp | ⟨_, hp⟩ <;> exact nomatch hp
    · exact nomatch hstep
  | acquire hd =>
    simp only [step] at hstep
    split at hstep
    · next r hw =>
      obtain rfl := Option.some.inj hstep
      exact hg.goes hw (fun _ => rfl) (fun _ => rfl) nofun
    · exact nomatch hstep
  | acquireFails hd raises =>
    simp only [step] at hstep
    split at hstep
    · next r hw =>
      obtain rfl := Option.some.inj hstep
      exact hg.goes hw (fun _ => rfl) (fun _ => rfl) nofun
    · exact nomatch hstep
  | submit hd e now =>
    simp only [step] at hstep
    split at hstep
    · next r threadTs hw =>
      split at hstep
      · obtain rfl := Option.some.inj hstep
        exact hg.goes hw (by rintro (hp | ⟨_, hp⟩) <;> exact nomatch hp) (fun _ => rfl) nofun
      · next s hs =>
        obtain rfl := Option.some.inj hstep
        exact hg.submits h hw hs nofun nofun nofun
    · exact nomatch hstep
  | submitFails hd committed e now =>
    simp only [step] at hstep
    split at hstep
    · next r threadTs hw =>
      split at hstep
      · next s hs =>
        obtain rfl := Option.some.inj hstep
        exact hg.submits h hw hs nofun nofun nofun
      · obtain rfl := Option.some.inj hstep
        exact hg.goes hw (by rintro (hp | ⟨_, hp⟩) <;> exact nomatch hp) (fun _ => rfl) nofun
    · exact nomatch hstep
  | release hd =>
    simp only [step] at hstep
    split at hstep
    · next r raises hw =>
      obtain rfl := Option.some.inj hstep
      cases raises with
      | true => exact hg.released hw nofun nofun rfl
      | false => exact hg.released hw nofun nofun rfl
    · exact nomatch hstep
  | releaseFails hd =>
    simp only [step] at hstep
    split at hstep
    · next r raises hw =>
      obtain rfl := Option.some.inj hstep
      exact hg.goes hw (by rintro (hp | ⟨_, hp⟩) <;> exact nomatch hp) (fun _ => rfl) nofun
    · exact nomatch hstep
  | tell hd =>
    simp only [step] at hstep
    split at hstep
    · next r hw =>
      obtain rfl := Option.some.inj hstep
      exact hg.goes hw (by rintro (hp | ⟨_, hp⟩) <;> exact nomatch hp) (fun _ => rfl) nofun
    · exact nomatch hstep
  | cancel hd =>
    simp only [step] at hstep
    split at hstep
    · next r hw =>
      obtain rfl := Option.some.inj hstep
      exact hg.goes hw (by rintro (hp | ⟨_, hp⟩) <;> exact nomatch hp) (fun _ => rfl) nofun
    · next r hw =>
      obtain rfl := Option.some.inj hstep
      exact hg.goes hw (by rintro (hp | ⟨_, hp⟩) <;> exact nomatch hp) (fun _ => rfl) nofun
    · next r hw =>
      obtain rfl := Option.some.inj hstep
      exact hg.goes hw (by rintro (hp | ⟨_, hp⟩) <;> exact nomatch hp) (fun _ => rfl) nofun
    · next r threadTs hw =>
      obtain rfl := Option.some.inj hstep
      exact hg.goes hw (by rintro (hp | ⟨_, hp⟩) <;> exact nomatch hp) (fun _ => rfl) nofun
    · next r raises hw =>
      obtain rfl := Option.some.inj hstep
      exact hg.goes hw (by rintro (hp | ⟨_, hp⟩) <;> exact nomatch hp) (fun _ => rfl) nofun
    · exact nomatch hstep

/-! ## The runs -/

/-- before any reaction -/
def start : World η := ⟨[], ∅, fun _ => none, 0, []⟩

theorem inv_start : Inv T (start : World η) where
  ids := List.nodup_nil
  threads row hrow := absurd hrow List.not_mem_nil
  rows_ok row hrow := absurd hrow List.not_mem_nil
  has_row id c hc := by
    change (∅ : Db Text Request).lookup id = some c at hc
    rw [AList.lookup_empty] at hc
    exact nomatch hc
  logged h id hlog := absurd hlog List.not_mem_nil
  slack h r p hp := nomatch (show none = some (r, p) from hp)
  at_thread h r threadTs hp := nomatch (show none = some (r, Phase.submitting threadTs) from hp)

theorem handed_start : Handed T (start : World η) where
  held _ r p hp := nomatch (show none = some (r, p) from hp)
  stands _ r hp := nomatch (show none = some (r, Phase.ended .gaveWay) from hp)

/-- who answers, once everyone has finished -/
theorem Handed.answered {w : World η} (hg : Handed T w) (hfinished : Finished w) : Answered T w := by
  intro hd r hw
  rcases hg.stands hd r hw with hq | ⟨k, q, p, hk, hans, hsame⟩
  · exact Or.inl hq
  · obtain ⟨o, rfl⟩ := hfinished k q p hk
    refine Or.inr ⟨k, q, o, ?_, hk, ?_, hsame⟩
    · rintro rfl
      rw [hw] at hk
      rw [← (Prod.mk.inj (Option.some.inj hk)).2] at hans
      exact nomatch hans
    · cases o with
      | told => exact Or.inl rfl
      | raised => exact Or.inr rfl
      | queued => exact nomatch hans
      | gaveWay => exact nomatch hans

/-- over every run of any handlers, one capture a thread and person, and the rows say which; and where no reservation
in use expires, who gave way is answered once everyone has finished -/
theorem one_capture {tenant : Text} {as : List (Action η)} {w : World η}
    (hw : Runs.exec (step tenant T) start as = some w) :
    Recorded w ∧ (Runs.along (step tenant T) InTime start as → Finished w → Answered T w) := by
  refine ⟨(Runs.exec_invariant (fun _ _ _ => inv_step) inv_start hw).recorded, fun hP hfinished => ?_⟩
  have hI : Inv T w ∧ Handed T w :=
    Runs.exec_invariant_along (I := fun w => Inv T w ∧ Handed T w)
      (fun _ _ _ hI hP hstep => ⟨inv_step hI.1 hstep, handed_step hI.1 hI.2 hP hstep⟩) ⟨inv_start, handed_start⟩ hP hw
  exact hI.2.answered hfinished

variable (T) in
/-- who neither queued a capture nor told its person, however it ended, is answered by another -/
def AlwaysAnswered (w : World η) : Prop :=
  ∀ h r o, w.handlers h = some (r, .ended o) → o ≠ .told → (∀ id, (h, id) ∉ w.queuedBy) → Queued T w.db r ∨
    ∃ h' r', h' ≠ h ∧ w.handlers h' = some (r', .ended .told) ∧ SameThread T r r'

end

/-! ## Runs of two handlers -/

/-- no row at all has expired -/
def inTimeCheck (w : World Bool) (_ : Action Bool) : Bool := w.rows.all fun row => !expired w.now row

theorem inTime_of_check (w : World Bool) (a : Action Bool) (h : inTimeCheck w a = true) : InTime w a := by
  have hnone : ∀ row ∈ w.rows, expired w.now row = true → ∀ r p, w.handlers row.id = some (r, p) → ∃ o, p = .ended o := by
    intro row hrow hexp
    have hfresh := List.all_eq_true.mp h row hrow
    rw [hexp] at hfresh
    exact nomatch hfresh
  cases a <;> first | exact hnone | trivial

def oneThread : Threads where
  root := fun _ _ => ['1']
  isSlackId_root := fun _ _ => by decide
  root_root := fun _ _ => rfl

def onMessage (messageTs slackUserId : Text) : Reaction :=
  ⟨['T'], ['C'], messageTs, slackUserId, "ada@example.com".toList⟩

def snapshot : Envelope :=
  let digest := List.replicate 64 'a'
  { captureId := ['1'], idempotencyKey := ['k'], actor := ⟨"ada@example.com".toList, "Ada".toList⟩, audience := none,
    origin := ⟨.mcp, 0, none, none, none, [], none⟩,
    artifacts := [⟨contentRef digest, digest, 5, MEDIA_TEXT, none, none⟩], intent := ⟨none, none⟩ }

theorem finished_of {w : World Bool} {r r' : Reaction} {o o' : Outcome} (h : w.handlers false = some (r, .ended o))
    (h' : w.handlers true = some (r', .ended o')) : Finished w := by
  intro b q p hp
  cases b with
  | false =>
    rw [h] at hp
    exact ⟨o, (Prod.mk.inj (Option.some.inj hp)).2.symm⟩
  | true =>
    rw [h'] at hp
    exact ⟨o', (Prod.mk.inj (Option.some.inj hp)).2.symm⟩

/-- two reactions of one person in a thread: the one to a reply gives way to the reservation of the one to the root -/
def givesWay : List (Action Bool) :=
  [.start false (onMessage ['1'] ['U']), .start true (onMessage ['2'] ['U']), .reserve false, .reserve true,
    .acquire false, .acquire true, .submit true snapshot 5, .submit false snapshot 6]

theorem one_capture_givesWay : ∃ w, Runs.exec (step ['t'] oneThread) start givesWay = some w ∧
    w.handlers true = some (onMessage ['2'] ['U'], .ended .gaveWay) ∧ w.queuedBy.map Prod.fst = [false] ∧
      Recorded w ∧ Answered oneThread w := by
  have hrun : (Runs.exec (step ['t'] oneThread) start givesWay).any (fun w =>
      decide (w.handlers true = some (onMessage ['2'] ['U'], .ended .gaveWay) ∧
        w.handlers false = some (onMessage ['1'] ['U'], .ended .queued) ∧ w.queuedBy.map Prod.fst = [false])) = true := by
    decide +kernel
  obtain ⟨w, hw, h⟩ := (Option.any_eq_true _ _).mp hrun
  obtain ⟨hgave, hqueued, hlog⟩ := of_decide_eq_true h
  have hP : Runs.along (step ['t'] oneThread) InTime start givesWay :=
    Runs.along_of_check inTime_of_check (by decide +kernel)
  obtain ⟨hrecorded, hanswered⟩ := one_capture hw
  exact ⟨w, hw, hgave, hlog, hrecorded, hanswered hP (finished_of hqueued hgave)⟩

/-- two handlers are cancelled before they do anything -/
def cancelled : List (Action Bool) :=
  [.start false (onMessage ['1'] ['U']), .start true (onMessage ['2'] ['U']), .cancel false, .cancel true]

theorem not_answered : ∃ w, Runs.exec (step ['t'] oneThread) start cancelled = some w ∧ Finished w ∧
    ¬AlwaysAnswered oneThread w := by
  have hrun : (Runs.exec (step ['t'] oneThread) start cancelled).any (fun w =>
      decide (w.handlers false = some (onMessage ['1'] ['U'], .ended .raised) ∧
        w.handlers true = some (onMessage ['2'] ['U'], .ended .raised) ∧ w.queuedBy = [] ∧ w.db.keys = [])) = true := by
    decide +kernel
  obtain ⟨w, hw, h⟩ := (Option.any_eq_true _ _).mp hrun
  obtain ⟨hfalse, htrue, hlog, hkeys⟩ := of_decide_eq_true h
  refine ⟨w, hw, finished_of hfalse htrue, fun hanswered => ?_⟩
  have hnolog : ∀ id, (false, id) ∉ w.queuedBy := fun id hid => absurd (hlog ▸ hid) List.not_mem_nil
  rcases hanswered false _ _ hfalse nofun hnolog with ⟨id, c, hc, -⟩ | ⟨b, r, -, hb, -⟩
  · have hmem : id ∈ w.db.keys := AList.mem_keys.mpr (AList.lookup_isSome.mp (Option.isSome_iff_exists.mpr ⟨c, hc⟩))
    rw [hkeys] at hmem
    exact absurd hmem List.not_mem_nil
  · cases b with
    | false =>
      rw [hfalse] at hb
      exact nomatch (Prod.mk.inj (Option.some.inj hb)).2
    | true =>
      rw [htrue] at hb
      exact nomatch (Prod.mk.inj (Option.some.inj hb)).2

end Reactions
