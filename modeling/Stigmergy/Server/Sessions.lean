import Mathlib.Logic.Function.Basic
import Stigmergy.Kernel.Ascii
import Stigmergy.Lib.Runs
import Stigmergy.Lib.Table
import Stigmergy.Server.Roster

/-!
# Tokens and backoffice sessions

The credentials of `server/roster.py`, over the tables of all tenants.  A token is exchanged for a session by three
statements (the token is looked up, old sessions are deleted, the new one is inserted), a session is used by two (it
is looked up, its row is touched); each commits by itself, so anything may happen in between.  A call that is refused
writes nothing and is no action.

* `principalForToken`, `sessionPrincipal`   the two lookups;
* `step`            the statements of any callers in any order;
* `Ends`            what ends a session;
* `accepted_sound`  what a session that is accepted rests on;
* `stays_open`      a session that is used stays open.
-/

set_option linter.unusedSectionVars false

namespace Sessions

def TOKEN_PREFIX : Text := "stg_".toList
def MAX_LABEL_CHARS : ℕ := 80
def MINUTE : Time := 60 * 1000000
def SESSION_IDLE : Time := 8 * 60 * MINUTE
def SESSION_ABSOLUTE : Time := 7 * 24 * 60 * MINUTE

/-- a row of `roster_tokens`, under its id -/
structure TokenRow where
  tenant : Text
  subject : Text
  sha256 : Text
  expiresAt : Option Time
  revokedAt : Option Time
deriving DecidableEq

/-- a row of `roster_sessions`, under the digest of its value -/
structure SessionRow where
  tenant : Text
  subject : Text
  tokenId : Text
  lastSeenAt : Time
  expiresAt : Time
  revokedAt : Option Time
deriving DecidableEq

structure Principal where
  tenant : Text
  subject : Text
  row : Roster.PrincipalRow
deriving DecidableEq

structure Session where
  principal : Principal
  tokenId : Text
  expiresAt : Time
deriving DecidableEq

/-- what a caller is in the middle of -/
inductive Task where
  | idle
  /-- `open_session` has looked the token up -/
  | opening (who : Principal) (tokenId : Text)
  /-- and has deleted old sessions -/
  | purged (who : Principal) (tokenId : Text) (expires : Time)
  /-- `session_principal` has looked the session up -/
  | seen (value : Text)
deriving DecidableEq

section
variable (ι : Type*)

structure State where
  rosters : Text → Roster.Roster
  suspended : Text → Bool
  tokens : AList fun _ : Text => TokenRow
  sessions : AList fun _ : Text => SessionRow
  tasks : ι → Task

inductive Action where
  /-- the transaction of an operation on a tenant's roster -/
  | roster (tenant : Text) (op : Roster.Op) (now : Time) (elsewhere : Option Text)
  | suspend (tenant : Text) (suspended : Bool)
  | issue (tenant : Text) (subject label : Roster.Value) (id token : Text) (expiresAt : Option Time) (clock : Time)
  | revoke (tenant tokenId : Text) (now : Time)
  /-- the statements of `open_session` -/
  | present (i : ι) (token : Text) (now : Time)
  | purge (i : ι) (clock now : Time)
  | insert (i : ι) (value : Text) (now : Time)
  /-- the statements of `session_principal` -/
  | use (i : ι) (value : Text) (now : Time)
  | touch (i : ι) (now : Time)
  | close (value : Text) (now : Time)
  /-- an exception, or the process ends -/
  | fail (i : ι)

end

section
variable {ι : Type*} [DecidableEq ι] (R : Runtime) (upper hashToken : Text → Text)

/-- no credential yet -/
def init (rosters : Text → Roster.Roster) (suspended : Text → Bool) : State ι :=
  ⟨rosters, suspended, ∅, ∅, fun _ => .idle⟩

def State.setTask (s : State ι) (i : ι) (task : Task) : State ι := { s with tasks := Function.update s.tasks i task }

/-! ## lookups -/

def TokenRow.live (t : TokenRow) (now : Time) : Bool :=
  t.revokedAt.isNone &&
    match t.expiresAt with
    | none => true
    | some expires => now < expires

def SessionRow.live (r : SessionRow) (now : Time) : Bool :=
  r.revokedAt.isNone && now < r.expiresAt && now < r.lastSeenAt + SESSION_IDLE

/-- the enabled principal of a row, in a tenant that is not suspended -/
def enabled (s : State ι) (tenant subject : Text) : Option Principal :=
  if s.suspended tenant then none
  else
    (((s.rosters tenant).principals.lookup subject).filter fun row => row.disabledAt.isNone).map fun row =>
      ⟨tenant, subject, row⟩

/-- the enabled principal holding a live token, and that token's id -/
def principalForToken (s : State ι) (token : Text) (now : Time) : Option (Principal × Text) :=
  if token.isEmpty then none
  else
    (Table.select (fun _ t => t.sha256 == hashToken token && t.live now && (enabled s t.tenant t.subject).isSome)
      s.tokens).bind fun e => (enabled s e.2.tenant e.2.subject).map fun who => (who, e.1)

/-- the principal behind a live session -/
def sessionPrincipal (s : State ι) (value : Text) (now : Time) : Option Session :=
  if value.isEmpty then none
  else
    (s.sessions.lookup (hashToken value)).bind fun row =>
      (enabled s row.tenant row.subject).bind fun who =>
        (s.tokens.lookup row.tokenId).bind fun token =>
          if row.live now && token.live now then some ⟨who, row.tokenId, row.expiresAt⟩ else none

/-! ## statements -/

/-- `UPDATE roster_sessions SET revoked_at = now() WHERE … AND revoked_at IS NULL` -/
def revokeSessions (p : Text → SessionRow → Bool) (now : Time) (sessions : AList fun _ : Text => SessionRow) :
    AList fun _ : Text => SessionRow :=
  Table.mapVals (fun key r => if p key r && r.revokedAt.isNone then { r with revokedAt := some now } else r) sessions

/-- a row is touched when it was last seen more than a minute ago -/
def touchSession (key : Text) (now : Time) (sessions : AList fun _ : Text => SessionRow) :
    AList fun _ : Text => SessionRow :=
  Table.mapVals (fun k r => if k == key && r.lastSeenAt + MINUTE < now then { r with lastSeenAt := now } else r)
    sessions

def issueToken (s : State ι) (tenant : Text) (subject label : Roster.Value) (id token : Text)
    (expiresAt : Option Time) (clock : Time) : Except Text (State ι) :=
  match Roster.checkSubject R subject with
  | .error e => .error e
  | .ok subject =>
    let label := Text.oneLine label.orEmpty
    if label.isEmpty || MAX_LABEL_CHARS < label.length then
      .error "a token label of at most 80 characters is required".toList
    else if expiresAt.any (· ≤ clock) then .error "the expiry must be in the future".toList
    else if ((s.rosters tenant).principals.lookup subject).isNone then .error "that identity does not exist".toList
    else
      let row : TokenRow := ⟨tenant, subject, hashToken (TOKEN_PREFIX ++ token), expiresAt, none⟩
      if (s.tokens.lookup id).isSome || (Table.vals s.tokens).any (fun t => t.sha256 == row.sha256) then
        .error "UniqueViolation".toList
      else .ok { s with tokens := s.tokens.insert id row }

def revokeToken (s : State ι) (tenant tokenId : Text) (now : Time) : Except Text (State ι) :=
  match (s.tokens.lookup tokenId).filter fun t => t.tenant == tenant && t.revokedAt.isNone with
  | none => .error "that token does not exist or is already revoked".toList
  | some t => .ok { s with
      tokens := s.tokens.insert tokenId { t with revokedAt := some now }
      sessions := revokeSessions (fun _ r => r.tenant == tenant && r.tokenId == tokenId) now s.sessions }

/-- the subject an operation disables -/
def disabledBy : Roster.Op → Option Text
  | .setDisabled subject true => (Roster.checkSubject R subject).toOption
  | _ => none

/-- the subject an operation deletes -/
def deletedBy : Roster.Op → Option Text
  | .deletePrincipal subject => (Roster.checkSubject R subject).toOption
  | _ => none

/-- the sessions of a principal that is disabled are revoked -/
def revokeDisabled (s : State ι) (tenant : Text) (op : Roster.Op) (now : Time) : State ι :=
  match disabledBy R op with
  | none => s
  | some subject =>
    { s with sessions := revokeSessions (fun _ r => r.tenant == tenant && r.subject == subject) now s.sessions }

/-- the rows of a principal that is deleted go with it, and sessions with their token -/
def cascade (s : State ι) (tenant : Text) (op : Roster.Op) : State ι :=
  match deletedBy R op with
  | none => s
  | some subject =>
    let tokens := Table.keep (fun _ t => !(t.tenant == tenant && t.subject == subject)) s.tokens
    { s with
      tokens := tokens
      sessions := Table.keep (fun _ r => !(r.tenant == tenant && r.subject == subject) &&
        (tokens.lookup r.tokenId).isSome) s.sessions }

def step (s : State ι) : Action ι → Option (State ι)
  | .roster tenant op now elsewhere =>
    match Roster.perform R upper now elsewhere (s.rosters tenant) (s.rosters tenant) op with
    | .error _ => none
    | .ok r =>
      let s := { s with rosters := Function.update s.rosters tenant r }
      some (cascade R (revokeDisabled R s tenant op now) tenant op)
  | .suspend tenant suspended => some { s with suspended := Function.update s.suspended tenant suspended }
  | .issue tenant subject label id token expiresAt clock =>
    (issueToken R hashToken s tenant subject label id token expiresAt clock).toOption
  | .revoke tenant tokenId now => (revokeToken s tenant tokenId now).toOption
  | .present i token now =>
    match s.tasks i with
    | .idle => (principalForToken hashToken s token now).map fun found => s.setTask i (.opening found.1 found.2)
    | _ => none
  | .purge i clock now =>
    match s.tasks i with
    | .opening who tokenId =>
      let old : Text → SessionRow → Bool := fun _ r => r.tenant == who.tenant &&
        (decide (r.expiresAt + SESSION_ABSOLUTE < now) || r.revokedAt.any (· + SESSION_ABSOLUTE < now))
      some ({ s with sessions := Table.keep (fun key r => !old key r) s.sessions }.setTask i
        (.purged who tokenId (clock + SESSION_ABSOLUTE)))
    | _ => none
  | .insert i value now =>
    match s.tasks i with
    | .purged who tokenId expires =>
      -- the primary key and the two foreign keys
      if (s.sessions.lookup (hashToken value)).isNone && (s.tokens.lookup tokenId).isSome &&
          ((s.rosters who.tenant).principals.lookup who.subject).isSome then
        let row : SessionRow := ⟨who.tenant, who.subject, tokenId, now, expires, none⟩
        some ({ s with sessions := s.sessions.insert (hashToken value) row }.setTask i .idle)
      else none
    | _ => none
  | .use i value now =>
    match s.tasks i with
    | .idle => (sessionPrincipal hashToken s value now).map fun _ => s.setTask i (.seen value)
    | _ => none
  | .touch i now =>
    match s.tasks i with
    | .seen value =>
      some ({ s with sessions := touchSession (hashToken value) now s.sessions }.setTask i .idle)
    | _ => none
  | .close value now =>
    some (if value.isEmpty then s
      else { s with sessions := revokeSessions (fun key _ => key == hashToken value) now s.sessions })
  | .fail i => some (s.setTask i .idle)

end

/-! ## one statement -/

section
variable {ι : Type*} [DecidableEq ι] {R : Runtime} {upper hashToken : Text → Text}

def Action.caller : Action ι → Option ι
  | .present i _ _ | .purge i _ _ | .insert i _ _ | .use i _ _ | .touch i _ | .fail i => some i
  | _ => none

/-- the token an action issues -/
def Action.issued : Action ι → Option Text
  | .issue _ _ _ id _ _ _ => some id
  | _ => none

variable (R) in
/-- a principal is disabled or deleted -/
def Disables (tenant subject : Text) : Action ι → Prop
  | .roster t op _ _ => t = tenant ∧ op.disables R subject
  | _ => False

def Revokes (tenant tokenId : Text) : Action ι → Prop
  | .revoke t id _ => t = tenant ∧ id = tokenId
  | _ => False

variable (hashToken) in
def Closes (key : Text) : Action ι → Prop
  | .close value _ => value.isEmpty = false ∧ hashToken value = key
  | _ => False

variable (R hashToken) in
/-- an action that ends the session under `key` -/
def Ends (tenant subject tokenId key : Text) (a : Action ι) : Prop :=
  Disables R tenant subject a ∨ Revokes tenant tokenId a ∨ Closes hashToken key a

theorem lookup_revokeSessions {p : Text → SessionRow → Bool} {now : Time} {sessions : AList fun _ : Text => SessionRow}
    {key : Text} {r : SessionRow} (h : (revokeSessions p now sessions).lookup key = some r) :
    ∃ r₀, sessions.lookup key = some r₀ ∧ r = { r₀ with revokedAt := r.revokedAt } ∧
      (r.revokedAt = none → r = r₀ ∧ p key r = false) := by
  unfold revokeSessions at h
  rw [Table.lookup_mapVals] at h
  obtain ⟨r₀, hr₀, hr⟩ := Option.map_eq_some_iff.mp h
  refine ⟨r₀, hr₀, ?_⟩
  split at hr
  · obtain rfl := hr
    exact ⟨rfl, fun hnone => absurd hnone (Option.some_ne_none now)⟩
  · next hnot =>
    obtain rfl := hr
    refine ⟨rfl, fun hnone => ⟨rfl, ?_⟩⟩
    rw [hnone, Option.isNone_none, Bool.and_true] at hnot
    exact Bool.eq_false_iff.mpr hnot

/-- a subject an operation disables or deletes -/
theorem disables_iff {op : Roster.Op} {subject : Text} :
    op.disables R subject ↔ disabledBy R op = some subject ∨ deletedBy R op = some subject := by
  have hok : ∀ value : Roster.Value, (Roster.checkSubject R value).toOption = some subject ↔
      Roster.checkSubject R value = .ok subject := by
    intro value
    cases Roster.checkSubject R value with
    | error e =>
      constructor
      · intro h
        cases h
      · intro h
        cases h
    | ok t => exact ⟨fun h => by rw [Option.some.inj h], fun h => by rw [Except.ok.inj h]; rfl⟩
  unfold disabledBy deletedBy Roster.Op.disables
  cases op with
  | setDisabled value disabled => cases disabled <;> simp [hok]
  | deletePrincipal value => simp [hok]
  | _ => simp

theorem not_same {tenant subject t u : Text} (h : (!(t == tenant && u == subject)) = true) :
    ¬(t = tenant ∧ u = subject) := by
  rintro ⟨rfl, rfl⟩
  simp at h

/-- a session that the operation of a roster leaves -/
theorem session_settle {s : State ι} {tenant : Text} {op : Roster.Op} {now : Time} {key : Text} {r : SessionRow}
    (h : (cascade R (revokeDisabled R s tenant op now) tenant op).sessions.lookup key = some r) :
    ∃ r₀, s.sessions.lookup key = some r₀ ∧ r = { r₀ with revokedAt := r.revokedAt } ∧
      (r.revokedAt = none → r = r₀ ∧ ¬(r.tenant = tenant ∧ op.disables R r.subject)) := by
  -- what is left of the rows by the deletion
  have hkept : (revokeDisabled R s tenant op now).sessions.lookup key = some r ∧
      ∀ subject, deletedBy R op = some subject → ¬(r.tenant = tenant ∧ r.subject = subject) := by
    unfold cascade at h
    split at h
    · next hnone =>
      refine ⟨h, fun subject hs => ?_⟩
      rw [hnone] at hs
      cases hs
    · next subject hsome =>
      obtain ⟨hr, hp⟩ := Table.lookup_keep.mp h
      refine ⟨hr, fun subject' hs => ?_⟩
      obtain rfl := Option.some.inj (hsome.symm.trans hs)
      exact not_same (Bool.and_eq_true_iff.mp hp).1
  obtain ⟨hr, hdeleted⟩ := hkept
  unfold revokeDisabled at hr
  split at hr
  · next hnone =>
    refine ⟨r, hr, rfl, fun _ => ⟨rfl, fun hd => ?_⟩⟩
    rcases disables_iff.mp hd.2 with hby | hby
    · rw [hnone] at hby
      cases hby
    · exact hdeleted _ hby ⟨hd.1, rfl⟩
  · next subject hsome =>
    obtain ⟨r₀, hr₀, heq, hlive⟩ := lookup_revokeSessions hr
    refine ⟨r₀, hr₀, heq, fun hnone => ⟨(hlive hnone).1, fun hd => ?_⟩⟩
    rcases disables_iff.mp hd.2 with hby | hby
    · have hp := (hlive hnone).2
      rw [Option.some.inj (hsome.symm.trans hby)] at hp
      simp [hd.1] at hp
    · exact hdeleted _ hby ⟨hd.1, rfl⟩

/-- a token that the operation of a roster leaves -/
theorem token_settle {s : State ι} {tenant : Text} {op : Roster.Op} {now : Time} {id : Text} {t : TokenRow}
    (h : (cascade R (revokeDisabled R s tenant op now) tenant op).tokens.lookup id = some t) :
    s.tokens.lookup id = some t ∧
      ∀ subject, deletedBy R op = some subject → ¬(t.tenant = tenant ∧ t.subject = subject) := by
  have hsame : (revokeDisabled R s tenant op now).tokens = s.tokens := by
    unfold revokeDisabled
    split <;> rfl
  unfold cascade at h
  split at h
  · next hnone =>
    rw [hsame] at h
    refine ⟨h, fun subject hs => ?_⟩
    rw [hnone] at hs
    cases hs
  · next subject hsome =>
    rw [hsame] at h
    obtain ⟨ht, hp⟩ := Table.lookup_keep.mp h
    refine ⟨ht, fun subject' hs => ?_⟩
    obtain rfl := Option.some.inj (hsome.symm.trans hs)
    exact not_same hp

theorem rosters_settle (s : State ι) (tenant : Text) (op : Roster.Op) (now : Time) :
    (cascade R (revokeDisabled R s tenant op now) tenant op).rosters = s.rosters ∧
      (cascade R (revokeDisabled R s tenant op now) tenant op).suspended = s.suspended ∧
      (cascade R (revokeDisabled R s tenant op now) tenant op).tasks = s.tasks := by
  unfold cascade revokeDisabled
  split <;> split <;> exact ⟨rfl, rfl, rfl⟩

theorem issueToken_ok {s u : State ι} {tenant : Text} {subject label : Roster.Value} {id token : Text}
    {expiresAt : Option Time} {clock : Time}
    (h : issueToken R hashToken s tenant subject label id token expiresAt clock = .ok u) :
    ∃ name, Roster.checkSubject R subject = .ok name ∧ s.tokens.lookup id = none ∧
      u = { s with
        tokens := s.tokens.insert id ⟨tenant, name, hashToken (TOKEN_PREFIX ++ token), expiresAt, none⟩ } := by
  unfold issueToken at h
  split at h
  · cases h
  · next name hname =>
    obtain ⟨-, h⟩ := Checks.of_ite_error h
    obtain ⟨-, h⟩ := Checks.of_ite_error h
    obtain ⟨-, h⟩ := Checks.of_ite_error h
    obtain ⟨hfree, h⟩ := Checks.of_ite_error h
    rw [Bool.or_eq_true, not_or, Option.not_isSome_iff_eq_none] at hfree
    exact ⟨name, hname, hfree.1, (Except.ok.inj h).symm⟩

theorem revokeToken_ok {s u : State ι} {tenant tokenId : Text} {now : Time}
    (h : revokeToken s tenant tokenId now = .ok u) :
    ∃ t, s.tokens.lookup tokenId = some t ∧ t.tenant = tenant ∧ t.revokedAt = none ∧
      u = { s with
        tokens := s.tokens.insert tokenId { t with revokedAt := some now }
        sessions := revokeSessions (fun _ r => r.tenant == tenant && r.tokenId == tokenId) now s.sessions } := by
  unfold revokeToken at h
  split at h
  · cases h
  · next t ht =>
    obtain ⟨ht, hp⟩ := Option.filter_eq_some_iff.mp ht
    rw [Bool.and_eq_true, beq_iff_eq, Option.isNone_iff_eq_none] at hp
    exact ⟨t, ht, hp.1, hp.2, (Except.ok.inj h).symm⟩

theorem toOption_eq_some {ε α : Type*} {x : Except ε α} {a : α} (h : x.toOption = some a) : x = .ok a := by
  cases x with
  | error e => cases h
  | ok b => rw [Option.some.inj h]

/-- a token after a statement was issued by it, or was there before -/
theorem token_step {s u : State ι} {a : Action ι} (h : step R upper hashToken s a = some u) {id : Text} {t : TokenRow}
    (ht : u.tokens.lookup id = some t) :
    (∃ subject label token clock, a = .issue t.tenant subject label id token t.expiresAt clock ∧
      Roster.checkSubject R subject = .ok t.subject ∧ t.sha256 = hashToken (TOKEN_PREFIX ++ token) ∧
      s.tokens.lookup id = none) ∨
    ∃ t₀, s.tokens.lookup id = some t₀ ∧ t = { t₀ with revokedAt := t.revokedAt } ∧
      (t.revokedAt = none → t = t₀ ∧ ¬Revokes t.tenant id a) := by
  -- a statement on other tables
  have hsame : ∀ {a : Action ι}, s.tokens.lookup id = some t → ¬Revokes t.tenant id a →
      ∃ t₀, s.tokens.lookup id = some t₀ ∧ t = { t₀ with revokedAt := t.revokedAt } ∧
        (t.revokedAt = none → t = t₀ ∧ ¬Revokes t.tenant id a) :=
    fun h₀ hr => ⟨t, h₀, rfl, fun _ => ⟨rfl, hr⟩⟩
  cases a with
  | roster tenant op now elsewhere =>
    simp only [step] at h
    split at h
    · cases h
    · obtain rfl := Option.some.inj h
      exact Or.inr (hsame (token_settle ht).1 not_false)
  | suspend tenant suspended =>
    obtain rfl := Option.some.inj h
    exact Or.inr (hsame ht not_false)
  | issue tenant subject label id' token expiresAt clock =>
    obtain ⟨name, hname, hfree, rfl⟩ := issueToken_ok (toOption_eq_some h)
    change (s.tokens.insert id' _).lookup id = some t at ht
    rw [Table.lookup_insert_eq] at ht
    split at ht
    · next hid =>
      obtain rfl := Option.some.inj ht
      rw [hid]
      exact Or.inl ⟨subject, label, token, clock, rfl, hname, rfl, hfree⟩
    · exact Or.inr (hsame ht not_false)
  | revoke tenant id' now =>
    obtain ⟨t', ht', htenant, -, rfl⟩ := revokeToken_ok (toOption_eq_some h)
    change (s.tokens.insert id' _).lookup id = some t at ht
    rw [Table.lookup_insert_eq] at ht
    split at ht
    · next hid =>
      obtain rfl := Option.some.inj ht
      rw [hid]
      exact Or.inr ⟨t', ht', rfl, fun hnone => absurd hnone (Option.some_ne_none now)⟩
    · next hid => exact Or.inr (hsame ht fun hr => hid hr.2.symm)
  | close value now =>
    simp only [step] at h
    obtain rfl := Option.some.inj h
    split at ht <;> exact Or.inr (hsame ht not_false)
  | fail i =>
    obtain rfl := Option.some.inj h
    exact Or.inr (hsame ht not_false)
  | present i token now =>
    simp only [step] at h
    split at h
    · obtain ⟨found, -, rfl⟩ := Option.map_eq_some_iff.mp h
      exact Or.inr (hsame ht not_false)
    · cases h
  | purge i clock now =>
    simp only [step] at h
    split at h
    · obtain rfl := Option.some.inj h
      exact Or.inr (hsame ht not_false)
    · cases h
  | insert i value now =>
    simp only [step] at h
    split at h
    · split at h
      · obtain rfl := Option.some.inj h
        exact Or.inr (hsame ht not_false)
      · cases h
    · cases h
  | use i value now =>
    simp only [step] at h
    split at h
    · obtain ⟨found, -, rfl⟩ := Option.map_eq_some_iff.mp h
      exact Or.inr (hsame ht not_false)
    · cases h
  | touch i now =>
    simp only [step] at h
    split at h
    · obtain rfl := Option.some.inj h
      exact Or.inr (hsame ht not_false)
    · cases h

/-- a session after a statement was inserted by it, or was there before -/
theorem session_step {s u : State ι} {a : Action ι} (h : step R upper hashToken s a = some u) {key : Text}
    {r : SessionRow} (hr : u.sessions.lookup key = some r) :
    (∃ i value now who id expires, a = .insert i value now ∧ hashToken value = key ∧
      s.tasks i = .purged who id expires ∧ r = ⟨who.tenant, who.subject, id, now, expires, none⟩) ∨
    ∃ r₀, s.sessions.lookup key = some r₀ ∧ r = { r₀ with lastSeenAt := r.lastSeenAt, revokedAt := r.revokedAt } ∧
      (r.revokedAt = none → r₀.revokedAt = none ∧ ¬Ends R hashToken r.tenant r.subject r.tokenId key a) ∧
      (r.lastSeenAt = r₀.lastSeenAt ∨ ∃ i value, a = .touch i r.lastSeenAt ∧ s.tasks i = .seen value ∧
        hashToken value = key ∧ r₀.lastSeenAt ≤ r.lastSeenAt) := by
  have hends : ∀ {a : Action ι} {tenant subject id : Text}, ¬Disables R tenant subject a → ¬Revokes tenant id a →
      ¬Closes hashToken key a → ¬Ends R hashToken tenant subject id key a := fun h₁ h₂ h₃ h => h.elim h₁ (Or.rec h₂ h₃)
  have hsame : ∀ {a : Action ι}, s.sessions.lookup key = some r → ¬Ends R hashToken r.tenant r.subject r.tokenId key a →
      ∃ r₀, s.sessions.lookup key = some r₀ ∧ r = { r₀ with lastSeenAt := r.lastSeenAt, revokedAt := r.revokedAt } ∧
        (r.revokedAt = none → r₀.revokedAt = none ∧ ¬Ends R hashToken r.tenant r.subject r.tokenId key a) ∧
        (r.lastSeenAt = r₀.lastSeenAt ∨ ∃ i value, a = .touch i r.lastSeenAt ∧ s.tasks i = .seen value ∧
          hashToken value = key ∧ r₀.lastSeenAt ≤ r.lastSeenAt) :=
    fun h₀ he => ⟨r, h₀, rfl, fun hnone => ⟨hnone, he⟩, Or.inl rfl⟩
  cases a with
  | roster tenant op now elsewhere =>
    simp only [step] at h
    split at h
    · cases h
    · obtain rfl := Option.some.inj h
      obtain ⟨r₀, hr₀, heq, hlive⟩ := session_settle hr
      refine Or.inr ⟨r₀, hr₀, by rw [heq], fun hnone => ⟨?_, hends (fun hd => (hlive hnone).2 ⟨hd.1.symm, hd.2⟩)
        not_false not_false⟩, Or.inl (by rw [heq])⟩
      rw [← (hlive hnone).1]
      exact hnone
  | suspend tenant suspended =>
    obtain rfl := Option.some.inj h
    exact Or.inr (hsame hr (hends not_false not_false not_false))
  | issue tenant subject label id' token expiresAt clock =>
    obtain ⟨name, -, -, rfl⟩ := issueToken_ok (toOption_eq_some h)
    exact Or.inr (hsame hr (hends not_false not_false not_false))
  | revoke tenant id' now =>
    obtain ⟨t', -, -, -, rfl⟩ := revokeToken_ok (toOption_eq_some h)
    obtain ⟨r₀, hr₀, heq, hlive⟩ := lookup_revokeSessions hr
    refine Or.inr ⟨r₀, hr₀, by rw [heq], fun hnone => ⟨?_, hends not_false (fun hv => ?_) not_false⟩,
      Or.inl (by rw [heq])⟩
    · rw [← (hlive hnone).1]
      exact hnone
    · have hp := (hlive hnone).2
      rw [hv.1, hv.2] at hp
      simp at hp
  | close value now =>
    simp only [step] at h
    obtain rfl := Option.some.inj h
    split at hr
    · next hempty => exact Or.inr (hsame hr (hends not_false not_false fun hc => by rw [hc.1] at hempty; cases hempty))
    · obtain ⟨r₀, hr₀, heq, hlive⟩ := lookup_revokeSessions hr
      refine Or.inr ⟨r₀, hr₀, by rw [heq], fun hnone => ⟨?_, hends not_false not_false fun hc => ?_⟩,
        Or.inl (by rw [heq])⟩
      · rw [← (hlive hnone).1]
        exact hnone
      · have hp := (hlive hnone).2
        rw [hc.2] at hp
        simp at hp
  | fail i =>
    obtain rfl := Option.some.inj h
    exact Or.inr (hsame hr (hends not_false not_false not_false))
  | present i token now =>
    simp only [step] at h
    split at h
    · obtain ⟨found, -, rfl⟩ := Option.map_eq_some_iff.mp h
      exact Or.inr (hsame hr (hends not_false not_false not_false))
    · cases h
  | purge i clock now =>
    simp only [step] at h
    split at h
    · obtain rfl := Option.some.inj h
      exact Or.inr (hsame (Table.lookup_keep.mp hr).1 (hends not_false not_false not_false))
    · cases h
  | insert i value now =>
    simp only [step] at h
    split at h
    · next who id expires htask =>
      split at h
      · obtain rfl := Option.some.inj h
        change (s.sessions.insert (hashToken value) _).lookup key = some r at hr
        rw [Table.lookup_insert_eq] at hr
        split at hr
        · next hkey =>
          exact Or.inl ⟨i, value, now, who, id, expires, rfl, hkey.symm, htask, (Option.some.inj hr).symm⟩
        · exact Or.inr (hsame hr (hends not_false not_false not_false))
      · cases h
    · cases h
  | use i value now =>
    simp only [step] at h
    split at h
    · obtain ⟨found, -, rfl⟩ := Option.map_eq_some_iff.mp h
      exact Or.inr (hsame hr (hends not_false not_false not_false))
    · cases h
  | touch i now =>
    simp only [step] at h
    split at h
    · next value htask =>
      obtain rfl := Option.some.inj h
      change (touchSession (hashToken value) now s.sessions).lookup key = some r at hr
      unfold touchSession at hr
      rw [Table.lookup_mapVals] at hr
      obtain ⟨r₀, hr₀, hrow⟩ := Option.map_eq_some_iff.mp hr
      split at hrow
      · next hold =>
        rw [Bool.and_eq_true, beq_iff_eq, decide_eq_true_iff] at hold
        obtain rfl := hrow
        exact Or.inr ⟨r₀, hr₀, rfl, fun hnone => ⟨hnone, hends not_false not_false not_false⟩,
          Or.inr ⟨i, value, rfl, htask, hold.1.symm, ((Nat.le_add_right _ _).trans_lt hold.2).le⟩⟩
      · obtain rfl := hrow
        exact Or.inr (hsame hr₀ (hends not_false not_false not_false))
    · cases h

/-- where a caller is after a statement -/
theorem task_step {s u : State ι} {a : Action ι} (h : step R upper hashToken s a = some u) {i : ι} {task : Task}
    (ht : u.tasks i = task) :
    (a.caller ≠ some i ∧ s.tasks i = task) ∨ (a.caller = some i ∧ task = .idle) ∨
    (∃ token now who id, a = .present i token now ∧ principalForToken hashToken s token now = some (who, id) ∧
      task = .opening who id) ∨
    (∃ clock now who id, a = .purge i clock now ∧ s.tasks i = .opening who id ∧
      task = .purged who id (clock + SESSION_ABSOLUTE)) ∨
    ∃ value now, a = .use i value now ∧ task = .seen value := by
  have hset : ∀ {s : State ι} {j : ι} {new : Task}, (s.setTask j new).tasks i = task →
      (j ≠ i ∧ s.tasks i = task) ∨ (j = i ∧ new = task) := by
    intro s j new hu
    change Function.update s.tasks j new i = task at hu
    by_cases hj : i = j
    · subst hj
      rw [Function.update_self] at hu
      exact Or.inr ⟨rfl, hu⟩
    · rw [Function.update_of_ne hj] at hu
      exact Or.inl ⟨Ne.symm hj, hu⟩
  have hother : ∀ {j : ι}, j ≠ i → some j ≠ some i := fun hj he => hj (Option.some.inj he)
  cases a with
  | roster tenant op now elsewhere =>
    simp only [step] at h
    split at h
    · cases h
    · obtain rfl := Option.some.inj h
      rw [(rosters_settle _ tenant op now).2.2] at ht
      exact Or.inl ⟨(Option.some_ne_none i).symm, ht⟩
  | suspend tenant suspended =>
    obtain rfl := Option.some.inj h
    exact Or.inl ⟨(Option.some_ne_none i).symm, ht⟩
  | issue tenant subject label id' token expiresAt clock =>
    obtain ⟨name, -, -, rfl⟩ := issueToken_ok (toOption_eq_some h)
    exact Or.inl ⟨(Option.some_ne_none i).symm, ht⟩
  | revoke tenant id' now =>
    obtain ⟨t', -, -, -, rfl⟩ := revokeToken_ok (toOption_eq_some h)
    exact Or.inl ⟨(Option.some_ne_none i).symm, ht⟩
  | close value now =>
    simp only [step] at h
    obtain rfl := Option.some.inj h
    split at ht <;> exact Or.inl ⟨(Option.some_ne_none i).symm, ht⟩
  | fail j =>
    obtain rfl := Option.some.inj h
    rcases hset ht with ⟨hj, ht⟩ | ⟨hj, hnew⟩
    · exact Or.inl ⟨hother hj, ht⟩
    · exact Or.inr (Or.inl ⟨congrArg some hj, hnew.symm⟩)
  | present j token now =>
    simp only [step] at h
    split at h
    · obtain ⟨found, hfound, rfl⟩ := Option.map_eq_some_iff.mp h
      rcases hset ht with ⟨hj, ht⟩ | ⟨rfl, hnew⟩
      · exact Or.inl ⟨hother hj, ht⟩
      · exact Or.inr (Or.inr (Or.inl ⟨token, now, found.1, found.2, rfl, hfound, hnew.symm⟩))
    · cases h
  | purge j clock now =>
    simp only [step] at h
    split at h
    · next who id htask =>
      obtain rfl := Option.some.inj h
      rcases hset ht with ⟨hj, ht⟩ | ⟨rfl, hnew⟩
      · exact Or.inl ⟨hother hj, ht⟩
      · exact Or.inr (Or.inr (Or.inr (Or.inl ⟨clock, now, who, id, rfl, htask, hnew.symm⟩)))
    · cases h
  | insert j value now =>
    simp only [step] at h
    split at h
    · split at h
      · obtain rfl := Option.some.inj h
        rcases hset ht with ⟨hj, ht⟩ | ⟨hj, hnew⟩
        · exact Or.inl ⟨hother hj, ht⟩
        · exact Or.inr (Or.inl ⟨congrArg some hj, hnew.symm⟩)
      · cases h
    · cases h
  | use j value now =>
    simp only [step] at h
    split at h
    · obtain ⟨session, -, rfl⟩ := Option.map_eq_some_iff.mp h
      rcases hset ht with ⟨hj, ht⟩ | ⟨rfl, hnew⟩
      · exact Or.inl ⟨hother hj, ht⟩
      · exact Or.inr (Or.inr (Or.inr (Or.inr ⟨value, now, rfl, hnew.symm⟩)))
    · cases h
  | touch j now =>
    simp only [step] at h
    split at h
    · obtain rfl := Option.some.inj h
      rcases hset ht with ⟨hj, ht⟩ | ⟨hj, hnew⟩
      · exact Or.inl ⟨hother hj, ht⟩
      · exact Or.inr (Or.inl ⟨congrArg some hj, hnew.symm⟩)
    · cases h

/-! ## lookups that succeed -/

theorem enabled_eq_some {s : State ι} {tenant subject : Text} {who : Principal}
    (h : enabled s tenant subject = some who) : who.tenant = tenant ∧ who.subject = subject ∧
      s.suspended tenant = false ∧ (s.rosters tenant).principals.lookup subject = some who.row ∧
      who.row.disabledAt = none := by
  unfold enabled at h
  split at h
  · cases h
  · next hlive =>
    obtain ⟨row, hrow, rfl⟩ := Option.map_eq_some_iff.mp h
    obtain ⟨hrow, hnone⟩ := Option.filter_eq_some_iff.mp hrow
    exact ⟨rfl, rfl, Bool.eq_false_iff.mpr hlive, hrow, Option.isNone_iff_eq_none.mp hnone⟩

theorem principalForToken_row {s : State ι} {token : Text} {now : Time} {who : Principal} {id : Text}
    (h : principalForToken hashToken s token now = some (who, id)) :
    ∃ t, s.tokens.lookup id = some t ∧ t.tenant = who.tenant ∧ t.subject = who.subject := by
  unfold principalForToken at h
  split at h
  · cases h
  · obtain ⟨e, he, hwho⟩ := Option.bind_eq_some_iff.mp h
    obtain ⟨who', hwho', heq⟩ := Option.map_eq_some_iff.mp hwho
    obtain ⟨rfl, rfl⟩ := Prod.mk.inj heq
    obtain ⟨htenant, hsubject, -⟩ := enabled_eq_some hwho'
    exact ⟨e.2, (Table.select_eq_some he).1, htenant.symm, hsubject.symm⟩

/-- a session is accepted on its row, its principal and its token -/
theorem sessionPrincipal_eq_some {s : State ι} {value : Text} {now : Time} {session : Session} :
    sessionPrincipal hashToken s value now = some session ↔ value.isEmpty = false ∧
      ∃ r t, s.sessions.lookup (hashToken value) = some r ∧ s.tokens.lookup r.tokenId = some t ∧
        enabled s r.tenant r.subject = some session.principal ∧ session.tokenId = r.tokenId ∧
        session.expiresAt = r.expiresAt ∧ r.live now = true ∧ t.live now = true := by
  unfold sessionPrincipal
  split
  · next hempty => simp [hempty]
  · next hvalue =>
    constructor
    · intro h
      obtain ⟨r, hr, h⟩ := Option.bind_eq_some_iff.mp h
      obtain ⟨who, hwho, h⟩ := Option.bind_eq_some_iff.mp h
      obtain ⟨t, ht, h⟩ := Option.bind_eq_some_iff.mp h
      split at h
      · next hlive =>
        obtain rfl := Option.some.inj h
        rw [Bool.and_eq_true] at hlive
        exact ⟨Bool.eq_false_iff.mpr hvalue, r, t, hr, ht, hwho, rfl, rfl, hlive.1, hlive.2⟩
      · cases h
    · rintro ⟨-, r, t, hr, ht, hwho, hid, hexpires, hrow, htoken⟩
      rw [hr, Option.bind_some, hwho, Option.bind_some, ht, Option.bind_some, hrow, htoken]
      obtain ⟨who, id, expires⟩ := session
      obtain rfl := hid
      obtain rfl := hexpires
      rfl

/-! ## what an accepted session rests on -/

section
variable (R upper hashToken) (rosters : Text → Roster.Roster) (suspended : Text → Bool)

/-- `tokenId` was issued for a principal, and was not revoked since -/
def Issued (tenant subject tokenId : Text) (expiresAt : Option Time) (as : List (Action ι)) : Prop :=
  Runs.Since (fun _ a => ∃ value label token clock, a = .issue tenant value label tokenId token expiresAt clock ∧
    Roster.checkSubject R value = .ok subject) (fun a => ¬Revokes tenant tokenId a) as

/-- `i` presented a live token, and has at most deleted old sessions since -/
def Presented (i : ι) (tenant subject tokenId : Text) (as : List (Action ι)) : Prop :=
  Runs.Since (fun bs a => ∃ token now s who, a = .present i token now ∧
      Runs.exec (step R upper hashToken) (init rosters suspended) bs = some s ∧
      principalForToken hashToken s token now = some (who, tokenId) ∧ who.tenant = tenant ∧ who.subject = subject)
    (fun a => a.caller = some i → ∃ clock now, a = .purge i clock now) as

/-- the session under `key` was opened by a caller that presented its token, and nothing has ended it since -/
def Opened (tenant subject tokenId key : Text) (expiresAt : Time) (as : List (Action ι)) : Prop :=
  Runs.Since (fun bs a => ∃ i value now clock purgedAt, a = .insert i value now ∧ hashToken value = key ∧
      Presented R upper hashToken rosters suspended i tenant subject tokenId bs ∧
      Runs.Since (fun _ b => b = .purge i clock purgedAt) (fun b => b.caller ≠ some i) bs ∧
      expiresAt = clock + SESSION_ABSOLUTE)
    (fun a => ¬Ends R hashToken tenant subject tokenId key a) as

/-- `i` has looked a session up -/
def Used (i : ι) (value : Text) (as : List (Action ι)) : Prop :=
  Runs.Since (fun _ a => ∃ now, a = .use i value now) (fun a => a.caller ≠ some i) as

/-- the session under `key` was opened at a time, or touched by a caller that had looked it up -/
def SeenAt (key : Text) (seen : Time) (as : List (Action ι)) : Prop :=
  Runs.Since (fun bs a => ∃ i value, hashToken value = key ∧
    (a = .insert i value seen ∨ (a = .touch i seen ∧ Used i value bs))) (fun _ => True) as

end

def issuedIds (as : List (Action ι)) : List Text := as.filterMap Action.issued

theorem issuedIds_snoc (as : List (Action ι)) (a : Action ι) :
    issuedIds (as ++ [a]) = issuedIds as ++ a.issued.toList := by
  unfold issuedIds
  rw [List.filterMap_append]
  cases hid : a.issued with
  | none => rw [List.filterMap_cons_none hid]; rfl
  | some id => rw [List.filterMap_cons_some hid]; rfl

/-- a token that was issued, and is the principal's while it exists -/
def TokenOf (s : State ι) (as : List (Action ι)) (tenant subject tokenId : Text) : Prop :=
  tokenId ∈ issuedIds as ∧ ∀ t, s.tokens.lookup tokenId = some t → t.tenant = tenant ∧ t.subject = subject

section
variable {rosters : Text → Roster.Roster} {suspended : Text → Bool}

variable (R upper hashToken rosters suspended) in
structure Inv (as : List (Action ι)) (s : State ι) : Prop where
  reached : Runs.exec (step R upper hashToken) (init rosters suspended) as = some s
  token : ∀ id t, s.tokens.lookup id = some t →
    TokenOf s as t.tenant t.subject id ∧ (t.revokedAt = none → Issued R t.tenant t.subject id t.expiresAt as)
  session : ∀ key r, s.sessions.lookup key = some r → TokenOf s as r.tenant r.subject r.tokenId ∧
    SeenAt hashToken key r.lastSeenAt as ∧ (r.revokedAt = none →
      Opened R upper hashToken rosters suspended r.tenant r.subject r.tokenId key r.expiresAt as)
  opening : ∀ i who id, s.tasks i = .opening who id → TokenOf s as who.tenant who.subject id ∧
    Presented R upper hashToken rosters suspended i who.tenant who.subject id as
  purged : ∀ i who id expires, s.tasks i = .purged who id expires → TokenOf s as who.tenant who.subject id ∧
    Presented R upper hashToken rosters suspended i who.tenant who.subject id as ∧
    ∃ clock now, Runs.Since (fun _ b => b = .purge i clock now) (fun b => b.caller ≠ some i) as ∧
      expires = clock + SESSION_ABSOLUTE
  used : ∀ i value, s.tasks i = .seen value → Used i value as

theorem mem_issuedIds_snoc {as : List (Action ι)} {a : Action ι} {id : Text} (h : id ∈ issuedIds as) :
    id ∈ issuedIds (as ++ [a]) := by
  rw [issuedIds_snoc]
  exact List.mem_append_left _ h

/-- what is issued has not been issued before -/
theorem TokenOf.snoc {s u : State ι} {as : List (Action ι)} {a : Action ι} {tenant subject id : Text}
    (h : TokenOf s as tenant subject id) (hstep : step R upper hashToken s a = some u)
    (hfresh : (issuedIds (as ++ [a])).Nodup) : TokenOf u (as ++ [a]) tenant subject id := by
  refine ⟨mem_issuedIds_snoc h.1, fun t ht => ?_⟩
  rcases token_step hstep ht with ⟨value, label, token, clock, rfl, -, -, -⟩ | ⟨t₀, ht₀, heq, -⟩
  · rw [issuedIds_snoc] at hfresh
    exact absurd rfl ((List.nodup_append.mp hfresh).2.2 id h.1 id (List.mem_singleton.mpr rfl))
  · rw [heq]
    exact h.2 t₀ ht₀

theorem Inv.step {as : List (Action ι)} {s u : State ι} {a : Action ι}
    (h : Inv R upper hashToken rosters suspended as s) (hstep : step R upper hashToken s a = some u)
    (hfresh : (issuedIds (as ++ [a])).Nodup) :
    Inv R upper hashToken rosters suspended (as ++ [a]) u := by
  refine ⟨(Runs.exec_append_eq_some _).mpr ⟨s, h.reached, by rw [Runs.exec_cons, hstep]; rfl⟩, fun id t ht => ?_,
    fun key r hr => ?_, fun i who id ht => ?_, fun i who id expires ht => ?_, fun i value ht => ?_⟩
  · rcases token_step hstep ht with ⟨value, label, token, clock, rfl, hsubject, -, -⟩ | ⟨t₀, ht₀, heq, hlive⟩
    · refine ⟨⟨?_, fun t' ht' => ?_⟩, fun _ => Runs.Since.now ⟨value, label, token, clock, rfl, hsubject⟩⟩
      · rw [issuedIds_snoc]
        exact List.mem_append_right _ (List.mem_singleton.mpr rfl)
      · rw [Option.some.inj (ht'.symm.trans ht)]
        exact ⟨rfl, rfl⟩
    · have hof := (h.token id t₀ ht₀).1
      refine ⟨?_, fun hnone => ?_⟩
      · rw [heq]
        exact hof.snoc hstep hfresh
      · obtain ⟨rfl, hnot⟩ := hlive hnone
        exact ((h.token id t ht₀).2 hnone).snoc hnot
  · rcases session_step hstep hr with
      ⟨i, value, now, who, id, expires, rfl, hkey, htask, rfl⟩ | ⟨r₀, hr₀, heq, hlive, hseen⟩
    · obtain ⟨hof, hpresented, clock, purgedAt, hpurged, hexpires⟩ := h.purged i who id expires htask
      exact ⟨hof.snoc hstep hfresh, Runs.Since.now ⟨i, value, hkey, Or.inl rfl⟩,
        fun _ => Runs.Since.now ⟨i, value, now, clock, purgedAt, rfl, hkey, hpresented, hpurged, hexpires⟩⟩
    · obtain ⟨hof, hseenAt, hopened⟩ := h.session key r₀ hr₀
      refine ⟨?_, ?_, fun hnone => ?_⟩
      · rw [heq]
        exact hof.snoc hstep hfresh
      · rcases hseen with hsame | ⟨i, value, rfl, htask, hkey, -⟩
        · rw [hsame]
          exact hseenAt.snoc True.intro
        · exact Runs.Since.now ⟨i, value, hkey, Or.inr ⟨rfl, h.used i value htask⟩⟩
      · obtain ⟨hnone₀, hnot⟩ := hlive hnone
        rw [heq] at hnot ⊢
        exact (hopened hnone₀).snoc hnot
  · rcases task_step hstep ht with ⟨hother, ht⟩ | hidle | ⟨token, now, who', id', rfl, hfound, heq⟩ |
      ⟨clock, now, who', id', -, -, heq⟩ | ⟨value, now, -, heq⟩
    · obtain ⟨hof, hpresented⟩ := h.opening i who id ht
      exact ⟨hof.snoc hstep hfresh, hpresented.snoc fun hcaller => absurd hcaller hother⟩
    · cases hidle.2
    · obtain ⟨rfl, rfl⟩ := Task.opening.inj heq
      refine ⟨?_, Runs.Since.now ⟨token, now, s, who, rfl, h.reached, hfound, rfl, rfl⟩⟩
      obtain ⟨t, ht, htenant, hsubject⟩ := principalForToken_row hfound
      have hof := (h.token id t ht).1
      rw [htenant, hsubject] at hof
      exact hof.snoc hstep hfresh
    · cases heq
    · cases heq
  · rcases task_step hstep ht with ⟨hother, ht⟩ | hidle | ⟨token, now, who', id', -, -, heq⟩ |
      ⟨clock, now, who', id', rfl, htask, heq⟩ | ⟨value, now, -, heq⟩
    · obtain ⟨hof, hpresented, clock, now, hpurged, hexpires⟩ := h.purged i who id expires ht
      exact ⟨hof.snoc hstep hfresh, hpresented.snoc fun hcaller => absurd hcaller hother, clock, now,
        hpurged.snoc hother, hexpires⟩
    · cases hidle.2
    · cases heq
    · obtain ⟨rfl, rfl, rfl⟩ := Task.purged.inj heq
      obtain ⟨hof, hpresented⟩ := h.opening i who id htask
      exact ⟨hof.snoc hstep hfresh, hpresented.snoc fun _ => ⟨clock, now, rfl⟩, clock, now, Runs.Since.now rfl, rfl⟩
    · cases heq
  · rcases task_step hstep ht with ⟨hother, ht⟩ | hidle | ⟨token, now, who', id', -, -, heq⟩ |
      ⟨clock, now, who', id', -, -, heq⟩ | ⟨value', now, rfl, heq⟩
    · exact (h.used i value ht).snoc hother
    · cases hidle.2
    · cases heq
    · cases heq
    · rw [Task.seen.inj heq]
      exact Runs.Since.now ⟨now, rfl⟩

theorem inv_init : Inv R upper hashToken rosters suspended ([] : List (Action ι)) (init rosters suspended) := by
  refine ⟨rfl, fun id t ht => ?_, fun key r hr => ?_, fun i who id ht => ?_, fun i who id expires ht => ?_,
    fun i value ht => ?_⟩
  · change (∅ : AList fun _ : Text => TokenRow).lookup id = some t at ht
    rw [AList.lookup_empty] at ht
    cases ht
  · change (∅ : AList fun _ : Text => SessionRow).lookup key = some r at hr
    rw [AList.lookup_empty] at hr
    cases hr
  · cases ht
  · cases ht
  · cases ht

theorem inv_run {as : List (Action ι)} {s : State ι}
    (hrun : Runs.exec (Sessions.step R upper hashToken) (init rosters suspended) as = some s)
    (hfresh : (issuedIds as).Nodup) : Inv R upper hashToken rosters suspended as s := by
  have hall := Runs.exec_history (I := fun as s => (issuedIds as).Nodup → Inv R upper hashToken rosters suspended as s)
    (fun _ => inv_init) (fun as t a u ih hstep hnodup => ?_) hrun
  · exact hall hfresh
  · refine (ih ?_).step hstep hnodup
    rw [issuedIds_snoc] at hnodup
    exact (List.nodup_append.mp hnodup).1

theorem SessionRow.live_iff {r : SessionRow} {now : Time} :
    r.live now = true ↔ r.revokedAt = none ∧ now < r.expiresAt ∧ now < r.lastSeenAt + SESSION_IDLE := by
  unfold SessionRow.live
  rw [Bool.and_eq_true, Bool.and_eq_true, Option.isNone_iff_eq_none, decide_eq_true_iff, decide_eq_true_iff, and_assoc]

theorem TokenRow.live_iff {t : TokenRow} {now : Time} :
    t.live now = true ↔ t.revokedAt = none ∧ ∀ expires, t.expiresAt = some expires → now < expires := by
  unfold TokenRow.live
  rw [Bool.and_eq_true, Option.isNone_iff_eq_none]
  refine and_congr_right fun _ => ?_
  cases t.expiresAt with
  | none => simp
  | some expires => simp

/-- In every run of any callers, a session that is accepted was opened by a caller that presented its token while it
was live and its principal enabled; since it was opened the principal was not disabled or deleted, the session not
closed, and since it was issued the token not revoked, also not while the session was being opened.  It has not
expired, its token neither, it was opened or used less than the idle time ago, and its principal is enabled now, in a
tenant that is not suspended. -/
theorem accepted_sound {as : List (Action ι)} {s : State ι}
    (hrun : Runs.exec (Sessions.step R upper hashToken) (init rosters suspended) as = some s)
    (hfresh : (issuedIds as).Nodup) {value : Text} {now : Time} {session : Session}
    (h : sessionPrincipal hashToken s value now = some session) :
    let who := session.principal
    enabled s who.tenant who.subject = some who ∧ now < session.expiresAt ∧
      Opened R upper hashToken rosters suspended who.tenant who.subject session.tokenId (hashToken value)
        session.expiresAt as ∧
      (∃ seen, now < seen + SESSION_IDLE ∧ SeenAt hashToken (hashToken value) seen as) ∧
      ∃ expiresAt, Issued R who.tenant who.subject session.tokenId expiresAt as ∧
        ∀ expires, expiresAt = some expires → now < expires := by
  intro who
  obtain ⟨-, r, t, hr, ht, hwho, hid, hexpires, hrow, htoken⟩ := sessionPrincipal_eq_some.mp h
  obtain ⟨htenant, hsubject, -⟩ := enabled_eq_some hwho
  obtain ⟨hopen, hnow, hidle⟩ := SessionRow.live_iff.mp hrow
  obtain ⟨hunrevoked, hunexpired⟩ := TokenRow.live_iff.mp htoken
  have hinv := inv_run hrun hfresh
  obtain ⟨hof, hseen, hopened⟩ := hinv.session _ r hr
  have hissued := (hinv.token _ t ht).2 hunrevoked
  rw [(hof.2 t ht).1, (hof.2 t ht).2] at hissued
  rw [← htenant, ← hsubject] at hwho hissued hopened
  rw [hid, hexpires]
  exact ⟨hwho, hnow, hopened hopen, ⟨_, hidle, hseen⟩, _, hissued, hunexpired⟩

end

/-! ## what stays open -/

/-- a session that is open, with its token, and was last seen at `seen` or less than a minute before -/
def Stands (tenant subject tokenId key : Text) (expires seen : Time) (s : State ι) : Prop :=
  (∃ r, s.sessions.lookup key = some r ∧ r.tenant = tenant ∧ r.subject = subject ∧ r.tokenId = tokenId ∧
    r.expiresAt = expires ∧ r.revokedAt = none ∧ seen ≤ r.lastSeenAt + MINUTE) ∧
  ∃ t, s.tokens.lookup tokenId = some t ∧ t.tenant = tenant ∧ t.subject = subject

theorem lookup_revokeSessions_of_not {p : Text → SessionRow → Bool} {now : Time}
    {sessions : AList fun _ : Text => SessionRow} {key : Text} {r : SessionRow} (h : sessions.lookup key = some r)
    (hp : p key r = false) : (revokeSessions p now sessions).lookup key = some r := by
  unfold revokeSessions
  rw [Table.lookup_mapVals, h, Option.map_some, hp, Bool.false_and, if_neg Bool.false_ne_true]

theorem not_both {tenant subject t u : Text} (h : ¬(t = tenant ∧ u = subject)) :
    (t == tenant && u == subject) = false :=
  Bool.eq_false_iff.mpr fun hb => h (by simpa using hb)

/-- the operation of a roster on somebody else -/
theorem Stands.settle {s : State ι} {tenant subject tokenId key : Text} {expires seen : Time}
    (h : Stands tenant subject tokenId key expires seen s) {t : Text} {op : Roster.Op} (now : Time)
    (hnot : ¬(tenant = t ∧ op.disables R subject)) :
    Stands tenant subject tokenId key expires seen (cascade R (revokeDisabled R s t op now) t op) := by
  obtain ⟨⟨r, hr, htenant, hsubject, hid, hexpires, hopen, hseen⟩, row, hrow, hrowTenant, hrowSubject⟩ := h
  have hother : ∀ {name : Text}, disabledBy R op = some name ∨ deletedBy R op = some name →
      ¬(tenant = t ∧ subject = name) := by
    rintro name hby ⟨ht, rfl⟩
    exact hnot ⟨ht, disables_iff.mpr hby⟩
  have hstays : (revokeDisabled R s t op now).sessions.lookup key = some r ∧
      (revokeDisabled R s t op now).tokens.lookup tokenId = some row := by
    unfold revokeDisabled
    split
    · exact ⟨hr, hrow⟩
    · next name hname =>
      refine ⟨lookup_revokeSessions_of_not hr (not_both ?_), hrow⟩
      rw [htenant, hsubject]
      exact hother (Or.inl hname)
  unfold cascade
  split
  · exact ⟨⟨r, hstays.1, htenant, hsubject, hid, hexpires, hopen, hseen⟩, row, hstays.2, hrowTenant, hrowSubject⟩
  · next name hname =>
    have htoken : (Table.keep (fun (_ : Text) (row : TokenRow) => !(row.tenant == t && row.subject == name))
        (revokeDisabled R s t op now).tokens).lookup tokenId = some row := by
      refine Table.lookup_keep.mpr ⟨hstays.2, ?_⟩
      rw [hrowTenant, hrowSubject, not_both (hother (Or.inr hname)), Bool.not_false]
    refine ⟨⟨r, Table.lookup_keep.mpr ⟨hstays.1, ?_⟩, htenant, hsubject, hid, hexpires, hopen, hseen⟩, row, htoken,
      hrowTenant, hrowSubject⟩
    rw [htenant, hsubject, hid, htoken, not_both (hother (Or.inr hname))]
    rfl

theorem lookup_touchSession (key : Text) (now : Time) {sessions : AList fun _ : Text => SessionRow} {k : Text}
    {r : SessionRow} (h : sessions.lookup k = some r) :
    ∃ seen, (touchSession key now sessions).lookup k = some { r with lastSeenAt := seen } ∧ r.lastSeenAt ≤ seen ∧
      (k = key → now ≤ seen + MINUTE) := by
  unfold touchSession
  rw [Table.lookup_mapVals, h, Option.map_some]
  split
  · next hold =>
    rw [Bool.and_eq_true, decide_eq_true_iff] at hold
    exact ⟨now, rfl, ((Nat.le_add_right _ _).trans_lt hold.2).le, fun _ => Nat.le_add_right _ _⟩
  · next hrecent =>
    refine ⟨r.lastSeenAt, rfl, le_refl _, fun hk => ?_⟩
    rw [hk, beq_self_eq_true, Bool.true_and, decide_eq_true_iff, not_lt] at hrecent
    exact hrecent

/-- no action but those that end a session stops it from standing -/
theorem Stands.step {s u : State ι} {a : Action ι} {tenant subject tokenId key : Text} {expires seen now : Time}
    (h : Stands tenant subject tokenId key expires seen s) (hstep : Sessions.step R upper hashToken s a = some u)
    (hquiet : ¬Ends R hashToken tenant subject tokenId key a) (hpurge : ∀ j clock p, a = .purge j clock p → p ≤ now)
    (hexpires : now < expires) : Stands tenant subject tokenId key expires seen u := by
  have hall := h
  obtain ⟨⟨r, hr, htenant, hsubject, hid, hrexpires, hopen, hseen⟩, row, hrow, hrowTenant, hrowSubject⟩ := h
  cases a with
  | roster t op now elsewhere =>
    simp only [Sessions.step] at hstep
    split at hstep
    · cases hstep
    · next roster hroster =>
      obtain rfl := Option.some.inj hstep
      refine Stands.settle (s := { s with rosters := Function.update s.rosters t roster }) hall now fun hd => ?_
      exact hquiet (Or.inl ⟨hd.1.symm, hd.2⟩)
  | suspend t suspended =>
    obtain rfl := Option.some.inj hstep
    exact hall
  | issue t value label id token expiresAt clock =>
    obtain ⟨name, -, hfree, rfl⟩ := issueToken_ok (toOption_eq_some hstep)
    refine ⟨hall.1, row, ?_, hrowTenant, hrowSubject⟩
    change (s.tokens.insert id _).lookup tokenId = some row
    rw [Table.lookup_insert_eq, if_neg fun heq => ?_, hrow]
    rw [← heq, hrow] at hfree
    cases hfree
  | revoke t id now =>
    obtain ⟨t', ht', hteq, -, rfl⟩ := revokeToken_ok (toOption_eq_some hstep)
    have hne : tokenId ≠ id := fun heq => by
      rw [← heq, hrow] at ht'
      obtain rfl := Option.some.inj ht'
      exact hquiet (Or.inr (Or.inl ⟨hteq.symm.trans hrowTenant, heq.symm⟩))
    refine ⟨⟨r, lookup_revokeSessions_of_not hr (not_both ?_), htenant, hsubject, hid, hrexpires, hopen, hseen⟩, row,
      ?_, hrowTenant, hrowSubject⟩
    · rw [hid]
      exact fun hb => hne hb.2
    · change (s.tokens.insert id _).lookup tokenId = some row
      rw [Table.lookup_insert_eq, if_neg hne, hrow]
  | close value now =>
    simp only [Sessions.step] at hstep
    obtain rfl := Option.some.inj hstep
    split
    · exact hall
    · next hvalue =>
      refine ⟨⟨r, lookup_revokeSessions_of_not hr (Bool.eq_false_iff.mpr fun hkey => ?_), htenant, hsubject, hid,
        hrexpires, hopen, hseen⟩, hall.2⟩
      exact hquiet (Or.inr (Or.inr ⟨Bool.eq_false_iff.mpr hvalue, (beq_iff_eq.mp hkey).symm⟩))
  | fail i =>
    obtain rfl := Option.some.inj hstep
    exact hall
  | present i token now =>
    simp only [Sessions.step] at hstep
    split at hstep
    · obtain ⟨found, -, rfl⟩ := Option.map_eq_some_iff.mp hstep
      exact hall
    · cases hstep
  | purge i clock p =>
    simp only [Sessions.step] at hstep
    split at hstep
    · obtain rfl := Option.some.inj hstep
      refine ⟨⟨r, Table.lookup_keep.mpr ⟨hr, ?_⟩, htenant, hsubject, hid, hrexpires, hopen, hseen⟩, hall.2⟩
      have hp : ¬r.expiresAt + SESSION_ABSOLUTE < p := by
        rw [hrexpires]
        exact not_lt.mpr ((hpurge i clock p rfl).trans (hexpires.le.trans (Nat.le_add_right _ _)))
      rw [hopen, decide_eq_false hp]
      simp
    · cases hstep
  | insert i value now =>
    simp only [Sessions.step] at hstep
    split at hstep
    · split at hstep
      · next hfree =>
        obtain rfl := Option.some.inj hstep
        refine ⟨⟨r, ?_, htenant, hsubject, hid, hrexpires, hopen, hseen⟩, hall.2⟩
        change (s.sessions.insert (hashToken value) _).lookup key = some r
        rw [Bool.and_eq_true, Bool.and_eq_true, Option.isNone_iff_eq_none] at hfree
        rw [Table.lookup_insert_eq, if_neg fun heq => ?_, hr]
        rw [← heq, hr] at hfree
        cases hfree.1.1
      · cases hstep
    · cases hstep
  | use i value now =>
    simp only [Sessions.step] at hstep
    split at hstep
    · obtain ⟨session, -, rfl⟩ := Option.map_eq_some_iff.mp hstep
      exact hall
    · cases hstep
  | touch i now =>
    simp only [Sessions.step] at hstep
    split at hstep
    · next value htask =>
      obtain rfl := Option.some.inj hstep
      obtain ⟨later, hlookup, hle, -⟩ := lookup_touchSession (hashToken value) now hr
      exact ⟨⟨_, hlookup, htenant, hsubject, hid, hrexpires, hopen, hseen.trans (Nat.add_le_add_right hle _)⟩, hall.2⟩
    · cases hstep

theorem Stands.run {s u : State ι} {as : List (Action ι)} {tenant subject tokenId key : Text} {expires seen now : Time}
    (h : Stands tenant subject tokenId key expires seen s)
    (hrun : Runs.exec (Sessions.step R upper hashToken) s as = some u)
    (hquiet : ∀ a ∈ as, ¬Ends R hashToken tenant subject tokenId key a)
    (hpurge : ∀ j clock p, Action.purge j clock p ∈ as → p ≤ now) (hexpires : now < expires) :
    Stands tenant subject tokenId key expires seen u :=
  Runs.exec_invariant_along
    (P := fun _ a => ¬Ends R hashToken tenant subject tokenId key a ∧ ∀ j clock p, a = .purge j clock p → p ≤ now)
    (fun _ _ _ hs hP hstep => hs.step hstep hP.1 hP.2 hexpires) h
    (Runs.along_of_forall fun a ha _ => ⟨hquiet a ha, fun j clock p heq => hpurge j clock p (heq ▸ ha)⟩) hrun

/-- a caller that has looked a session up has its row to touch -/
theorem task_of_used {s u : State ι} {as : List (Action ι)} {i : ι} {value : Text} (h : Used i value as)
    (hrun : Runs.exec (Sessions.step R upper hashToken) s as = some u) : u.tasks i = .seen value := by
  obtain ⟨bs, a, cs, rfl, ⟨now, rfl⟩, hcs⟩ := h
  obtain ⟨t, ht, htu⟩ := (Runs.exec_append_eq_some _).mp hrun
  obtain ⟨v, hv, hvu⟩ := (Runs.exec_cons_eq_some _).mp htu
  have hset : v.tasks i = .seen value := by
    simp only [Sessions.step] at hv
    split at hv
    · obtain ⟨session, -, rfl⟩ := Option.map_eq_some_iff.mp hv
      exact Function.update_self i _ t.tasks
    · cases hv
  refine Runs.exec_invariant_along (I := fun s : State ι => s.tasks i = .seen value)
    (P := fun _ a => a.caller ≠ some i) (fun s a t hs ha hstep => ?_) hset
    (Runs.along_of_forall fun a ha _ => hcs a ha) hvu
  rcases task_step (i := i) hstep rfl with ⟨-, heq⟩ | ⟨hcaller, -⟩ | ⟨token, now, who, id, rfl, -⟩ |
    ⟨clock, now, who, id, rfl, -⟩ | ⟨value, now, rfl, -⟩
  · rw [← heq]
    exact hs
  · exact absurd hcaller ha
  · exact absurd rfl ha
  · exact absurd rfl ha
  · exact absurd rfl ha

variable (hashToken) in
/-- a caller looked up the session under `key` and touched its row at a time -/
def TouchedAt (key : Text) (seen : Time) (as : List (Action ι)) : Prop :=
  Runs.Since (fun bs a => ∃ i value, hashToken value = key ∧ a = .touch i seen ∧ Used i value bs) (fun _ => True) as

/-- In every run of any callers, a session that was opened, or looked up and touched by any of them, is accepted
for the idle time less a minute from then and until it expires, whatever the callers did meanwhile that does not end
it, as long as its principal is enabled and its token live. -/
theorem stays_open {bs ds : List (Action ι)} {s t u : State ι}
    (hs : Runs.exec (Sessions.step R upper hashToken) (init rosters suspended) bs = some s)
    (hfresh : (issuedIds bs).Nodup) {i : ι} {who who' : Principal} {id : Text} {expires : Time}
    (htask : s.tasks i = .purged who id expires) {value : Text} (hvalue : value.isEmpty = false) {opened : Time}
    (hopen : Sessions.step R upper hashToken s (.insert i value opened) = some t)
    (hrun : Runs.exec (Sessions.step R upper hashToken) t ds = some u) {now seen : Time}
    (hquiet : ∀ a ∈ ds, ¬Ends R hashToken who.tenant who.subject id (hashToken value) a)
    (hpurge : ∀ j clock p, Action.purge j clock p ∈ ds → p ≤ now)
    (hseen : seen = opened ∨ TouchedAt hashToken (hashToken value) seen ds)
    (hidle : now + MINUTE < seen + SESSION_IDLE) (hexpires : now < expires)
    (hwho : enabled u who.tenant who.subject = some who')
    (htoken : ∀ row, u.tokens.lookup id = some row → row.live now = true) :
    sessionPrincipal hashToken u value now = some ⟨who', id, expires⟩ := by
  have hstart : Stands who.tenant who.subject id (hashToken value) expires opened t := by
    simp only [Sessions.step] at hopen
    rw [htask] at hopen
    dsimp only at hopen
    split at hopen
    · next hkeys =>
      obtain rfl := Option.some.inj hopen
      rw [Bool.and_eq_true, Bool.and_eq_true, Option.isSome_iff_exists] at hkeys
      obtain ⟨row, hrow⟩ := hkeys.1.2
      obtain ⟨htenant, hsubject⟩ := ((inv_run hs hfresh).purged i who id expires htask).1.2 row hrow
      exact ⟨⟨_, AList.lookup_insert _, rfl, rfl, rfl, rfl, rfl, Nat.le_add_right _ _⟩, row, hrow, htenant, hsubject⟩
    · cases hopen
  -- the row was last seen at most a minute before
  have hend : Stands who.tenant who.subject id (hashToken value) expires seen u := by
    rcases hseen with rfl | ⟨cs, a, es, rfl, ⟨j, value', hkey, rfl, hused⟩, -⟩
    · exact hstart.run hrun hquiet hpurge hexpires
    · obtain ⟨v, hv, hvu⟩ := (Runs.exec_append_eq_some _).mp hrun
      obtain ⟨w, hw, hwu⟩ := (Runs.exec_cons_eq_some _).mp hvu
      have hv' := hstart.run hv (fun a ha => hquiet a (List.mem_append_left _ ha))
        (fun j clock p hp => hpurge j clock p (List.mem_append_left _ hp)) hexpires
      refine Stands.run ?_ hwu (fun a ha => hquiet a (List.mem_append_right _ (List.mem_cons_of_mem _ ha)))
        (fun j clock p hp => hpurge j clock p (List.mem_append_right _ (List.mem_cons_of_mem _ hp))) hexpires
      obtain ⟨⟨r, hr, htenant, hsubject, hid, hrexpires, hlive, -⟩, hrow⟩ := hv'
      simp only [Sessions.step] at hw
      rw [task_of_used hused hv] at hw
      obtain rfl := Option.some.inj hw
      obtain ⟨later, hlookup, -, hle⟩ := lookup_touchSession (hashToken value') seen hr
      exact ⟨⟨_, hlookup, htenant, hsubject, hid, hrexpires, hlive, hle hkey.symm⟩, hrow⟩
  obtain ⟨⟨r, hr, htenant, hsubject, hid, hrexpires, hlive, hle⟩, row, hrow, -, -⟩ := hend
  refine sessionPrincipal_eq_some.mpr ⟨hvalue, r, row, hr, ?_, ?_, hid.symm, hrexpires.symm, ?_, htoken row hrow⟩
  · rw [hid]
    exact hrow
  · rw [htenant, hsubject]
    exact hwho
  · refine SessionRow.live_iff.mpr ⟨hlive, by rw [hrexpires]; exact hexpires, ?_⟩
    have hlate : now + MINUTE < r.lastSeenAt + SESSION_IDLE + MINUTE :=
      hidle.trans_le ((Nat.add_le_add_right hle _).trans (Nat.add_right_comm _ _ _).le)
    exact Nat.lt_of_add_lt_add_right hlate

end

/-! ## a run -/

def sha (t : Text) : Text := "sha256:".toList ++ t

def hours (n : ℕ) : Time := n * 60 * MINUTE

/-- a token is issued and presented, and old sessions deleted -/
def presents : List (Action ℕ) :=
  [.issue "t1".toList (.text "a@b.c".toList) (.text "laptop".toList) "k1".toList "s3cret".toList none 0,
    .present 0 "stg_s3cret".toList 10, .purge 0 11 11]

/-- the session is used, and another token issued and revoked -/
def uses : List (Action ℕ) :=
  [.use 1 "cookie".toList (hours 7),
    .issue "t1".toList (.text "a@b.c".toList) (.text "phone".toList) "k2".toList "0ther".toList none (hours 7),
    .revoke "t1".toList "k2".toList (hours 7), .touch 1 (hours 7)]

def start : State ℕ := init (fun _ => Roster.firstAdmin) fun _ => false

def run (s : State ℕ) (as : List (Action ℕ)) : Option (State ℕ) := Runs.exec (step ascii Roster.upperAscii sha) s as

theorem accepted_sound_uses : ∃ s session,
    run start (presents ++ .insert 0 "cookie".toList 12 :: uses) = some s ∧
      sessionPrincipal sha s "cookie".toList (hours 14) = some session ∧
      session.principal.subject = "a@b.c".toList ∧
      Opened ascii Roster.upperAscii sha (fun _ => Roster.firstAdmin) (fun _ => false) "t1".toList "a@b.c".toList
        "k1".toList "sha256:cookie".toList session.expiresAt (presents ++ .insert 0 "cookie".toList 12 :: uses) := by
  have hrun : (run start (presents ++ .insert 0 "cookie".toList 12 :: uses)).any (fun s =>
      (sessionPrincipal sha s "cookie".toList (hours 14)).any fun session =>
        session.principal.tenant = "t1".toList ∧ session.principal.subject = "a@b.c".toList ∧
          session.tokenId = "k1".toList) = true := by decide +kernel
  obtain ⟨s, hs, h⟩ := (Option.any_eq_true _ _).mp hrun
  obtain ⟨session, hsession, h⟩ := (Option.any_eq_true _ _).mp h
  obtain ⟨htenant, hsubject, hid⟩ := of_decide_eq_true h
  obtain ⟨-, -, hopened, -⟩ := accepted_sound hs (by decide +kernel) hsession
  rw [htenant, hsubject, hid] at hopened
  exact ⟨s, session, hs, hsession, hsubject, hopened⟩

theorem uses_used : Used 1 "cookie".toList uses.dropLast := by
  refine ⟨[], .use 1 "cookie".toList (hours 7), uses.dropLast.tail, rfl, ⟨hours 7, rfl⟩, fun c hc => ?_⟩
  simp only [uses, List.dropLast, List.tail_cons, List.mem_cons, List.not_mem_nil, or_false] at hc
  rcases hc with rfl | rfl <;> simp [Action.caller]

theorem stays_open_uses : ∃ s t u who who' id expires, run start presents = some s ∧
    s.tasks 0 = .purged who id expires ∧ step ascii Roster.upperAscii sha s (.insert 0 "cookie".toList 12) = some t ∧
    run t uses = some u ∧ sessionPrincipal sha u "cookie".toList (hours 14) = some ⟨who', id, expires⟩ := by
  have hrun : (run start presents).any (fun s => s.tasks 0 =
      .purged ⟨"t1".toList, "a@b.c".toList, ⟨"A".toList, .person, true, [Roster.UNRESTRICTED_GROUP],
        some [Layers.PUBLIC], none⟩⟩ "k1".toList (11 + SESSION_ABSOLUTE) ∧
      ((step ascii Roster.upperAscii sha s (.insert 0 "cookie".toList 12)).any fun t => (run t uses).any fun u =>
        (enabled u "t1".toList "a@b.c".toList).isSome ∧
          (u.tokens.lookup "k1".toList).all fun row => row.live (hours 14))) = true := by decide +kernel
  obtain ⟨s, hs, h⟩ := (Option.any_eq_true _ _).mp hrun
  obtain ⟨htask, h⟩ := of_decide_eq_true h
  obtain ⟨t, ht, h⟩ := (Option.any_eq_true _ _).mp h
  obtain ⟨u, hu, h⟩ := (Option.any_eq_true _ _).mp h
  obtain ⟨hwho, htoken⟩ := of_decide_eq_true h
  obtain ⟨who', hwho⟩ := Option.isSome_iff_exists.mp hwho
  have htouched : TouchedAt sha (sha "cookie".toList) (hours 7) uses :=
    @Runs.Since.now _ _ _ uses.dropLast _ ⟨1, "cookie".toList, rfl, rfl, uses_used⟩
  refine ⟨s, t, u, _, who', _, _, hs, htask, ht, hu,
    stays_open hs (by decide +kernel) htask (by decide) ht hu (fun a ha => ?_) (fun j clock p hp => ?_)
      (Or.inr htouched) (by decide +kernel) (by decide +kernel) hwho fun row hrow => ?_⟩
  · simp only [uses, List.mem_cons, List.not_mem_nil, or_false] at ha
    rcases ha with rfl | rfl | rfl | rfl <;> simp [Ends, Disables, Revokes, Closes]
  · simp [uses] at hp
  · rw [hrow] at htoken
    exact htoken

end Sessions
