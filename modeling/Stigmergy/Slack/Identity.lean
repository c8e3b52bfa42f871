import Stigmergy.Lib.Runs
import Stigmergy.Lib.Text
import Stigmergy.Lib.Ttl

/-!
# Who a Slack user is

`resolve_slack_identity` of `slack/identity.py` with its caches, called by the listeners of `slack/app.py`, and the
button tokens of `slack/context.py` and `slack/show_it_here.py`: any number of listeners of one process, cut where
they wait for Slack or the roster.

* `resolve`           a task up to its first wait; `answered`, `roster`, the rest of it;
* `step`              one action of one task;
* `resolved_asked`    an identity is the e-mail Slack answered for that very user, and never a display name;
* `shown_to_asker`    a page is read only for the user its token was minted for, under that user's own identity;
* `Bounded`           the caches and the tokens keep their bounds in every run.
-/

set_option linter.unusedSectionVars false

namespace SlackIdentity

def BOT_MESSAGE_SUBTYPE : Text := "bot_message".toList
def DEFAULT_TTL_SECONDS : ℚ := 300
def DEFAULT_MAX_ENTRIES : ℕ := 10000
def SHOW_IT_HERE_TOKEN_TTL_S : ℚ := 3600
def SHOW_IT_HERE_MAX_TOKENS : ℕ := 10000

structure Settings where
  /-- the configured workspace -/
  teamId : Text
  ttl : ℚ
  maxEntries : ℕ
  maxTokens : ℕ
  maxEntries_pos : 0 < maxEntries
  maxTokens_pos : 0 < maxTokens

/-- `SlackContext(settings)` -/
def Settings.default (teamId : Text) : Settings :=
  ⟨teamId, DEFAULT_TTL_SECONDS, DEFAULT_MAX_ENTRIES, SHOW_IT_HERE_MAX_TOKENS, by decide, by decide⟩

/-! ## Events -/

def truthy (t : Option Text) : Bool := t.any fun t => !t.isEmpty

/-- `a or b` -/
def orText (a b : Text) : Text := if a.isEmpty then b else a

/-- the fields of an event that are read here -/
structure Event where
  botId : Option Text
  appId : Option Text
  subtype : Option Text
  user : Option Text
  userTeam : Option Text
  team : Option Text
deriving DecidableEq

def isIgnorableEvent (event : Event) (botUserId : Option Text) : Bool :=
  truthy event.botId || truthy event.appId || event.subtype == some BOT_MESSAGE_SUBTYPE || !truthy event.user ||
    truthy botUserId && event.user == botUserId

/-- `_event_team_id`, with the team of the envelope -/
def eventTeamId (event : Event) (bodyTeamId : Option Text) : Text :=
  orText (event.userTeam.getD []) (orText (event.team.getD []) (bodyTeamId.getD []))

def isConfiguredWorkspace (eventTeamId configuredTeamId : Text) : Bool :=
  !eventTeamId.isEmpty && eventTeamId == configuredTeamId

/-- what `users.info` answers; empty for what is absent -/
structure Profile where
  email : Text
  displayName : Text
  realName : Text
deriving DecidableEq

/-! ## Tasks -/

inductive IdentityResult where
  | foreignTeam (teamId : Text)
  | transientFailure (detail : Text)
  | noAccess
  /-- the audiences are absent for an unrestricted reader -/
  | resolved (email : Text) (audiences : Option (List Text))
deriving DecidableEq

inductive Purpose where
  | answer
  | showItHere (path : Text)
deriving DecidableEq

/-- what a task waits for: `users.info`, or the roster; or how it ended -/
inductive Phase where
  | asking
  | checking (email : Text)
  | done (result : IdentityResult)
deriving DecidableEq

structure Task where
  purpose : Purpose
  teamId : Text
  user : Text
  began : ℚ
  phase : Phase
deriving DecidableEq

section
variable (ι : Type*)

structure State where
  entries : Ttl.Store (Text × Text) Text
  displayNames : Ttl.Store (Text × Text) Text
  /-- path and owner of each token -/
  tokens : Ttl.Store Text (Text × Text)
  tasks : ι → Option Task
  /-- the look-ups of display names that wait for `users.info` -/
  lookups : ι → Option (Text × Text)

inductive Action where
  /-- an event reaches a listener -/
  | event (i : ι) (event : Event) (botUserId bodyTeamId : Option Text) (now : ℚ)
  /-- the button is clicked -/
  | clicked (i : ι) (token teamId user : Text) (now : ℚ)
  /-- `users.info` answers for the user -/
  | answered (i : ι) (user : Text) (profile : Profile) (now : ℚ)
  | refused (i : ι) (detail : Text)
  /-- the roster answers for the e-mail: the audiences of the principal, nothing for an `IdentityError` -/
  | roster (i : ι) (email : Text) (audiences : Option (Option (List Text)))
  /-- a capture asks for a display name -/
  | nameAsked (i : ι) (teamId user : Text) (now : ℚ)
  | named (i : ι) (profile : Profile) (now : ℚ)
  | unnamed (i : ι)
  /-- an answer is rendered with a button -/
  | minted (token path owner : Text) (now : ℚ)

end

section
variable {ι : Type*} [DecidableEq ι] (S : Settings)

def State.start : State ι := ⟨[], [], [], fun _ => none, fun _ => none⟩

def State.setTask (s : State ι) (i : ι) (t : Task) : State ι := { s with tasks := Function.update s.tasks i (some t) }

/-- `_TtlMap.put`: positive results only -/
def putValue (d : Ttl.Store (Text × Text) Text) (key : Text × Text) (value : Text) (now : ℚ) :
    Ttl.Store (Text × Text) Text :=
  if value.isEmpty then d else Ttl.put S.maxEntries d key value (now + S.ttl)

/-- `if not email: return NoAccess()` -/
def check (email : Text) : Phase := if email.isEmpty then .done .noAccess else .checking email

/-- `resolve_slack_identity` up to its first wait -/
def resolve (s : State ι) (i : ι) (purpose : Purpose) (teamId user : Text) (now : ℚ) : State ι :=
  if isConfiguredWorkspace teamId S.teamId then
    let found := Ttl.get s.entries (teamId, user) now
    { s with entries := found.1 }.setTask i
      ⟨purpose, teamId, user, now, match found.2 with | some email => check email | none => .asking⟩
  else s.setTask i ⟨purpose, teamId, user, now, .done (.foreignTeam (orText teamId "<absent>".toList))⟩

/-- after `users.info` -/
def answered (s : State ι) (i : ι) (t : Task) (profile : Profile) (now : ℚ) : State ι :=
  { s with
    entries := putValue S s.entries (t.teamId, t.user) profile.email now
    displayNames := putValue S s.displayNames (t.teamId, t.user) (orText profile.displayName profile.realName) now
  }.setTask i { t with phase := check profile.email }

/-- after the roster -/
def checked (email : Text) (audiences : Option (Option (List Text))) : IdentityResult :=
  match audiences with
  | none => .noAccess
  | some audiences => .resolved email audiences

/-- `handle_show_it_here` up to its first wait, with `consume_show_it_here_token` -/
def clicked (s : State ι) (i : ι) (token teamId user : Text) (now : ℚ) : State ι :=
  let entry := Ttl.get s.tokens token now
  match entry.2 with
  | none => { s with tokens := entry.1 }
  | some (path, owner) =>
    if user = owner then resolve S { s with tokens := entry.1 } i (.showItHere path) teamId user now
    else { s with tokens := entry.1 }

/-- `_display_name` up to its wait, with the name when there is none -/
def displayName (s : State ι) (i : ι) (teamId user : Text) (now : ℚ) : State ι × Option Text :=
  if user.isEmpty then (s, some "Unknown speaker".toList)
  else
    let cached := Ttl.get s.displayNames (teamId, user) now
    match cached.2 with
    | some name => ({ s with displayNames := cached.1 }, some name)
    | none => ({ s with
        displayNames := cached.1
        lookups := Function.update s.lookups i (some (teamId, user)) }, none)

/-- the rest of `_display_name` -/
def named (s : State ι) (i : ι) (key : Text × Text) (profile : Profile) (now : ℚ) : State ι × Text :=
  let name := orText profile.displayName (orText profile.realName key.2)
  ({ s with
    displayNames := putValue S s.displayNames key name now
    lookups := Function.update s.lookups i none }, name)

/-- `mint_show_it_here_token` -/
def mintShowItHereToken (s : State ι) (token path owner : Text) (now : ℚ) : State ι :=
  { s with tokens := Ttl.put S.maxTokens s.tokens token (path, owner) (now + SHOW_IT_HERE_TOKEN_TTL_S) }

def step (s : State ι) : Action ι → Option (State ι)
  | .event i event botUserId bodyTeamId now =>
    if s.tasks i ≠ none then none
    else if isIgnorableEvent event botUserId then some s
    else some (resolve S s i .answer (eventTeamId event bodyTeamId) (event.user.getD []) now)
  | .clicked i token teamId user now =>
    if s.tasks i ≠ none then none else some (clicked S s i token teamId user now)
  | .answered i user profile now =>
    (s.tasks i).bind fun t =>
      if t.phase = .asking ∧ t.user = user then some (answered S s i t profile now) else none
  | .refused i detail =>
    (s.tasks i).bind fun t =>
      if t.phase = .asking then some (s.setTask i { t with phase := .done (.transientFailure detail) }) else none
  | .roster i email audiences =>
    (s.tasks i).bind fun t =>
      if t.phase = .checking email then some (s.setTask i { t with phase := .done (checked email audiences) })
      else none
  | .nameAsked i teamId user now =>
    if s.lookups i ≠ none then none else some (displayName s i teamId user now).1
  | .named i profile now => (s.lookups i).map fun key => (named S s i key profile now).1
  | .unnamed i => (s.lookups i).map fun _ => { s with lookups := Function.update s.lookups i none }
  | .minted token path owner now => some (mintShowItHereToken S s token path owner now)

/-- `read_page(path)` of a click, under the identity it is read with -/
def State.read (s : State ι) (i : ι) : Option (Text × (Text × Option (List Text))) :=
  (s.tasks i).bind fun t =>
    match t.purpose, t.phase with
    | .showItHere path, .done (.resolved email audiences) => some (path, (email, audiences))
    | _, _ => none

/-! ## What a run has asked -/

/-- Slack answered the e-mail for the user of the task: to the task itself, or to one that cached it -/
def Asked (as : List (Action ι)) (i : ι) (t : Task) (email : Text) : Prop :=
  email ≠ [] ∧ ∃ j profile now, Action.answered j t.user profile now ∈ as ∧ profile.email = email ∧
    (j = i ∨ t.began < now + S.ttl)

/-- what began the task: an event of a human, or a click on a live button of the same user -/
def Began (as : List (Action ι)) (i : ι) (t : Task) : Prop :=
  match t.purpose with
  | .answer => ∃ event botUserId bodyTeamId, Action.event i event botUserId bodyTeamId t.began ∈ as ∧
      isIgnorableEvent event botUserId = false ∧ event.user = some t.user ∧ t.teamId = eventTeamId event bodyTeamId
  | .showItHere path => ∃ token now, Action.clicked i token t.teamId t.user t.began ∈ as ∧
      Action.minted token path t.user now ∈ as ∧ t.began < now + SHOW_IT_HERE_TOKEN_TTL_S

/-- what stands behind the phase of the task -/
def Reached (as : List (Action ι)) (i : ι) (t : Task) : Prop :=
  match t.phase with
  | .asking => t.teamId = S.teamId
  | .checking email => t.teamId = S.teamId ∧ Asked S as i t email
  | .done (.resolved email audiences) =>
    t.teamId = S.teamId ∧ Asked S as i t email ∧ Action.roster i email (some audiences) ∈ as
  | .done _ => True

structure Traced (as : List (Action ι)) (s : State ι) : Prop where
  entries : ∀ e ∈ s.entries, e.2.2 ≠ [] ∧ ∃ j profile now, Action.answered j e.1.2 profile now ∈ as ∧
    profile.email = e.2.2 ∧ e.2.1 = now + S.ttl
  tokens : ∀ e ∈ s.tokens, ∃ now, Action.minted e.1 e.2.2.1 e.2.2.2 now ∈ as ∧ e.2.1 = now + SHOW_IT_HERE_TOKEN_TTL_S
  tasks : ∀ i t, s.tasks i = some t → Began as i t ∧ Reached S as i t

end

section
variable {ι : Type*} [DecidableEq ι] {S : Settings}

theorem Asked.mono {as bs : List (Action ι)} (hsub : ∀ a ∈ as, a ∈ bs) {i : ι} {t : Task} {email : Text}
    (h : Asked S as i t email) : Asked S bs i t email := by
  obtain ⟨hne, j, profile, now, hmem, hrest⟩ := h
  exact ⟨hne, j, profile, now, hsub _ hmem, hrest⟩

theorem Began.mono {as bs : List (Action ι)} (hsub : ∀ a ∈ as, a ∈ bs) {i : ι} {t : Task} (h : Began as i t) :
    Began bs i t := by
  unfold Began at h ⊢
  split at h
  · obtain ⟨event, botUserId, bodyTeamId, hmem, hrest⟩ := h
    exact ⟨event, botUserId, bodyTeamId, hsub _ hmem, hrest⟩
  · obtain ⟨token, now, hclick, hmint, hrest⟩ := h
    exact ⟨token, now, hsub _ hclick, hsub _ hmint, hrest⟩

theorem Reached.mono {as bs : List (Action ι)} (hsub : ∀ a ∈ as, a ∈ bs) {i : ι} {t : Task} (h : Reached S as i t) :
    Reached S bs i t := by
  unfold Reached at h ⊢
  split at h
  · exact h
  · exact ⟨h.1, h.2.mono hsub⟩
  · exact ⟨h.1, h.2.1.mono hsub, hsub _ h.2.2⟩
  · trivial

theorem Traced.mono {as bs : List (Action ι)} {s : State ι} (hsub : ∀ a ∈ as, a ∈ bs) (h : Traced S as s) :
    Traced S bs s := by
  refine ⟨fun e he => ?_, fun e he => ?_, fun i t ht => ?_⟩
  · obtain ⟨hne, j, profile, now, hmem, hrest⟩ := h.entries e he
    exact ⟨hne, j, profile, now, hsub _ hmem, hrest⟩
  · obtain ⟨now, hmem, hrest⟩ := h.tokens e he
    exact ⟨now, hsub _ hmem, hrest⟩
  · exact ⟨(h.tasks i t ht).1.mono hsub, (h.tasks i t ht).2.mono hsub⟩

/-- a task that began as `t` did, in a later phase -/
theorem Began.withPhase {as : List (Action ι)} {i : ι} {t : Task} (h : Began as i t) (phase : Phase) :
    Began as i { t with phase := phase } := h

theorem Traced.start : Traced S [] (State.start : State ι) :=
  ⟨fun _ he => absurd he List.not_mem_nil, fun _ he => absurd he List.not_mem_nil, fun _ _ ht => by cases ht⟩

theorem Traced.setTask {as : List (Action ι)} {s : State ι} (h : Traced S as s) {i : ι} {t : Task}
    (hbegan : Began as i t) (hreached : Reached S as i t) : Traced S as (s.setTask i t) := by
  refine ⟨h.entries, h.tokens, fun j u hu => ?_⟩
  by_cases hj : j = i
  · subst hj
    obtain rfl : t = u := Option.some.inj ((Function.update_self j _ s.tasks).symm.trans hu)
    exact ⟨hbegan, hreached⟩
  · exact h.tasks j u ((Function.update_of_ne hj _ s.tasks).symm.trans hu)

/-- the caches may change as long as what they hold is traced -/
theorem Traced.of_stores {as : List (Action ι)} {s t : State ι} (h : Traced S as s) (htasks : t.tasks = s.tasks)
    (hentries : ∀ e ∈ t.entries, e ∈ s.entries) (htokens : ∀ e ∈ t.tokens, e ∈ s.tokens) : Traced S as t :=
  ⟨fun e he => h.entries e (hentries e he), fun e he => h.tokens e (htokens e he),
    fun i u hu => h.tasks i u (htasks ▸ hu)⟩

theorem mem_putValue {d : Ttl.Store (Text × Text) Text} {key : Text × Text} {value : Text} {now : ℚ}
    {e : (Text × Text) × (ℚ × Text)} (h : e ∈ putValue S d key value now) :
    e = (key, now + S.ttl, value) ∧ value ≠ [] ∨ e ∈ d := by
  unfold putValue at h
  split at h
  · exact Or.inr h
  · next hne => exact (Ttl.mem_put h).imp (fun heq => ⟨heq, fun hnil => hne (by rw [hnil]; rfl)⟩) id

theorem reached_check {as : List (Action ι)} {i : ι} {t : Task} {email : Text} (hteam : t.teamId = S.teamId)
    (hasked : email ≠ [] → Asked S as i t email) : Reached S as i { t with phase := check email } := by
  unfold check
  split
  · trivial
  · next hne => exact ⟨hteam, hasked fun hnil => hne (by rw [hnil]; rfl)⟩

theorem Traced.resolve {as : List (Action ι)} {s : State ι} (h : Traced S as s) {i : ι} {purpose : Purpose}
    {teamId user : Text} {now : ℚ} (hbegan : ∀ phase, Began as i ⟨purpose, teamId, user, now, phase⟩) :
    Traced S as (resolve S s i purpose teamId user now) := by
  unfold SlackIdentity.resolve
  split
  · next hteam =>
    have hteamId : teamId = S.teamId := beq_iff_eq.mp (Bool.and_eq_true_iff.mp hteam).2
    have hstores : Traced S as { s with entries := (Ttl.get s.entries (teamId, user) now).1 } :=
      h.of_stores rfl (fun e he => Ttl.mem_get he) fun e he => he
    refine hstores.setTask (hbegan _) ?_
    cases hfound : (Ttl.get s.entries (teamId, user) now).2 with
    | none => exact hteamId
    | some email =>
      refine reached_check (t := ⟨purpose, teamId, user, now, .asking⟩) hteamId fun hne => ?_
      obtain ⟨expires, hmem, hlive⟩ := Ttl.get_eq_some hfound
      obtain ⟨-, j, profile, time, hanswered, hemail, hexpires⟩ := h.entries _ hmem
      exact ⟨hne, j, profile, time, hanswered, hemail, Or.inr (lt_of_lt_of_eq hlive hexpires)⟩
  · exact h.setTask (hbegan _) trivial

theorem Traced.answered {as : List (Action ι)} {s : State ι} (h : Traced S as s) {i : ι} {t : Task}
    {profile : Profile} {now : ℚ} (ht : s.tasks i = some t) (hphase : t.phase = .asking)
    (hmem : Action.answered i t.user profile now ∈ as) : Traced S as (answered S s i t profile now) := by
  obtain ⟨hbegan, hreached⟩ := h.tasks i t ht
  have hteam : t.teamId = S.teamId := by
    unfold Reached at hreached
    rw [hphase] at hreached
    exact hreached
  have hstores : Traced S as { s with
      entries := putValue S s.entries (t.teamId, t.user) profile.email now
      displayNames :=
        putValue S s.displayNames (t.teamId, t.user) (orText profile.displayName profile.realName) now } := by
    refine ⟨fun e he => ?_, h.tokens, h.tasks⟩
    rcases mem_putValue he with ⟨rfl, hne⟩ | hold
    · exact ⟨hne, i, profile, now, hmem, rfl, rfl⟩
    · exact h.entries e hold
  exact hstores.setTask (hbegan.withPhase _)
    (reached_check hteam fun hne => ⟨hne, i, profile, now, hmem, rfl, Or.inl rfl⟩)

theorem Traced.clicked {as : List (Action ι)} {s : State ι} (h : Traced S as s) {i : ι} {token teamId user : Text}
    {now : ℚ} (hmem : Action.clicked i token teamId user now ∈ as) :
    Traced S as (clicked S s i token teamId user now) := by
  have hstores : Traced S as { s with tokens := (Ttl.get s.tokens token now).1 } :=
    h.of_stores rfl (fun e he => he) fun e he => Ttl.mem_get he
  unfold SlackIdentity.clicked
  dsimp only
  cases hfound : (Ttl.get s.tokens token now).2 with
  | none => exact hstores
  | some entry =>
    obtain ⟨path, owner⟩ := entry
    dsimp only
    split
    · next howner =>
      subst howner
      refine hstores.resolve fun phase => ?_
      obtain ⟨expires, hentry, hlive⟩ := Ttl.get_eq_some hfound
      obtain ⟨time, hminted, hexpires⟩ := h.tokens _ hentry
      exact ⟨token, time, hmem, hminted, lt_of_lt_of_eq hlive hexpires⟩
    · exact hstores

/-- one action -/
theorem Traced.step {as : List (Action ι)} {s u : State ι} {a : Action ι} (h : Traced S as s)
    (hstep : step S s a = some u) : Traced S (as ++ [a]) u := by
  have hlater : Traced S (as ++ [a]) s := h.mono fun b hb => List.mem_append_left _ hb
  have hlast : a ∈ as ++ [a] := List.mem_append_right _ List.mem_cons_self
  cases a with
  | event i event botUserId bodyTeamId now =>
    simp only [SlackIdentity.step] at hstep
    split at hstep
    · cases hstep
    · split at hstep
      · obtain rfl := Option.some.inj hstep
        exact hlater
      · next hhuman =>
        obtain rfl := Option.some.inj hstep
        have hhuman := Bool.eq_false_of_not_eq_true hhuman
        refine hlater.resolve fun phase => ⟨event, botUserId, bodyTeamId, hlast, hhuman, ?_, rfl⟩
        unfold isIgnorableEvent at hhuman
        simp only [Bool.or_eq_false_iff, Bool.not_eq_false'] at hhuman
        cases huser : event.user with
        | none =>
          rw [huser] at hhuman
          exact absurd hhuman.1.2 (by decide)
        | some user => rfl
  | clicked i token teamId user now =>
    simp only [SlackIdentity.step] at hstep
    split at hstep
    · cases hstep
    · obtain rfl := Option.some.inj hstep
      exact hlater.clicked hlast
  | answered i user profile now =>
    obtain ⟨t, ht, hrest⟩ := Option.bind_eq_some_iff.mp hstep
    split at hrest
    · next hphase =>
      obtain rfl := Option.some.inj hrest
      obtain ⟨hphase, rfl⟩ := hphase
      exact hlater.answered ht hphase hlast
    · cases hrest
  | refused i detail =>
    obtain ⟨t, ht, hrest⟩ := Option.bind_eq_some_iff.mp hstep
    split at hrest
    · obtain rfl := Option.some.inj hrest
      exact hlater.setTask ((hlater.tasks i t ht).1.withPhase _) trivial
    · cases hrest
  | roster i email audiences =>
    obtain ⟨t, ht, hrest⟩ := Option.bind_eq_some_iff.mp hstep
    split at hrest
    · next hphase =>
      obtain rfl := Option.some.inj hrest
      obtain ⟨hbegan, hreached⟩ := hlater.tasks i t ht
      refine hlater.setTask (hbegan.withPhase _) ?_
      unfold Reached at hreached
      rw [hphase] at hreached
      cases audiences with
      | none => trivial
      | some audiences => exact ⟨hreached.1, hreached.2, hlast⟩
    · cases hrest
  | nameAsked i teamId user now =>
    simp only [SlackIdentity.step] at hstep
    split at hstep
    · cases hstep
    · obtain rfl := Option.some.inj hstep
      unfold displayName
      split
      · exact hlater
      · dsimp only
        split
        · exact hlater.of_stores rfl (fun e he => he) fun e he => he
        · exact hlater.of_stores rfl (fun e he => he) fun e he => he
  | named i profile now =>
    obtain ⟨key, -, rfl⟩ := Option.map_eq_some_iff.mp hstep
    exact hlater.of_stores rfl (fun e he => he) fun e he => he
  | unnamed i =>
    obtain ⟨key, -, rfl⟩ := Option.map_eq_some_iff.mp hstep
    exact hlater.of_stores rfl (fun e he => he) fun e he => he
  | minted token path owner now =>
    obtain rfl := Option.some.inj hstep
    refine ⟨hlater.entries, fun e he => ?_, hlater.tasks⟩
    rcases Ttl.mem_put he with rfl | hold
    · exact ⟨now, hlast, rfl⟩
    · exact hlater.tokens e hold

theorem traced {as : List (Action ι)} {s : State ι} (h : Runs.exec (step S) State.start as = some s) :
    Traced S as s :=
  Runs.exec_history Traced.start (fun _ _ _ _ ht hstep => ht.step hstep) h

/-! ## Identities -/

/-- whoever is resolved belongs to the configured workspace, and is the e-mail Slack gave for that user to this task,
or to another less than a time to live before it began; the roster knows the e-mail, and an event that began the
task was a human's -/
theorem resolved_asked {as : List (Action ι)} {s : State ι} (h : Runs.exec (step S) State.start as = some s) {i : ι}
    {t : Task} (ht : s.tasks i = some t) {email : Text} {audiences : Option (List Text)}
    (hdone : t.phase = .done (.resolved email audiences)) :
    t.teamId = S.teamId ∧ Action.roster i email (some audiences) ∈ as ∧
      (email ≠ [] ∧ ∃ j profile now, Action.answered j t.user profile now ∈ as ∧ profile.email = email ∧
        (j = i ∨ t.began < now + S.ttl)) ∧
      (t.purpose = .answer → ∃ event botUserId bodyTeamId,
        Action.event i event botUserId bodyTeamId t.began ∈ as ∧ isIgnorableEvent event botUserId = false ∧
          event.user = some t.user ∧ t.teamId = eventTeamId event bodyTeamId) := by
  obtain ⟨hbegan, hreached⟩ := (traced h).tasks i t ht
  unfold Reached at hreached
  rw [hdone] at hreached
  refine ⟨hreached.1, hreached.2.2, hreached.2.1, fun hpurpose => ?_⟩
  unfold Began at hbegan
  rw [hpurpose] at hbegan
  exact hbegan

/-- a person asks, and clicks the button of the answer after someone else did -/
def asksAndClicks : List (Action ℕ) :=
  [.event 0 ⟨none, none, none, some "U1".toList, none, none⟩ (some "UBOT".toList) (some "T1".toList) 0,
    .answered 0 "U1".toList ⟨"ann@example.org".toList, "Ann".toList, []⟩ 1,
    .roster 0 "ann@example.org".toList (some (some ["eng".toList])),
    .minted "f00d".toList "wiki/plan.md".toList "U1".toList 5,
    .clicked 1 "f00d".toList "T1".toList "U2".toList 7,
    .clicked 1 "f00d".toList "T1".toList "U1".toList 8,
    .nameAsked 0 "T1".toList "U1".toList 9,
    .roster 1 "ann@example.org".toList (some (some ["eng".toList]))]

theorem asksAndClicks_runs {P : State ℕ → Prop} [DecidablePred P]
    (h : (Runs.exec (step (Settings.default "T1".toList)) State.start asksAndClicks).any (fun s => P s) = true) :
    ∃ s, Runs.exec (step (Settings.default "T1".toList)) State.start asksAndClicks = some s ∧ P s := by
  obtain ⟨s, hs, hP⟩ := (Option.any_eq_true _ _).mp h
  exact ⟨s, hs, of_decide_eq_true hP⟩

theorem resolved_asked_asks : ∃ s t,
    Runs.exec (step (Settings.default "T1".toList)) State.start asksAndClicks = some s ∧ s.tasks 0 = some t ∧
    t.teamId = "T1".toList ∧ Action.roster 0 "ann@example.org".toList (some (some ["eng".toList])) ∈ asksAndClicks := by
  obtain ⟨s, hs, hdone⟩ := asksAndClicks_runs (P := fun s => (s.tasks 0).map Task.phase =
    some (.done (.resolved "ann@example.org".toList (some ["eng".toList])))) (by decide +kernel)
  obtain ⟨t, ht, hphase⟩ := Option.map_eq_some_iff.mp hdone
  have h := resolved_asked hs ht hphase
  exact ⟨s, t, hs, ht, h.1, h.2.1⟩

/-- a page is read for a click on a token that was minted for the clicking user and the page less than an hour
before, and under the identity of that same user -/
theorem shown_to_asker {as : List (Action ι)} {s : State ι} (h : Runs.exec (step S) State.start as = some s) {i : ι}
    {path email : Text} {audiences : Option (List Text)} (hread : s.read i = some (path, (email, audiences))) :
    ∃ token user clickedAt mintedAt, Action.clicked i token S.teamId user clickedAt ∈ as ∧
      Action.minted token path user mintedAt ∈ as ∧ clickedAt < mintedAt + SHOW_IT_HERE_TOKEN_TTL_S ∧
      Action.roster i email (some audiences) ∈ as ∧
      (email ≠ [] ∧ ∃ j profile now, Action.answered j user profile now ∈ as ∧ profile.email = email ∧
        (j = i ∨ clickedAt < now + S.ttl)) := by
  obtain ⟨t, ht, hshown⟩ := Option.bind_eq_some_iff.mp hread
  obtain ⟨hbegan, hreached⟩ := (traced h).tasks i t ht
  split at hshown
  · next hpurpose hphase =>
    obtain ⟨rfl, rfl, rfl⟩ := Option.some.inj hshown
    unfold Began at hbegan
    unfold Reached at hreached
    rw [hpurpose] at hbegan
    rw [hphase] at hreached
    obtain ⟨token, mintedAt, hclicked, hminted, hlive⟩ := hbegan
    obtain ⟨hteam, hasked, hroster⟩ := hreached
    rw [hteam] at hclicked
    exact ⟨token, t.user, t.began, mintedAt, hclicked, hminted, hlive, hroster, hasked⟩
  · cases hshown

theorem shown_to_asker_asks : ∃ token user clickedAt mintedAt,
    Action.clicked 1 token "T1".toList user clickedAt ∈ asksAndClicks ∧
      Action.minted token "wiki/plan.md".toList user mintedAt ∈ asksAndClicks ∧ clickedAt < mintedAt + 3600 := by
  obtain ⟨s, hs, hread⟩ := asksAndClicks_runs (P := fun s => s.read 1 =
    some ("wiki/plan.md".toList, ("ann@example.org".toList, some ["eng".toList]))) (by decide +kernel)
  obtain ⟨token, user, clickedAt, mintedAt, hclicked, hminted, hlive, -⟩ := shown_to_asker hs hread
  exact ⟨token, user, clickedAt, mintedAt, hclicked, hminted, hlive⟩

/-! ## Display names -/

/-- the run without display names: none is answered, and none is asked for -/
def Action.nameless : Action ι → Option (Action ι)
  | .answered i user profile now => some (.answered i user ⟨profile.email, [], []⟩ now)
  | .nameAsked .. | .named .. | .unnamed _ => none
  | a => some a

/-- the same but for the display names -/
def Alike (s t : State ι) : Prop := t.entries = s.entries ∧ t.tokens = s.tokens ∧ t.tasks = s.tasks

theorem Alike.setTask {s t : State ι} (h : Alike s t) (i : ι) (task : Task) :
    Alike (s.setTask i task) (t.setTask i task) := by
  refine ⟨h.1, h.2.1, ?_⟩
  show Function.update t.tasks i _ = Function.update s.tasks i _
  rw [h.2.2]

theorem Alike.resolve {s t : State ι} (h : Alike s t) (i : ι) (purpose : Purpose) (teamId user : Text) (now : ℚ) :
    Alike (resolve S s i purpose teamId user now) (resolve S t i purpose teamId user now) := by
  unfold SlackIdentity.resolve
  split
  · rw [h.1]
    have hstores : Alike { s with entries := (Ttl.get s.entries (teamId, user) now).1 }
        { t with entries := (Ttl.get s.entries (teamId, user) now).1 } := ⟨rfl, h.2.1, h.2.2⟩
    exact hstores.setTask i _
  · exact h.setTask i _

theorem Alike.clicked {s t : State ι} (h : Alike s t) (i : ι) (token teamId user : Text) (now : ℚ) :
    Alike (clicked S s i token teamId user now) (clicked S t i token teamId user now) := by
  have hstores : Alike { s with tokens := (Ttl.get s.tokens token now).1 }
      { t with tokens := (Ttl.get s.tokens token now).1 } := ⟨h.1, rfl, h.2.2⟩
  unfold SlackIdentity.clicked
  rw [h.2.1]
  dsimp only
  split
  · exact hstores
  · split
    · exact hstores.resolve i _ teamId user now
    · exact hstores

/-- an action and the nameless one, from states that are alike -/
theorem Alike.step {s t u : State ι} {a : Action ι} (h : Alike s t) (hstep : step S s a = some u) :
    ∃ v, Runs.exec (step S) t a.nameless.toList = some v ∧ Alike u v := by
  have hone : ∀ {b : Action ι} {v : State ι}, SlackIdentity.step S t b = some v →
      Runs.exec (SlackIdentity.step S) t [b] = some v := fun hb => by rw [Runs.exec_cons, hb]; rfl
  cases a with
  | event i event botUserId bodyTeamId now =>
    simp only [SlackIdentity.step] at hstep
    rw [← h.2.2] at hstep
    split at hstep
    · cases hstep
    · next hfree =>
      split at hstep
      · next hignored =>
        obtain rfl := Option.some.inj hstep
        refine ⟨t, hone ?_, h⟩
        simp only [SlackIdentity.step]
        rw [if_neg hfree, if_pos hignored]
      · next hhuman =>
        obtain rfl := Option.some.inj hstep
        refine ⟨_, hone ?_, h.resolve i _ _ _ now⟩
        simp only [SlackIdentity.step]
        rw [if_neg hfree, if_neg hhuman]
  | clicked i token teamId user now =>
    simp only [SlackIdentity.step] at hstep
    rw [← h.2.2] at hstep
    split at hstep
    · cases hstep
    · next hfree =>
      obtain rfl := Option.some.inj hstep
      refine ⟨_, hone ?_, h.clicked i token teamId user now⟩
      simp only [SlackIdentity.step]
      rw [if_neg hfree]
  | answered i user profile now =>
    obtain ⟨task, ht, hrest⟩ := Option.bind_eq_some_iff.mp hstep
    split at hrest
    · next hphase =>
      obtain rfl := Option.some.inj hrest
      refine ⟨answered S t i task ⟨profile.email, [], []⟩ now, hone ?_, ?_⟩
      · simp only [SlackIdentity.step]
        rw [h.2.2, ht, Option.bind_some, if_pos hphase]
      · refine ⟨?_, h.2.1, ?_⟩
        · show putValue S t.entries _ _ now = putValue S s.entries _ _ now
          rw [h.1]
        · show Function.update t.tasks i _ = Function.update s.tasks i _
          rw [h.2.2]
    · cases hrest
  | refused i detail =>
    obtain ⟨task, ht, hrest⟩ := Option.bind_eq_some_iff.mp hstep
    split at hrest
    · next hphase =>
      obtain rfl := Option.some.inj hrest
      refine ⟨_, hone ?_, h.setTask i _⟩
      simp only [SlackIdentity.step]
      rw [h.2.2, ht, Option.bind_some, if_pos hphase]
    · cases hrest
  | roster i email audiences =>
    obtain ⟨task, ht, hrest⟩ := Option.bind_eq_some_iff.mp hstep
    split at hrest
    · next hphase =>
      obtain rfl := Option.some.inj hrest
      refine ⟨_, hone ?_, h.setTask i _⟩
      simp only [SlackIdentity.step]
      rw [h.2.2, ht, Option.bind_some, if_pos hphase]
    · cases hrest
  | nameAsked i teamId user now =>
    simp only [SlackIdentity.step] at hstep
    split at hstep
    · cases hstep
    · obtain rfl := Option.some.inj hstep
      refine ⟨t, rfl, ?_⟩
      unfold displayName
      split
      · exact h
      · dsimp only
        split
        · exact h
        · exact h
  | named i profile now =>
    obtain ⟨key, -, rfl⟩ := Option.map_eq_some_iff.mp hstep
    exact ⟨t, rfl, h⟩
  | unnamed i =>
    obtain ⟨key, -, rfl⟩ := Option.map_eq_some_iff.mp hstep
    exact ⟨t, rfl, h⟩
  | minted token path owner now =>
    obtain rfl := Option.some.inj hstep
    refine ⟨_, hone rfl, h.1, ?_, h.2.2⟩
    show Ttl.put S.maxTokens t.tokens token _ _ = Ttl.put S.maxTokens s.tokens token _ _
    rw [h.2.1]

/-- the identities, and the pages read under them, are those of the run without display names -/
theorem names_erased {as : List (Action ι)} {s : State ι} (h : Runs.exec (step S) State.start as = some s) :
    ∃ t, Runs.exec (step S) State.start (as.filterMap Action.nameless) = some t ∧ t.tasks = s.tasks ∧
      t.read = s.read := by
  have hrun : ∃ t, Runs.exec (step S) State.start (as.filterMap Action.nameless) = some t ∧ Alike s t := by
    refine Runs.exec_history (I := fun as s =>
      ∃ t, Runs.exec (step S) State.start (as.filterMap Action.nameless) = some t ∧ Alike s t)
      ⟨State.start, rfl, rfl, rfl, rfl⟩ ?_ h
    intro as s a u hinv hstep
    obtain ⟨t, ht, halike⟩ := hinv
    obtain ⟨v, hv, hlast⟩ := halike.step hstep
    refine ⟨v, ?_, hlast⟩
    rw [List.filterMap_append, Runs.exec_append, ht, Option.bind_some]
    cases hname : a.nameless with
    | none =>
      rw [hname] at hv
      rw [List.filterMap_cons_none hname]
      exact hv
    | some b =>
      rw [hname] at hv
      rw [List.filterMap_cons_some hname]
      exact hv
  obtain ⟨t, ht, -, -, htasks⟩ := hrun
  refine ⟨t, ht, htasks, ?_⟩
  funext i
  unfold State.read
  rw [htasks]

theorem names_erased_asks : ∃ s t,
    Runs.exec (step (Settings.default "T1".toList)) State.start asksAndClicks = some s ∧
    Runs.exec (step (Settings.default "T1".toList)) State.start (asksAndClicks.filterMap Action.nameless) = some t ∧
    t.tasks = s.tasks := by
  obtain ⟨s, hs, -⟩ := asksAndClicks_runs (P := fun _ => True) (by decide +kernel)
  obtain ⟨t, ht, htasks, -⟩ := names_erased hs
  exact ⟨s, t, hs, ht, htasks⟩

/-! ## Bounds -/

variable (S) in
structure Bounded (s : State ι) : Prop where
  entries : s.entries.length ≤ S.maxEntries
  displayNames : s.displayNames.length ≤ S.maxEntries
  tokens : s.tokens.length ≤ S.maxTokens

/-- the bounds are about the stores alone -/
theorem Bounded.of_stores {s t : State ι} (h : Bounded S s) (hentries : t.entries = s.entries)
    (hdisplayNames : t.displayNames = s.displayNames) (htokens : t.tokens = s.tokens) : Bounded S t :=
  ⟨hentries ▸ h.entries, hdisplayNames ▸ h.displayNames, htokens ▸ h.tokens⟩

theorem length_putValue {d : Ttl.Store (Text × Text) Text} (h : d.length ≤ S.maxEntries) (key : Text × Text)
    (value : Text) (now : ℚ) : (putValue S d key value now).length ≤ S.maxEntries := by
  unfold putValue
  split
  · exact h
  · exact Ttl.length_put S.maxEntries_pos h key value _

theorem Bounded.resolve {s : State ι} (h : Bounded S s) (i : ι) (purpose : Purpose) (teamId user : Text) (now : ℚ) :
    Bounded S (resolve S s i purpose teamId user now) := by
  unfold SlackIdentity.resolve
  split
  · exact ⟨(Ttl.length_get _ _ _).trans h.entries, h.displayNames, h.tokens⟩
  · exact h.of_stores rfl rfl rfl

theorem Bounded.step {s u : State ι} {a : Action ι} (h : Bounded S s) (hstep : step S s a = some u) :
    Bounded S u := by
  cases a with
  | event i event botUserId bodyTeamId now =>
    simp only [SlackIdentity.step] at hstep
    split at hstep
    · cases hstep
    · split at hstep
      · exact Option.some.inj hstep ▸ h
      · exact Option.some.inj hstep ▸ h.resolve i _ _ _ now
  | clicked i token teamId user now =>
    simp only [SlackIdentity.step] at hstep
    split at hstep
    · cases hstep
    · obtain rfl := Option.some.inj hstep
      have hstores : Bounded S { s with tokens := (Ttl.get s.tokens token now).1 } :=
        ⟨h.entries, h.displayNames, (Ttl.length_get _ _ _).trans h.tokens⟩
      unfold clicked
      dsimp only
      split
      · exact hstores
      · split
        · exact hstores.resolve i _ teamId user now
        · exact hstores
  | answered i user profile now =>
    obtain ⟨t, ht, hrest⟩ := Option.bind_eq_some_iff.mp hstep
    split at hrest
    · obtain rfl := Option.some.inj hrest
      exact ⟨length_putValue h.entries _ _ now, length_putValue h.displayNames _ _ now, h.tokens⟩
    · cases hrest
  | refused i detail =>
    obtain ⟨t, ht, hrest⟩ := Option.bind_eq_some_iff.mp hstep
    split at hrest
    · obtain rfl := Option.some.inj hrest
      exact h.of_stores rfl rfl rfl
    · cases hrest
  | roster i email audiences =>
    obtain ⟨t, ht, hrest⟩ := Option.bind_eq_some_iff.mp hstep
    split at hrest
    · obtain rfl := Option.some.inj hrest
      exact h.of_stores rfl rfl rfl
    · cases hrest
  | nameAsked i teamId user now =>
    simp only [SlackIdentity.step] at hstep
    split at hstep
    · cases hstep
    · obtain rfl := Option.some.inj hstep
      unfold displayName
      split
      · exact h
      · dsimp only
        split
        · exact ⟨h.entries, (Ttl.length_get _ _ _).trans h.displayNames, h.tokens⟩
        · exact ⟨h.entries, (Ttl.length_get _ _ _).trans h.displayNames, h.tokens⟩
  | named i profile now =>
    obtain ⟨key, -, rfl⟩ := Option.map_eq_some_iff.mp hstep
    exact ⟨h.entries, length_putValue h.displayNames _ _ now, h.tokens⟩
  | unnamed i =>
    obtain ⟨key, -, rfl⟩ := Option.map_eq_some_iff.mp hstep
    exact h.of_stores rfl rfl rfl
  | minted token path owner now =>
    obtain rfl := Option.some.inj hstep
    exact ⟨h.entries, h.displayNames, Ttl.length_put S.maxTokens_pos h.tokens token _ _⟩

/-- no store grows past its bound in any run -/
theorem bounded {as : List (Action ι)} {s : State ι} (h : Runs.exec (step S) State.start as = some s) :
    Bounded S s :=
  Runs.exec_invariant (fun _ _ _ hs hstep => hs.step hstep)
    ⟨Nat.zero_le _, Nat.zero_le _, Nat.zero_le _⟩ h

end

end SlackIdentity
