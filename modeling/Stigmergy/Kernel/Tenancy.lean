import Stigmergy.Lib.Text

/-!
# The tenant a connection acts for

`tenant_scope` and `platform_scope` of `kernel/tenancy.py`, with code nested in them in any way.  A
session setting belongs to the transaction it is made in: it goes when the transaction is rolled back,
and is refused in one that is aborted.  A connection commits each statement by itself outside
`conn.transaction()`.

* `Session`, `setConfig`   the two settings, and those each open transaction began with;
* `run`            code in scopes and transactions, any statement of which may fail;
* `Kept`           what code leaves of the session it starts in;
* `kept_run`       all code does;
* `fits_run`       each statement sees what the scope around it stands for;
* `scope_restored` the two together.
-/

set_option linter.unusedSectionVars false

namespace Tenancy

def PLATFORM : Text := "platform".toList

/-- a tenant id in the form `checked_uuid` gives it -/
abbrev TenantId := { t : Text // t ≠ [] }

/-- the settings `app.tenant_id` and `app.scope` -/
structure Settings where
  tenant : Text
  scope : Text
deriving DecidableEq

/-- `VISIBLE`: the rows a policy lets through -/
def visible (s : Settings) (row : Text) : Prop :=
  s.scope = PLATFORM ∨ (s.tenant ≠ [] ∧ row = s.tenant)

@[ext] structure Session where
  settings : Settings
  /-- what the settings were when each open transaction or savepoint began, the innermost first -/
  saved : List Settings
  aborted : Bool
deriving DecidableEq

/-- `_get` of both settings; an aborted transaction refuses it -/
def get (s : Session) : Option Settings := if s.aborted then none else some s.settings

/-- `_set`: `set_config(…, false)` -/
def setConfig (change : Settings → Settings) (s : Session) : Option Session :=
  if s.aborted then none else some { s with settings := change s.settings }

def setTenant (value : Text) (x : Settings) : Settings := { x with tenant := value }
def setScope (value : Text) (x : Settings) : Settings := { x with scope := value }

/-! ## code -/

/-- the innermost scope around a statement -/
inductive Place where
  /-- none; the settings are those the code starts with -/
  | outside (start : Settings)
  | tenant (t : TenantId)
  | platform

/-- a statement that was run, and the settings it saw -/
structure Seen where
  place : Place
  settings : Settings

structure Result where
  session : Session
  /-- an exception leaves the code -/
  raised : Bool
  seen : List Seen

/-- code with the outcomes of its statements -/
inductive Code where
  | pass
  | raise
  | statement (fails : Bool)
  | seq (p q : Code)
  | tryExcept (p q : Code)
  | tryFinally (p q : Code)
  | tenantScope (tenantId : Text) (body : Code)
  | platformScope (body : Code)
  | transaction (commits : Bool) (body : Code)

def failed (s : Session) : Result := ⟨s, true, []⟩

/-- a statement of the code; one that fails aborts the transaction it is in -/
def statement (place : Place) (fails : Bool) (s : Session) : Result :=
  match get s with
  | none => failed s
  | some settings => ⟨{ s with aborted := fails && !s.saved.isEmpty }, fails, [⟨place, settings⟩]⟩

/-- `_restore`: what an aborted transaction refuses, its end undoes -/
def restore (change : Settings → Settings) (r : Result) : Result :=
  match setConfig change r.session with
  | some s => { r with session := s }
  | none => if r.session.aborted then r else { r with raised := true }

/-- the end of `conn.transaction()` -/
def leave (commits : Bool) (r : Result) : Result :=
  match r.session.saved with
  | [] => r
  | start :: outer =>
    if r.raised then { r with session := ⟨start, outer, false⟩ }
    else if r.session.aborted || !commits then
      -- COMMIT rolls an aborted transaction back; a savepoint in one cannot be released
      if outer.isEmpty then ⟨⟨start, outer, false⟩, !r.session.aborted, r.seen⟩
      else ⟨⟨r.session.settings, outer, true⟩, true, r.seen⟩
    else { r with session := ⟨r.session.settings, outer, false⟩ }

/-- `conn.transaction()`: `BEGIN`, or a savepoint inside another -/
def transaction (commits : Bool) (body : Session → Result) (s : Session) : Result :=
  match get s with
  | none => failed s
  | some settings => leave commits (body { s with saved := settings :: s.saved })

section
variable (checkedUuid : Text → Option TenantId)

/-- `tenant_scope` -/
def tenantScope (tenantId : Text) (body : TenantId → Session → Result) (s : Session) : Result :=
  match get s with
  | none => failed s
  | some previous =>
    match checkedUuid tenantId with
    | none => failed s
    | some t =>
      match setConfig (setTenant t) s with
      | none => failed s
      | some bound =>
        match if previous.scope.isEmpty then some bound else setConfig (setScope []) bound with
        | none => failed bound
        | some inner =>
          let r := body t inner
          restore (setTenant previous.tenant)
            (if previous.scope.isEmpty then r else restore (setScope previous.scope) r)

/-- `platform_scope` -/
def platformScope (body : Session → Result) (s : Session) : Result :=
  match get s with
  | none => failed s
  | some previous =>
    match setConfig (setScope PLATFORM) s with
    | none => failed s
    | some inner => restore (setScope previous.scope) (body inner)

def run (place : Place) : Code → Session → Result
  | .pass, s => ⟨s, false, []⟩
  | .raise, s => failed s
  | .statement fails, s => statement place fails s
  | .seq p q, s =>
    let r := run place p s
    if r.raised then r
    else
      let r' := run place q r.session
      { r' with seen := r.seen ++ r'.seen }
  | .tryExcept p q, s =>
    let r := run place p s
    if r.raised then
      let r' := run place q r.session
      { r' with seen := r.seen ++ r'.seen }
    else r
  | .tryFinally p q, s =>
    let r := run place p s
    let r' := run place q r.session
    ⟨r'.session, r.raised || r'.raised, r.seen ++ r'.seen⟩
  | .tenantScope tenantId body, s =>
    tenantScope checkedUuid tenantId (fun t inner => run (.tenant t) body inner) s
  | .platformScope body, s => platformScope (fun inner => run .platform body inner) s
  | .transaction commits body, s => transaction commits (fun inner => run place body inner) s

end

/-! ## what code leaves -/

/-- the transactions around the code are as they were, and so are the settings, unless one of them is
aborted; then no statement is run before its end, which brings back the settings it began with -/
structure Kept (s s' : Session) : Prop where
  saved : s'.saved = s.saved
  settings : s'.aborted = false → s'.settings = s.settings
  aborted : s.aborted = true → s'.aborted = true
  inside : s'.aborted = true → s.aborted = true ∨ s.saved ≠ []

theorem Kept.refl (s : Session) : Kept s s := ⟨rfl, fun _ => rfl, id, Or.inl⟩

theorem Kept.trans {s t u : Session} (hst : Kept s t) (htu : Kept t u) : Kept s u where
  saved := htu.saved.trans hst.saved
  settings := by
    intro hu
    have ht : t.aborted = false := Bool.eq_false_iff.mpr fun h => by
      rw [htu.aborted h] at hu
      exact nomatch hu
    rw [htu.settings hu, hst.settings ht]
  aborted := fun hs => htu.aborted (hst.aborted hs)
  inside := by
    intro hu
    rcases htu.inside hu with ht | hne
    · exact hst.inside ht
    · rw [hst.saved] at hne
      exact Or.inr hne

theorem get_eq_some {s : Session} {x : Settings} (h : get s = some x) :
    s.aborted = false ∧ x = s.settings := by
  unfold get at h
  split at h
  · exact nomatch h
  · rename_i hopen
    exact ⟨Bool.eq_false_iff.mpr hopen, (Option.some.inj h).symm⟩

theorem setConfig_eq_some {change : Settings → Settings} {s s' : Session}
    (h : setConfig change s = some s') :
    s.aborted = false ∧ s' = { s with settings := change s.settings } := by
  unfold setConfig at h
  split at h
  · exact nomatch h
  · rename_i hopen
    exact ⟨Bool.eq_false_iff.mpr hopen, (Option.some.inj h).symm⟩

/-- a restore that is refused changes nothing, one that is not makes the change -/
theorem session_restore (change : Settings → Settings) (r : Result) : (restore change r).session =
    if r.session.aborted then r.session
    else { r.session with settings := change r.session.settings } := by
  unfold restore setConfig
  by_cases h : r.session.aborted = true
  · simp only [if_pos h]
  · simp only [if_neg h]

theorem session_restore_restore (change change' : Settings → Settings) (r : Result) :
    (restore change' (restore change r)).session =
      if r.session.aborted then r.session
      else { r.session with settings := change' (change r.session.settings) } := by
  rw [session_restore, session_restore]
  by_cases h : r.session.aborted = true
  · simp only [if_pos h]
  · simp only [if_neg h]

theorem seen_restore (change : Settings → Settings) (r : Result) :
    (restore change r).seen = r.seen := by
  unfold restore
  split
  · rfl
  · split
    · rfl
    · rfl

theorem kept_statement (place : Place) (fails : Bool) (s : Session) :
    Kept s (statement place fails s).session := by
  unfold statement
  cases hg : get s with
  | none => exact Kept.refl s
  | some x =>
    obtain ⟨hopen, -⟩ := get_eq_some hg
    refine ⟨rfl, fun _ => rfl, fun h => ?_, fun h => ?_⟩
    · rw [hopen] at h
      exact nomatch h
    · right
      rintro hnil
      dsimp only at h
      rw [hnil, Bool.and_eq_true] at h
      exact nomatch h.2

/-- a transaction around code that keeps its session keeps it too -/
theorem kept_transaction {commits : Bool} {body : Session → Result} {s : Session}
    (hbody : ∀ inner, Kept inner (body inner).session) : Kept s (transaction commits body s).session := by
  unfold transaction
  cases hg : get s with
  | none => exact Kept.refl s
  | some x =>
    obtain ⟨hopen, rfl⟩ := get_eq_some hg
    have hk := hbody { s with saved := s.settings :: s.saved }
    dsimp only
    set r := body { s with saved := s.settings :: s.saved } with hr
    have hs : s.aborted = true → ∀ b : Bool, b = true := fun h => by
      rw [hopen] at h
      exact nomatch h
    unfold leave
    rw [hk.saved]
    dsimp only
    split
    · exact ⟨rfl, fun _ => rfl, fun h => hs h _, nofun⟩
    · split
      · split
        · exact ⟨rfl, fun _ => rfl, fun h => hs h _, nofun⟩
        · rename_i hne
          exact ⟨rfl, nofun, fun _ => rfl, fun _ => Or.inr fun e => hne (by rw [e]; rfl)⟩
      · rename_i hcond
        rw [Bool.or_eq_true, not_or] at hcond
        exact ⟨rfl, fun _ => hk.settings (Bool.eq_false_iff.mpr hcond.1), fun h => hs h _, nofun⟩

/-- a scope that takes back its change keeps the session -/
theorem kept_scope {s inner after : Session} {back : Settings → Settings} (hk : Kept inner after)
    (hopen : s.aborted = false) (hsaved : inner.saved = s.saved) (hinner : inner.aborted = false)
    (hback : back inner.settings = s.settings) :
    Kept s (if after.aborted then after else { after with settings := back after.settings }) := by
  have hs : s.aborted = true → ∀ b : Bool, b = true := fun h => by
    rw [hopen] at h
    exact nomatch h
  by_cases ha : after.aborted = true
  · rw [if_pos ha]
    refine ⟨hk.saved.trans hsaved, fun h => ?_, fun h => hs h _, fun _ => ?_⟩
    · rw [ha] at h
      exact nomatch h
    · rcases hk.inside ha with h | h
      · rw [hinner] at h
        exact nomatch h
      · rw [hsaved] at h
        exact Or.inr h
  · rw [if_neg ha]
    refine ⟨hk.saved.trans hsaved, fun _ => ?_, fun h => hs h _, fun h => absurd h ha⟩
    show back after.settings = s.settings
    rw [hk.settings (Bool.eq_false_iff.mpr ha), hback]

section
variable (checkedUuid : Text → Option TenantId)

/-- the settings in a scope of one tenant -/
def only (t : TenantId) : Settings := ⟨t, []⟩

/-- a scope of a tenant that is entered runs its body with the tenant's settings, and takes them back -/
theorem tenantScope_cases (tenantId : Text) (body : TenantId → Session → Result) (s : Session) :
    tenantScope checkedUuid tenantId body s = failed s ∨
      ∃ (t : TenantId) (back : Settings → Settings), s.aborted = false ∧ back (only t) = s.settings ∧
        (tenantScope checkedUuid tenantId body s).seen = (body t { s with settings := only t }).seen ∧
        (tenantScope checkedUuid tenantId body s).session =
          let after := (body t { s with settings := only t }).session
          if after.aborted then after else { after with settings := back after.settings } := by
  unfold tenantScope
  cases hg : get s with
  | none => exact Or.inl rfl
  | some previous =>
    obtain ⟨hopen, rfl⟩ := get_eq_some hg
    dsimp only
    cases checkedUuid tenantId with
    | none => exact Or.inl rfl
    | some t =>
      right
      have hset : ∀ (change : Settings → Settings) (x : Session), x.aborted = false →
          setConfig change x = some { x with settings := change x.settings } := fun change x hx => by
        unfold setConfig
        rw [hx]
        rfl
      dsimp only
      rw [hset _ s hopen]
      dsimp only
      by_cases hscope : s.settings.scope.isEmpty = true
      · have honly : setTenant t s.settings = only t := by
          unfold setTenant only
          rw [List.isEmpty_iff.mp hscope]
        refine ⟨t, setTenant s.settings.tenant, hopen, ?_, ?_, ?_⟩
        · rw [← honly]
          rfl
        · rw [if_pos hscope]
          dsimp only
          rw [if_pos hscope, seen_restore, honly]
        · rw [if_pos hscope]
          dsimp only
          rw [if_pos hscope, session_restore, honly]
      · refine ⟨t, fun x => setTenant s.settings.tenant (setScope s.settings.scope x), hopen, rfl, ?_, ?_⟩
        · rw [if_neg hscope, hset _ { s with settings := setTenant t s.settings } hopen]
          dsimp only
          rw [if_neg hscope, seen_restore, seen_restore]
          rfl
        · rw [if_neg hscope, hset _ { s with settings := setTenant t s.settings } hopen]
          dsimp only
          rw [if_neg hscope, session_restore_restore]
          rfl

theorem kept_tenantScope {tenantId : Text} {body : TenantId → Session → Result} {s : Session}
    (hbody : ∀ t inner, Kept inner (body t inner).session) :
    Kept s (tenantScope checkedUuid tenantId body s).session := by
  rcases tenantScope_cases checkedUuid tenantId body s with h | ⟨t, back, hopen, hback, -, h⟩
  · rw [h]
    exact Kept.refl s
  · rw [h]
    exact kept_scope (hbody t _) hopen rfl hopen hback

theorem platformScope_cases (body : Session → Result) (s : Session) :
    platformScope body s = failed s ∨
      s.aborted = false ∧
        (platformScope body s).seen = (body { s with settings := setScope PLATFORM s.settings }).seen ∧
        (platformScope body s).session =
          let after := (body { s with settings := setScope PLATFORM s.settings }).session
          if after.aborted then after
          else { after with settings := setScope s.settings.scope after.settings } := by
  unfold platformScope
  cases hg : get s with
  | none => exact Or.inl rfl
  | some previous =>
    obtain ⟨hopen, rfl⟩ := get_eq_some hg
    dsimp only
    cases hset : setConfig (setScope PLATFORM) s with
    | none => exact Or.inl rfl
    | some inner =>
      obtain ⟨-, rfl⟩ := setConfig_eq_some hset
      exact Or.inr ⟨hopen, seen_restore _ _, session_restore _ _⟩

theorem kept_platformScope {body : Session → Result} {s : Session}
    (hbody : ∀ inner, Kept inner (body inner).session) : Kept s (platformScope body s).session := by
  rcases platformScope_cases body s with h | ⟨hopen, -, h⟩
  · rw [h]
    exact Kept.refl s
  · rw [h]
    exact kept_scope (hbody _) hopen rfl hopen rfl

/-- whatever the code and the outcomes of its statements -/
theorem kept_run (place : Place) (p : Code) (s : Session) :
    Kept s (run checkedUuid place p s).session := by
  induction p generalizing place s with
  | pass => exact Kept.refl s
  | raise => exact Kept.refl s
  | statement fails => exact kept_statement place fails s
  | seq p q ihp ihq =>
    unfold run
    dsimp only
    split
    · exact ihp place s
    · exact (ihp place s).trans (ihq place _)
  | tryExcept p q ihp ihq =>
    unfold run
    dsimp only
    split
    · exact (ihp place s).trans (ihq place _)
    · exact ihp place s
  | tryFinally p q ihp ihq => exact (ihp place s).trans (ihq place _)
  | tenantScope tenantId body ih => exact kept_tenantScope checkedUuid fun t inner => ih (.tenant t) inner
  | platformScope body ih => exact kept_platformScope fun inner => ih .platform inner
  | transaction commits body ih => exact kept_transaction fun inner => ih place inner

/-! ## what statements see -/

/-- the settings a scope stands for -/
def Fits : Place → Settings → Prop
  | .outside start, x => x = start
  | .tenant t, x => x = only t
  | .platform, x => x.scope = PLATFORM

/-- the session is in the place, unless it is aborted -/
def At (place : Place) (s : Session) : Prop := s.aborted = false → Fits place s.settings

theorem At.kept {place : Place} {s s' : Session} (h : At place s) (hk : Kept s s') : At place s' := by
  intro hs'
  have hs : s.aborted = false := Bool.eq_false_iff.mpr fun e => by
    rw [hk.aborted e] at hs'
    exact nomatch hs'
  rw [hk.settings hs']
  exact h hs

theorem seen_leave (commits : Bool) (r : Result) : (leave commits r).seen = r.seen := by
  unfold leave
  split
  · rfl
  · split
    · rfl
    · split
      · split
        · rfl
        · rfl
      · rfl

theorem fits_run {place : Place} (p : Code) {s : Session} (h : At place s) :
    ∀ e ∈ (run checkedUuid place p s).seen, Fits e.place e.settings := by
  induction p generalizing place s with
  | pass => exact nofun
  | raise => exact nofun
  | statement fails =>
    unfold run statement
    cases hg : get s with
    | none => exact nofun
    | some x =>
      obtain ⟨hopen, rfl⟩ := get_eq_some hg
      intro e he
      rw [List.mem_singleton.mp he]
      exact h hopen
  | seq p q ihp ihq =>
    unfold run
    dsimp only
    split
    · exact ihp h
    · intro e he
      rcases List.mem_append.mp he with he | he
      · exact ihp h e he
      · exact ihq (h.kept (kept_run checkedUuid place p s)) e he
  | tryExcept p q ihp ihq =>
    unfold run
    dsimp only
    split
    · intro e he
      rcases List.mem_append.mp he with he | he
      · exact ihp h e he
      · exact ihq (h.kept (kept_run checkedUuid place p s)) e he
    · exact ihp h
  | tryFinally p q ihp ihq =>
    intro e he
    rcases List.mem_append.mp he with he | he
    · exact ihp h e he
    · exact ihq (h.kept (kept_run checkedUuid place p s)) e he
  | tenantScope tenantId body ih =>
    unfold run
    rcases tenantScope_cases checkedUuid tenantId
      (fun t inner => run checkedUuid (.tenant t) body inner) s with hf | ⟨t, back, -, -, hseen, -⟩
    · rw [hf]
      exact nofun
    · rw [hseen]
      exact ih fun _ => rfl
  | platformScope body ih =>
    unfold run
    rcases platformScope_cases (fun inner => run checkedUuid .platform body inner) s with
      hf | ⟨-, hseen, -⟩
    · rw [hf]
      exact nofun
    · rw [hseen]
      exact ih fun _ => rfl
  | transaction commits body ih =>
    unfold run transaction
    cases hg : get s with
    | none => exact nofun
    | some x =>
      obtain ⟨hopen, rfl⟩ := get_eq_some hg
      dsimp only
      rw [seen_leave]
      exact ih fun _ => h hopen

theorem visible_only (t : TenantId) (row : Text) : visible (only t) row ↔ row = t := by
  unfold visible only
  constructor
  · rintro (h | h)
    · exact nomatch h
    · exact h.2
  · intro h
    exact Or.inr ⟨t.2, h⟩

/-- Whatever runs in a scope, the settings after it are those before it, unless a transaction around it
is aborted: then nothing is run before that transaction ends, which brings back the settings it began
with.  Outside transactions the session is as it was.  A statement directly in a scope of a tenant sees
the rows of the tenant. -/
theorem scope_restored (block : Code) (s : Session) :
    let r := run checkedUuid (.outside s.settings) block s
    (r.session.saved = s.saved ∧
      (r.session.settings = s.settings ∨ r.session.aborted = true) ∧
      (r.session.aborted = true → s.aborted = true ∨ s.saved ≠ []) ∧
      (s.saved = [] ∧ s.aborted = false → r.session = s)) ∧
    ∀ e ∈ r.seen, Fits e.place e.settings ∧
      ∀ t, e.place = .tenant t → ∀ row, visible e.settings row ↔ row = t := by
  intro r
  have hk := kept_run checkedUuid (.outside s.settings) block s
  refine ⟨⟨hk.saved, ?_, hk.inside, fun hout => ?_⟩, fun e he => ?_⟩
  · cases h : r.session.aborted with
    | true => exact Or.inr rfl
    | false => exact Or.inl (hk.settings h)
  · obtain ⟨hnil, hopen⟩ := hout
    have hopen' : r.session.aborted = false := Bool.eq_false_iff.mpr fun h => by
      rcases hk.inside h with h | h
      · rw [hopen] at h
        exact nomatch h
      · exact h hnil
    exact Session.ext (hk.settings hopen') hk.saved (hopen'.trans hopen.symm)
  · have hat : At (.outside s.settings) s := fun _ => rfl
    have hfits := fits_run checkedUuid block hat e he
    refine ⟨hfits, fun t ht row => ?_⟩
    rw [ht] at hfits
    rw [show e.settings = only t from hfits]
    exact visible_only t row

/-- a scope in a transaction that is rolled back, within platform scope -/
example : (run (fun t => if h : t ≠ [] then some ⟨t, h⟩ else none) (.outside ⟨[], PLATFORM⟩)
    (.tryExcept (.transaction true (.tenantScope ['t'] (.statement true))) .pass)
    ⟨⟨[], PLATFORM⟩, [], false⟩).session = ⟨⟨[], PLATFORM⟩, [], false⟩ := by decide

end

end Tenancy
