import Mathlib.Data.List.AList
import Mathlib.Data.List.Sort
import Mathlib.Data.List.Lex
import Mathlib.Logic.Function.Basic
import Stigmergy.Kernel.Ascii
import Stigmergy.Kernel.Layers
import Stigmergy.Lib.Checks
import Stigmergy.Lib.Runs
import Stigmergy.Lib.Table

/-!
# The roster of a tenant

People, groups and Slack channels of one live tenant, from `server/roster.py`.  A write that checks
another row first holds the roster lock; a group is created and a channel deleted by one statement
without it.  Creating and updating a principal read it back after their transaction.

* `validated`    the checked fields of a principal;
* `perform`      what an operation writes, or the message it refuses with;
* `step`         calls by any callers, statement by statement;
* `Kept`         what a roster keeps (`kept_perform`, `inv_step`);
* `roster_kept`  it does in every run, and an operation that raises has changed nothing as long as no one
                 updates a disabled principal, or disables or deletes one that is read back.
-/

set_option linter.unusedSectionVars false

namespace Roster

/-- a value of a request -/
inductive Value where
  | null
  | bool (b : Bool)
  | number (truthy : Bool) (shown : Text)
  | text (t : Text)
  | list (items : List Value) (shown : Text)
  | object (keys : List Text) (shown : Text)

namespace Value

def truthy : Value → Bool
  | null => false
  | bool b => b
  | number t _ => t
  | text t => !t.isEmpty
  | list items _ => !items.isEmpty
  | object keys _ => !keys.isEmpty

/-- `str(value or "")` -/
def orEmpty (v : Value) : Text :=
  if v.truthy then
    match v with
    | null => []
    | bool _ => "True".toList
    | text t => t
    | number _ t | list _ t | object _ t => t
  else []

/-- `list(value)`, nothing for a `TypeError` -/
def items : Value → Option (List Value)
  | text t => some (t.map fun c => .text [c])
  | list items _ => some items
  | object keys _ => some (keys.map .text)
  | null | bool _ | number _ _ => none

/-- `list(value or [])` -/
def itemsOrNone (v : Value) : Option (List Value) := if v.truthy then v.items else some []

end Value

abbrev Data := List (Text × Value)

/-- `data.get(key)` -/
def Data.get (data : Data) (key : String) : Value :=
  ((data.find? fun e => e.1 == key.toList).map (·.2)).getD .null

/-! ## tables -/

inductive Kind where
  | person | agent
deriving DecidableEq

def Kind.name : Kind → Text
  | person => "person".toList
  | agent => "agent".toList

/-- a row of `roster_principals`, under its subject -/
structure PrincipalRow where
  displayName : Text
  kind : Kind
  isAdmin : Bool
  groups : List Text
  defaultAudience : Option (List Text)
  disabledAt : Option Time
deriving DecidableEq

structure Roster where
  /-- name and description -/
  groups : AList fun _ : Text => Text
  principals : AList fun _ : Text => PrincipalRow
  /-- the audience of a channel; `public` without one -/
  channels : AList fun _ : Text => Option (List Text)

/-! ## checks -/

def UNRESTRICTED_GROUP : Text := "brain-admins".toList
def MAX_GROUPS : ℕ := 32
def MAX_GROUP_NAME_CHARS : ℕ := 64
def MAX_DISPLAY_NAME_CHARS : ℕ := 120
def MAX_DESCRIPTION_CHARS : ℕ := 1000

def isNameStart (c : Char) : Bool :=
  ('A' ≤ c && c ≤ 'Z') || ('a' ≤ c && c ≤ 'z') || ('0' ≤ c && c ≤ '9')

/-- `[A-Za-z0-9][A-Za-z0-9._-]*` -/
def isGroupName : Text → Bool
  | [] => false
  | c :: t => isNameStart c && t.all fun d => isNameStart d || d == '.' || d == '_' || d == '-'

/-- `[^@\s]+@[^@\s]+\.[^@\s]+` -/
def isEmail (t : Text) : Bool :=
  let isPart (c : Char) := c != '@' && !Text.isSpace c
  let user := t.takeWhile isPart
  let domain := t.drop (user.length + 1)
  !user.isEmpty && t[user.length]? == some '@' && domain.all isPart &&
    (domain.drop 1).dropLast.contains '.'

section
variable (R : Runtime)

/-- `_subject` -/
def checkSubject (value : Value) : Except Text Text :=
  let subject := R.lower (Text.strip value.orEmpty)
  if !isEmail subject || 254 < subject.length then .error "the identity must be an email address".toList
  else .ok subject

/-- `check_group_names` after the names before are found good -/
def checkNames (subject : Text) : List Text → List Value → Except Text (List Text)
  | result, [] => .ok result
  | result, .text value :: values =>
    let name := Text.strip value
    if MAX_GROUP_NAME_CHARS < name.length || !isGroupName name || R.casefold name == "all".toList ||
        name == ['*'] then
      .error (subject ++ " contains an invalid group name in the roster: use an explicit list of groups".toList)
    else if R.casefold name == R.casefold UNRESTRICTED_GROUP && name != UNRESTRICTED_GROUP then
      .error (subject ++ " contains a mis-cased unrestricted group in the roster".toList)
    else if result.contains name then
      .error (subject ++ " contains a duplicate group in the roster".toList)
    else checkNames subject (result ++ [name]) values
  | _, _ :: _ => .error (subject ++ " contains a non-string group in the roster".toList)

def checkGroupNames (subject : Text) (names : List Value) : Except Text (List Text) :=
  if MAX_GROUPS < names.length then
    .error (subject ++ " exceeds the 32-group limit in the roster".toList)
  else checkNames R subject [] names

/-- `_groups` against the groups that are stored -/
def checkGroups (known : List Text) (value : Value) (subject : Text) : Except Text (List Text) :=
  match value.itemsOrNone with
  | none => .error "TypeError".toList
  | some names =>
    match checkGroupNames R subject names with
    | .error e => .error e
    | .ok groups =>
      if groups.any fun group => !known.contains group then
        .error (subject ++ " names a group that does not exist: ".toList ++
          ", ".toList.intercalate ((groups.filter fun group => !known.contains group).insertionSort
            (· ≤ ·)))
      else if groups.any fun group => group != UNRESTRICTED_GROUP && !Layers.isLayerName group then
        .error (subject ++ " names a group that is not a layer".toList)
      else .ok (groups.insertionSort (· ≤ ·))

def kindOf (v : Value) : Option Kind :=
  if v.truthy then
    match v with
    | .text t => if t = Kind.person.name then some .person else if t = Kind.agent.name then some .agent
      else none
    | _ => none
  else some .person

/-- the one layer of a `default_audience` -/
def defaultOf : Value → Option Text
  | .list [.text t] _ => some (Text.strip t)
  | _ => none

structure Values where
  displayName : Text
  kind : Kind
  isAdmin : Bool
  groups : List Text
  defaultLayer : Text

/-- `_validated` -/
def validated (known : List Text) (data : Data) : Except Text Values :=
  let displayName := Text.oneLine (data.get "display_name").orEmpty
  if displayName.isEmpty || MAX_DISPLAY_NAME_CHARS < displayName.length then
    .error "a display name of at most 120 characters is required".toList
  else
    match kindOf (data.get "kind") with
    | none => .error "kind must be person or agent".toList
    | some kind =>
      let isAdmin := (data.get "is_admin").truthy
      if isAdmin && kind != .person then
        .error "only a person can administer the backoffice".toList
      else
        match checkGroups R known (data.get "groups") "groups".toList with
        | .error e => .error e
        | .ok groups =>
          if isAdmin && !groups.contains UNRESTRICTED_GROUP then
            .error "an administrator must belong to brain-admins".toList
          else
            match defaultOf (data.get "default_audience") with
            | none => .error
                "a default layer is required: `public` or one of the identity's layers".toList
            | some layer =>
              if layer != Layers.PUBLIC && (layer == UNRESTRICTED_GROUP || !groups.contains layer) then
                .error "the default layer must be `public` or one of the identity's layers".toList
              else .ok ⟨displayName, kind, isAdmin, groups, layer⟩

/-- the row of checked values -/
def Values.row (v : Values) (disabledAt : Option Time) : PrincipalRow :=
  ⟨v.displayName, v.kind, v.isAdmin, v.groups, some [v.defaultLayer], disabledAt⟩

/-- the fields of a stored row under their names -/
def PrincipalRow.stored (row : PrincipalRow) : Data :=
  [("display_name".toList, .text row.displayName), ("kind".toList, .text row.kind.name),
    ("is_admin".toList, .bool row.isAdmin), ("groups".toList, .list (row.groups.map .text) []),
    ("default_audience".toList,
      match row.defaultAudience with
      | none => .null
      | some names => .list (names.map .text) [])]

/-- `_admins_left` -/
def adminsLeft (r : Roster) (excluding : Text) : ℕ :=
  (r.principals.entries.filter fun e => e.2.isAdmin && e.2.disabledAt.isNone && e.1 != excluding).length

/-- `principal`: an enabled principal of the live tenant -/
def principal (r : Roster) (subject : Text) : Option PrincipalRow :=
  if subject.isEmpty then none
  else (r.principals.lookup (R.lower (Text.strip subject))).filter fun row => row.disabledAt.isNone

/-! ## operations -/

variable (upper : Text → Text)

inductive Op where
  | createPrincipal (data : Data)
  | updatePrincipal (subject : Value) (data : Data)
  | setDisabled (subject : Value) (disabled : Bool)
  | deletePrincipal (subject : Value)
  | createGroup (name description : Value)
  | deleteGroup (name : Text)
  | setChannel (channelId groups : Value)
  | deleteChannel (channelId : Value)

/-- whether the operation takes the roster lock -/
def Op.locks : Op → Bool
  | createGroup _ _ | deleteChannel _ => false
  | _ => true

/-- `[A-Z0-9]{6,20}` -/
def isChannelId (t : Text) : Bool :=
  t.all (fun c => ('A' ≤ c && c ≤ 'Z') || ('0' ≤ c && c ≤ '9')) && 6 ≤ t.length && t.length ≤ 20

def channelIdOf (v : Value) : Text := upper (Text.strip v.orEmpty)

/-- `list(groups) == [layers.PUBLIC]` -/
def isPublic : List Value → Bool
  | [.text t] => t == Layers.PUBLIC
  | _ => false

/-- the audience `set_channel` stores -/
def channelAudience (known : List Text) (groups : Value) : Except Text (Option (List Text)) :=
  match groups with
  | .null => .ok none
  | groups =>
    match groups.items with
    | none => .error "TypeError".toList
    | some items =>
      if isPublic items then .ok none
      else
        match checkGroups R known groups "channel audience".toList with
        | .error e => .error e
        | .ok audience =>
          if audience.length ≠ 1 then .error "a channel files into exactly one layer".toList
          else if audience.contains UNRESTRICTED_GROUP then
            .error "a channel cannot capture for the unrestricted group".toList
          else .ok (some audience)

/-- What an operation writes, or its refusal.  `seen` is the roster as the checks read it, `cur` as the
write finds it; `elsewhere` is what `_refuse_unless_empty` reads in other tables. -/
def perform (now : Time) (elsewhere : Option Text) (seen cur : Roster) : Op → Except Text Roster
  | .createPrincipal data =>
    match checkSubject R (data.get "subject") with
    | .error e => .error e
    | .ok subject =>
      match validated R seen.groups.keys data with
      | .error e => .error e
      | .ok values =>
        if (cur.principals.lookup subject).isSome then .error "that identity already exists".toList
        else .ok { cur with principals := cur.principals.insert subject (values.row none) }
  | .updatePrincipal subject data =>
    match checkSubject R subject with
    | .error e => .error e
    | .ok subject =>
      match seen.principals.lookup subject with
      | none => .error "that identity does not exist".toList
      | some row =>
        match validated R seen.groups.keys (data ++ row.stored) with
        | .error e => .error e
        | .ok values =>
          if row.isAdmin && !values.isAdmin && adminsLeft seen subject == 0 then
            .error "the last administrator cannot lose the role".toList
          else .ok { cur with
            principals := cur.principals.insert subject (values.row row.disabledAt) }
  | .setDisabled subject disabled =>
    match checkSubject R subject with
    | .error e => .error e
    | .ok subject =>
      match seen.principals.lookup subject with
      | none => .error "that identity does not exist".toList
      | some row =>
        if disabled && row.isAdmin && row.disabledAt.isNone && adminsLeft seen subject == 0 then
          .error "the last administrator cannot be disabled".toList
        else .ok { cur with
          principals := cur.principals.insert subject
            { row with disabledAt := if disabled then some now else none } }
  | .deletePrincipal subject =>
    match checkSubject R subject with
    | .error e => .error e
    | .ok subject =>
      match seen.principals.lookup subject with
      | none => .error "that identity does not exist".toList
      | some row =>
        if row.isAdmin && row.disabledAt.isNone && adminsLeft seen subject == 0 then
          .error "the last administrator cannot be deleted".toList
        else .ok { cur with principals := cur.principals.erase subject }
  | .createGroup name description =>
    let clean := Text.strip name.orEmpty
    let description := Text.oneLine description.orEmpty
    if !Layers.isLayerName clean then
      .error ("a layer name is 2 to 32 lowercase letters, digits, or hyphens, starting ".toList ++
        "with a letter, and not a reserved word".toList)
    else if MAX_DESCRIPTION_CHARS < description.length then .error "the description is too long".toList
    else if (cur.groups.lookup clean).isSome then .error "that group already exists".toList
    else .ok { cur with groups := cur.groups.insert clean description }
  | .deleteGroup name =>
    if name = UNRESTRICTED_GROUP then .error "the unrestricted group cannot be deleted".toList
    else if (Table.vals seen.principals).any (fun row => row.groups.contains name ||
          (row.defaultAudience.getD []).contains name) ||
        (Table.vals seen.channels).any (fun audience => (audience.getD []).contains name) then
      .error "a group in use by a person or a channel cannot be deleted".toList
    else
      match elsewhere with
      | some e => .error e
      | none =>
        if (cur.groups.lookup name).isSome then .ok { cur with groups := cur.groups.erase name }
        else .error "that group does not exist".toList
  | .setChannel channelId groups =>
    if !isChannelId (channelIdOf upper channelId) then
      .error "a Slack channel id looks like C0123456789".toList
    else
      match channelAudience R seen.groups.keys groups with
      | .error e => .error e
      | .ok audience => .ok { cur with
          channels := cur.channels.insert (channelIdOf upper channelId) audience }
  | .deleteChannel channelId =>
    if (cur.channels.lookup (channelIdOf upper channelId)).isSome then
      .ok { cur with channels := cur.channels.erase (channelIdOf upper channelId) }
    else .error "that channel is not mapped".toList

/-- the subject an operation reads back once its transaction has committed -/
def Op.readsBack : Op → Option Text
  | .createPrincipal data => (checkSubject R (data.get "subject")).toOption
  | .updatePrincipal subject _ => (checkSubject R subject).toOption
  | _ => none

end

/-! ## callers -/

inductive Phase where
  | idle
  /-- in a transaction that holds the roster lock -/
  | locked (op : Op)
  /-- its checks have read `seen` -/
  | checked (op : Op) (seen : Roster)
  /-- its transaction has committed: it found `found` and left `left` -/
  | committed (subject : Text) (found left : Roster)

/-- the end of an operation, with the roster its write found and left -/
structure Ended where
  raised : Bool
  found : Roster
  left : Roster

section
variable (π : Type*)

structure World where
  roster : Roster
  lock : Option π
  phase : π → Phase
  ended : List Ended

inductive Action where
  | call (p : π) (op : Op)
  | read (p : π)
  | commit (p : π) (now : Time) (elsewhere : Option Text)
  | readBack (p : π)
  /-- an exception from anywhere else -/
  | fail (p : π)

end

section
variable {π : Type*} [DecidableEq π] (R : Runtime) (upper : Text → Text)

def init (r : Roster) : World π := ⟨r, none, fun _ => .idle, []⟩

def World.move (w : World π) (p : π) (ph : Phase) : World π :=
  { w with phase := Function.update w.phase p ph }

/-- an operation that ends, and gives back the lock when it holds it -/
def World.finish (w : World π) (p : π) (e : Ended) : World π :=
  { w.move p .idle with
    lock := if w.lock = some p then none else w.lock
    ended := e :: w.ended }

/-- the transaction commits what the operation writes -/
def World.commit (w : World π) (p : π) (readsBack : Option Text) (r : Roster) : World π :=
  match readsBack with
  | none => { w.finish p ⟨false, w.roster, r⟩ with roster := r }
  | some subject =>
    { w.move p (.committed subject w.roster r) with
      lock := if w.lock = some p then none else w.lock
      roster := r }

def step (w : World π) : Action π → Option (World π)
  | .call p op =>
    match w.phase p with
    | .idle =>
      if op.locks then
        match w.lock with
        | none => some { w.move p (.locked op) with lock := some p }
        | some _ => none
      else
        match perform R upper 0 none w.roster w.roster op with
        | .error _ => some (w.finish p ⟨true, w.roster, w.roster⟩)
        | .ok r => some (w.commit p none r)
    | _ => none
  | .read p =>
    match w.phase p with
    | .locked op => some (w.move p (.checked op w.roster))
    | _ => none
  | .commit p now elsewhere =>
    match w.phase p with
    | .checked op seen =>
      match perform R upper now elsewhere seen w.roster op with
      | .error _ => some (w.finish p ⟨true, w.roster, w.roster⟩)
      | .ok r => some (w.commit p (op.readsBack R) r)
    | _ => none
  | .readBack p =>
    match w.phase p with
    | .committed subject found left =>
      some (w.finish p ⟨(principal R w.roster subject).isNone, found, left⟩)
    | _ => none
  | .fail p =>
    match w.phase p with
    | .idle => none
    | .locked _ | .checked _ _ => some (w.finish p ⟨true, w.roster, w.roster⟩)
    | .committed _ found left => some (w.finish p ⟨true, found, left⟩)

/-! ## what a roster keeps -/

structure Kept (r : Roster) : Prop where
  admin : ∃ subject row, r.principals.lookup subject = some row ∧ row.isAdmin = true ∧
    row.disabledAt = none
  person : ∀ subject row, r.principals.lookup subject = some row → row.isAdmin = true →
    row.kind = .person ∧ UNRESTRICTED_GROUP ∈ row.groups
  groups : ∀ subject row, r.principals.lookup subject = some row → ∀ group ∈ row.groups,
    group ∈ r.groups.keys
  default : ∀ subject row, r.principals.lookup subject = some row → ∃ layer,
    row.defaultAudience = some [layer] ∧
      (layer = Layers.PUBLIC ∨ layer ∈ row.groups ∧ layer ≠ UNRESTRICTED_GROUP)
  channels : ∀ channelId audience, r.channels.lookup channelId = some audience →
    audience = none ∨ ∃ layer, audience = some [layer] ∧ layer ∈ r.groups.keys ∧
      layer ≠ UNRESTRICTED_GROUP

/-- the fields of a principal that is checked against the stored groups -/
structure Values.Fine (known : List Text) (v : Values) : Prop where
  person : v.isAdmin = true → v.kind = .person ∧ UNRESTRICTED_GROUP ∈ v.groups
  groups : ∀ group ∈ v.groups, group ∈ known
  default : v.defaultLayer = Layers.PUBLIC ∨ v.defaultLayer ∈ v.groups ∧
    v.defaultLayer ≠ UNRESTRICTED_GROUP

theorem mem_of_checkGroups {known groups : List Text} {value : Value} {subject : Text}
    (h : checkGroups R known value subject = .ok groups) : ∀ group ∈ groups, group ∈ known := by
  unfold checkGroups at h
  split at h
  · exact nomatch h
  · rename_i names _
    cases hnames : checkGroupNames R subject names with
    | error e =>
      rw [hnames] at h
      exact nomatch h
    | ok found =>
      rw [hnames] at h
      obtain ⟨hknown, h⟩ := Checks.of_ite_error h
      obtain ⟨-, h⟩ := Checks.of_ite_error h
      obtain rfl := Except.ok.inj h
      intro group hg
      rw [List.mem_insertionSort] at hg
      by_contra hno
      refine hknown (List.any_eq_true.mpr ⟨group, hg, ?_⟩)
      rw [Bool.not_eq_true', ← Bool.not_eq_true, List.contains_iff_mem]
      exact hno

theorem fine_validated {known : List Text} {data : Data} {v : Values}
    (h : validated R known data = .ok v) : v.Fine known := by
  unfold validated at h
  obtain ⟨-, h⟩ := Checks.of_ite_error h
  split at h
  · exact nomatch h
  · rename_i kind _
    obtain ⟨hperson, h⟩ := Checks.of_ite_error h
    split at h
    · exact nomatch h
    · rename_i groups hgroups
      obtain ⟨hadmin, h⟩ := Checks.of_ite_error h
      split at h
      · exact nomatch h
      · rename_i layer _
        obtain ⟨hdefault, h⟩ := Checks.of_ite_error h
        obtain rfl := Except.ok.inj h
        refine ⟨fun ha => ⟨?_, ?_⟩, mem_of_checkGroups R hgroups, ?_⟩
        · simpa [show (data.get "is_admin").truthy = true from ha] using hperson
        · simpa [show (data.get "is_admin").truthy = true from ha] using hadmin
        · by_cases hpublic : layer = Layers.PUBLIC
          · exact Or.inl hpublic
          · right
            simpa [hpublic, not_or, and_comm] using hdefault

/-- what a transaction has read, against what it finds when it writes -/
structure Sees (seen cur : Roster) : Prop where
  principals : seen.principals = cur.principals
  groups : ∀ group ∈ seen.groups.keys, group ∈ cur.groups.keys
  channels : ∀ channelId audience, cur.channels.lookup channelId = some audience →
    seen.channels.lookup channelId = some audience

theorem Sees.refl (r : Roster) : Sees r r := ⟨rfl, fun _ h => h, fun _ _ h => h⟩

/-- an enabled administrator other than `subject` -/
def Another (r : Roster) (subject : Text) : Prop :=
  ∃ other row, other ≠ subject ∧ r.principals.lookup other = some row ∧ row.isAdmin = true ∧
    row.disabledAt = none

theorem another_of_adminsLeft {r : Roster} {subject : Text} (h : adminsLeft r subject ≠ 0) :
    Another r subject := by
  unfold adminsLeft at h
  obtain ⟨e, he⟩ := List.exists_mem_of_length_pos (Nat.pos_of_ne_zero h)
  obtain ⟨hmem, hcond⟩ := List.mem_filter.mp he
  simp only [Bool.and_eq_true, bne_iff_ne, ne_eq, Option.isNone_iff_eq_none] at hcond
  exact ⟨e.1, e.2, hcond.2, AList.mem_lookup_iff.mpr hmem, hcond.1.1, hcond.1.2⟩

/-- a roster has another enabled administrator unless its one is `subject` -/
theorem Kept.another_or {r : Roster} (h : Kept r) (subject : Text) : Another r subject ∨
    ∃ row, r.principals.lookup subject = some row ∧ row.isAdmin = true ∧ row.disabledAt = none := by
  obtain ⟨other, row, hrow, hadmin, henabled⟩ := h.admin
  by_cases he : other = subject
  · exact Or.inr ⟨row, he ▸ hrow, hadmin, henabled⟩
  · exact Or.inl ⟨other, row, he, hrow, hadmin, henabled⟩

/-- the clauses on one row -/
structure RowKept (r : Roster) (row : PrincipalRow) : Prop where
  person : row.isAdmin = true → row.kind = .person ∧ UNRESTRICTED_GROUP ∈ row.groups
  groups : ∀ group ∈ row.groups, group ∈ r.groups.keys
  default : ∃ layer, row.defaultAudience = some [layer] ∧
    (layer = Layers.PUBLIC ∨ layer ∈ row.groups ∧ layer ≠ UNRESTRICTED_GROUP)

theorem Kept.row {r : Roster} (h : Kept r) {subject : Text} {row : PrincipalRow}
    (hrow : r.principals.lookup subject = some row) : RowKept r row :=
  ⟨h.person subject row hrow, h.groups subject row hrow, h.default subject row hrow⟩

theorem rowKept_values {r : Roster} {known : List Text} {v : Values} (hv : v.Fine known)
    (hknown : ∀ group ∈ known, group ∈ r.groups.keys) (disabledAt : Option Time) :
    RowKept r (v.row disabledAt) :=
  ⟨hv.person, fun group hg => hknown group (hv.groups group hg), ⟨v.defaultLayer, rfl, hv.default⟩⟩

theorem Kept.insertPrincipal {r : Roster} (h : Kept r) {subject : Text} {row : PrincipalRow}
    (hrow : RowKept r row)
    (hadmin : (row.isAdmin = true ∧ row.disabledAt = none) ∨ Another r subject) :
    Kept { r with principals := r.principals.insert subject row } := by
  have hcases : ∀ other found, (r.principals.insert subject row).lookup other = some found →
      (other = subject ∧ found = row) ∨ r.principals.lookup other = some found := by
    intro other found hfound
    rw [Table.lookup_insert_eq] at hfound
    split at hfound
    · rename_i he
      exact Or.inl ⟨he, (Option.some.inj hfound).symm⟩
    · exact Or.inr hfound
  refine ⟨?_, fun other found hf => ?_, fun other found hf => ?_, fun other found hf => ?_, h.channels⟩
  · rcases hadmin with ⟨ha, he⟩ | ⟨other, found, hne, hf, ha, he⟩
    · exact ⟨subject, row, AList.lookup_insert _, ha, he⟩
    · exact ⟨other, found, (AList.lookup_insert_ne hne).trans hf, ha, he⟩
  · rcases hcases other found hf with ⟨-, rfl⟩ | hf
    · exact hrow.person
    · exact h.person other found hf
  · rcases hcases other found hf with ⟨-, rfl⟩ | hf
    · exact hrow.groups
    · exact h.groups other found hf
  · rcases hcases other found hf with ⟨-, rfl⟩ | hf
    · exact hrow.default
    · exact h.default other found hf

theorem Kept.erasePrincipal {r : Roster} (h : Kept r) {subject : Text} (hadmin : Another r subject) :
    Kept { r with principals := r.principals.erase subject } := by
  have hcases : ∀ other found, (r.principals.erase subject).lookup other = some found →
      r.principals.lookup other = some found := by
    intro other found hfound
    rw [Table.lookup_erase_eq] at hfound
    split at hfound
    · exact nomatch hfound
    · exact hfound
  obtain ⟨other, found, hne, hf, ha, he⟩ := hadmin
  exact ⟨⟨other, found, (AList.lookup_erase_ne hne).trans hf, ha, he⟩,
    fun other found hf => h.person other found (hcases other found hf),
    fun other found hf => h.groups other found (hcases other found hf),
    fun other found hf => h.default other found (hcases other found hf), h.channels⟩

theorem Kept.withGroups {r : Roster} (h : Kept r) {groups : AList fun _ : Text => Text}
    (hprincipals : ∀ subject row, r.principals.lookup subject = some row → ∀ group ∈ row.groups,
      group ∈ groups.keys)
    (hchannels : ∀ channelId layer, r.channels.lookup channelId = some (some [layer]) →
      layer ∈ groups.keys) : Kept { r with groups := groups } := by
  refine ⟨h.admin, h.person, hprincipals, h.default, fun channelId audience hc => ?_⟩
  rcases h.channels channelId audience hc with hnone | ⟨layer, rfl, -, hne⟩
  · exact Or.inl hnone
  · exact Or.inr ⟨layer, rfl, hchannels channelId layer hc, hne⟩

theorem Kept.withChannels {r : Roster} (h : Kept r)
    {channels : AList fun _ : Text => Option (List Text)}
    (hchannels : ∀ channelId audience, channels.lookup channelId = some audience → audience = none ∨
      ∃ layer, audience = some [layer] ∧ layer ∈ r.groups.keys ∧ layer ≠ UNRESTRICTED_GROUP) :
    Kept { r with channels := channels } :=
  ⟨h.admin, h.person, h.groups, h.default, hchannels⟩

theorem mem_keys_insert {t : AList fun _ : Text => Text} {k : Text} {b : Text} {g : Text}
    (h : g ∈ t.keys) : g ∈ (t.insert k b).keys := by
  obtain ⟨c, hc⟩ := Table.mem_keys_iff.mp h
  refine Table.mem_keys_iff.mpr ?_
  rw [Table.lookup_insert_eq]
  split
  · exact ⟨b, rfl⟩
  · exact ⟨c, hc⟩

theorem mem_keys_erase {t : AList fun _ : Text => Text} {k g : Text} (h : g ∈ t.keys) (hne : g ≠ k) :
    g ∈ (t.erase k).keys := by
  obtain ⟨c, hc⟩ := Table.mem_keys_iff.mp h
  exact Table.mem_keys_iff.mpr ⟨c, (AList.lookup_erase_ne hne).trans hc⟩

theorem channelAudience_fine {known : List Text} {groups : Value} {audience : Option (List Text)}
    (h : channelAudience R known groups = .ok audience) : audience = none ∨ ∃ layer,
      audience = some [layer] ∧ layer ∈ known ∧ layer ≠ UNRESTRICTED_GROUP := by
  unfold channelAudience at h
  split at h
  · exact Or.inl (Except.ok.inj h).symm
  · split at h
    · exact nomatch h
    · split at h
      · exact Or.inl (Except.ok.inj h).symm
      · split at h
        · exact nomatch h
        · rename_i found hfound
          obtain ⟨hlen, h⟩ := Checks.of_ite_error h
          obtain ⟨hgroup, h⟩ := Checks.of_ite_error h
          obtain rfl := Except.ok.inj h
          obtain ⟨layer, rfl⟩ := List.length_eq_one_iff.mp (not_ne_iff.mp hlen)
          refine Or.inr ⟨layer, rfl, mem_of_checkGroups R hfound layer (List.mem_singleton_self _), ?_⟩
          rintro rfl
          exact hgroup (by decide)

/-! ## one operation -/

theorem kept_perform {now : Time} {elsewhere : Option Text} {seen cur r : Roster} {op : Op}
    (h : Kept cur) (hs : Sees seen cur) (hop : perform R upper now elsewhere seen cur op = .ok r) :
    Kept r := by
  have hleft : ∀ {subject row}, seen.principals.lookup subject = some row → ∀ {b : Bool},
      ¬(b && row.isAdmin && row.disabledAt.isNone && adminsLeft seen subject == 0) = true →
      b = true → Another cur subject := by
    intro subject row hrow b hcond hb
    rw [hs.principals] at hrow
    rcases h.another_or subject with ha | ⟨row', hrow', hadmin, henabled⟩
    · exact ha
    · obtain rfl : row = row' := Option.some.inj (hrow.symm.trans hrow')
      have hne : adminsLeft seen subject ≠ 0 := by
        rw [hb, hadmin, henabled] at hcond
        simpa using hcond
      have := another_of_adminsLeft hne
      unfold Another at this ⊢
      rwa [hs.principals] at this
  cases op with
  | createPrincipal data =>
    rw [perform] at hop
    split at hop
    · exact nomatch hop
    · rename_i subject _
      split at hop
      · exact nomatch hop
      · rename_i v hv
        obtain ⟨hnew, hop⟩ := Checks.of_ite_error hop
        obtain rfl := Except.ok.inj hop
        refine h.insertPrincipal (rowKept_values (fine_validated R hv) hs.groups none) (Or.inr ?_)
        rcases h.another_or subject with ha | ⟨row, hrow, -, -⟩
        · exact ha
        · exact absurd (by rw [hrow]; rfl) hnew
  | updatePrincipal value data =>
    rw [perform] at hop
    split at hop
    · exact nomatch hop
    · rename_i subject _
      split at hop
      · exact nomatch hop
      · rename_i row hrow
        split at hop
        · exact nomatch hop
        · rename_i v hv
          obtain ⟨hlast, hop⟩ := Checks.of_ite_error hop
          obtain rfl := Except.ok.inj hop
          refine h.insertPrincipal (rowKept_values (fine_validated R hv) hs.groups row.disabledAt) ?_
          rcases h.another_or subject with ha | ⟨row', hrow', hadmin, henabled⟩
          · exact Or.inr ha
          · rw [hs.principals] at hrow
            obtain rfl : row = row' := Option.some.inj (hrow.symm.trans hrow')
            by_cases hva : v.isAdmin = true
            · exact Or.inl ⟨hva, henabled⟩
            · right
              rw [hadmin, Bool.eq_false_iff.mpr hva] at hlast
              have hne : adminsLeft seen subject ≠ 0 := by simpa using hlast
              have := another_of_adminsLeft hne
              unfold Another at this ⊢
              rwa [hs.principals] at this
  | setDisabled value disabled =>
    rw [perform] at hop
    split at hop
    · exact nomatch hop
    · rename_i subject _
      split at hop
      · exact nomatch hop
      · rename_i row hrow
        obtain ⟨hlast, hop⟩ := Checks.of_ite_error hop
        obtain rfl := Except.ok.inj hop
        have hrow' := hrow
        rw [hs.principals] at hrow'
        refine h.insertPrincipal ⟨(h.row hrow').person, (h.row hrow').groups, (h.row hrow').default⟩ ?_
        cases disabled with
        | true => exact Or.inr (hleft hrow hlast rfl)
        | false =>
          rcases h.another_or subject with ha | ⟨found, hfound, hadmin, -⟩
          · exact Or.inr ha
          · obtain rfl : row = found := Option.some.inj (hrow'.symm.trans hfound)
            exact Or.inl ⟨hadmin, rfl⟩
  | deletePrincipal value =>
    rw [perform] at hop
    split at hop
    · exact nomatch hop
    · rename_i subject _
      split at hop
      · exact nomatch hop
      · rename_i row hrow
        obtain ⟨hlast, hop⟩ := Checks.of_ite_error hop
        obtain rfl := Except.ok.inj hop
        exact h.erasePrincipal (hleft hrow (b := true) (by simpa using hlast) rfl)
  | createGroup name description =>
    rw [perform] at hop
    obtain ⟨-, hop⟩ := Checks.of_ite_error hop
    obtain ⟨-, hop⟩ := Checks.of_ite_error hop
    obtain ⟨-, hop⟩ := Checks.of_ite_error hop
    obtain rfl := Except.ok.inj hop
    refine h.withGroups (fun subject row hrow group hg =>
      mem_keys_insert (h.groups subject row hrow group hg)) fun channelId layer hc => ?_
    rcases h.channels channelId _ hc with hnone | ⟨layer', he, hmem, -⟩
    · exact nomatch hnone
    · obtain rfl : layer = layer' := List.cons.inj (Option.some.inj he) |>.1
      exact mem_keys_insert hmem
  | deleteGroup name =>
    unfold perform at hop
    dsimp only at hop
    obtain ⟨-, hop⟩ := Checks.of_ite_error hop
    obtain ⟨huse, hop⟩ := Checks.of_ite_error hop
    split at hop
    · exact nomatch hop
    · split at hop
      · obtain rfl := Except.ok.inj hop
        rw [Bool.or_eq_true, not_or, List.any_eq_true, List.any_eq_true] at huse
        refine h.withGroups (fun subject row hrow group hg => ?_) fun channelId layer hc => ?_
        · refine mem_keys_erase (h.groups subject row hrow group hg) ?_
          rintro rfl
          refine huse.1 ⟨row, Table.mem_vals.mpr ⟨subject, hs.principals ▸ hrow⟩, ?_⟩
          rw [List.contains_iff_mem.mpr hg, Bool.true_or]
        · rcases h.channels channelId _ hc with hnone | ⟨layer', he, hmem, -⟩
          · exact nomatch hnone
          · obtain rfl : layer = layer' := List.cons.inj (Option.some.inj he) |>.1
            refine mem_keys_erase hmem ?_
            rintro rfl
            refine huse.2 ⟨some [layer], Table.mem_vals.mpr ⟨channelId, hs.channels _ _ hc⟩, ?_⟩
            exact List.contains_iff_mem.mpr (List.mem_singleton_self layer)
      · exact nomatch hop
  | setChannel channelId groups =>
    rw [perform] at hop
    obtain ⟨-, hop⟩ := Checks.of_ite_error hop
    split at hop
    · exact nomatch hop
    · rename_i audience haudience
      obtain rfl := Except.ok.inj hop
      refine h.withChannels fun other found hfound => ?_
      rw [Table.lookup_insert_eq] at hfound
      split at hfound
      · obtain rfl := Option.some.inj hfound
        rcases channelAudience_fine R haudience with hnone | ⟨layer, he, hmem, hne⟩
        · exact Or.inl hnone
        · exact Or.inr ⟨layer, he, hs.groups layer hmem, hne⟩
      · exact h.channels other found hfound
  | deleteChannel channelId =>
    rw [perform] at hop
    split at hop
    · obtain rfl := Except.ok.inj hop
      refine h.withChannels fun other found hfound => ?_
      rw [Table.lookup_erase_eq] at hfound
      split at hfound
      · exact nomatch hfound
      · exact h.channels other found hfound
    · exact nomatch hop

/-- what a statement without the lock changes, a transaction may have read before -/
theorem Sees.perform {now : Time} {elsewhere : Option Text} {seen cur r : Roster} {op : Op}
    (hs : Sees seen cur) (hunlocked : op.locks = false)
    (hop : perform R upper now elsewhere cur cur op = .ok r) : Sees seen r := by
  cases op with
  | createGroup name description =>
    rw [Roster.perform] at hop
    obtain ⟨-, hop⟩ := Checks.of_ite_error hop
    obtain ⟨-, hop⟩ := Checks.of_ite_error hop
    obtain ⟨-, hop⟩ := Checks.of_ite_error hop
    obtain rfl := Except.ok.inj hop
    exact ⟨hs.principals, fun group hg => mem_keys_insert (hs.groups group hg), hs.channels⟩
  | deleteChannel channelId =>
    rw [Roster.perform] at hop
    split at hop
    · obtain rfl := Except.ok.inj hop
      refine ⟨hs.principals, hs.groups, fun other audience hfound => ?_⟩
      rw [Table.lookup_erase_eq] at hfound
      split at hfound
      · exact nomatch hfound
      · exact hs.channels other audience hfound
    · exact nomatch hop
  | createPrincipal _ => exact nomatch hunlocked
  | updatePrincipal _ _ => exact nomatch hunlocked
  | setDisabled _ _ => exact nomatch hunlocked
  | deletePrincipal _ => exact nomatch hunlocked
  | deleteGroup _ => exact nomatch hunlocked
  | setChannel _ _ => exact nomatch hunlocked

/-! ## every run -/

def Phase.holds : Phase → Bool
  | .locked _ | .checked _ _ => true
  | .idle | .committed _ _ _ => false

structure Inv (w : World π) : Prop where
  kept : Kept w.roster
  lock : ∀ p, (w.phase p).holds = true → w.lock = some p
  sees : ∀ p op seen, w.phase p = .checked op seen → Sees seen w.roster

theorem inv_init {r : Roster} (h : Kept r) : Inv (init r : World π) :=
  ⟨h, nofun, nofun⟩

/-- a caller moves on, and the roster does not change for the others -/
theorem Inv.move {w : World π} (h : Inv w) {p : π} {ph : Phase} {lock : Option π} {r : Roster}
    {ended : List Ended} (hkept : Kept r)
    (hlock : ∀ q, q ≠ p → (w.phase q).holds = true → lock = some q)
    (hown : ph.holds = true → lock = some p)
    (hsees : ∀ q op seen, q ≠ p → w.phase q = .checked op seen → Sees seen w.roster → Sees seen r)
    (hchecked : ∀ op seen, ph = .checked op seen → Sees seen r) :
    Inv ({ roster := r, lock := lock, phase := Function.update w.phase p ph, ended := ended } :
      World π) := by
  refine ⟨hkept, fun q hq => ?_, fun q op seen hq => ?_⟩
  · dsimp only at hq ⊢
    by_cases he : q = p
    · rw [he, Function.update_self] at hq
      rw [he]
      exact hown hq
    · rw [Function.update_of_ne he] at hq
      exact hlock q he hq
  · dsimp only at hq ⊢
    by_cases he : q = p
    · rw [he, Function.update_self] at hq
      exact hchecked op seen hq
    · rw [Function.update_of_ne he] at hq
      exact hsees q op seen he hq (h.sees q op seen hq)

/-- when a caller gives the lock back, no other has held it -/
theorem Inv.released {w : World π} (h : Inv w) {p q : π} (hne : q ≠ p)
    (hq : (w.phase q).holds = true) : (if w.lock = some p then none else w.lock) = some q := by
  have hlock := h.lock q hq
  rw [if_neg, hlock]
  rw [hlock]
  exact fun e => hne (Option.some.inj e)

theorem Inv.finish {w : World π} (h : Inv w) (p : π) (e : Ended) : Inv (w.finish p e) :=
  h.move h.kept (fun _ hne hq => h.released hne hq) nofun (fun _ _ _ _ _ hs => hs) nofun

/-- a commit of the roster `r`, which the others have read already or cannot read -/
theorem Inv.commit {w : World π} (h : Inv w) (p : π) (readsBack : Option Text) {r : Roster}
    (hkept : Kept r)
    (hsees : ∀ q op seen, q ≠ p → w.phase q = .checked op seen → Sees seen w.roster → Sees seen r) :
    Inv (w.commit p readsBack r) := by
  unfold World.commit
  cases readsBack with
  | none => exact h.move hkept (fun _ hne hq => h.released hne hq) nofun hsees nofun
  | some subject => exact h.move hkept (fun _ hne hq => h.released hne hq) nofun hsees nofun

theorem inv_step {w w' : World π} (a : Action π) (h : Inv w) (hstep : step R upper w a = some w') :
    Inv w' := by
  cases a with
  | call p op =>
    unfold step at hstep
    dsimp only at hstep
    split at hstep
    · rename_i hidle
      split at hstep
      · split at hstep
        · rename_i hfree
          obtain rfl := Option.some.inj hstep
          refine h.move h.kept (fun q _ hq => ?_) (fun _ => rfl) (fun _ _ _ _ _ hs => hs) nofun
          have hlock := h.lock q hq
          rw [hfree] at hlock
          exact nomatch hlock
        · exact nomatch hstep
      · rename_i hunlocked
        split at hstep
        · obtain rfl := Option.some.inj hstep
          exact h.finish p _
        · rename_i r hr
          obtain rfl := Option.some.inj hstep
          exact h.commit p none (kept_perform R upper h.kept (Sees.refl _) hr)
            fun _ _ _ _ _ hs => hs.perform R upper (Bool.eq_false_iff.mpr hunlocked) hr
    · exact nomatch hstep
  | read p =>
    unfold step at hstep
    dsimp only at hstep
    split at hstep
    · rename_i op hlocked
      obtain rfl := Option.some.inj hstep
      have hown : w.lock = some p := h.lock p (by rw [hlocked]; rfl)
      refine h.move h.kept (fun q _ hq => h.lock q hq) (fun _ => hown) (fun _ _ _ _ _ hs => hs) ?_
      intro op' seen e
      obtain ⟨-, rfl⟩ := Phase.checked.inj e
      exact Sees.refl _
    · exact nomatch hstep
  | commit p now elsewhere =>
    unfold step at hstep
    dsimp only at hstep
    split at hstep
    · rename_i op seen hchecked
      split at hstep
      · obtain rfl := Option.some.inj hstep
        exact h.finish p _
      · rename_i r hr
        obtain rfl := Option.some.inj hstep
        refine h.commit p _ (kept_perform R upper h.kept (h.sees p op seen hchecked) hr) ?_
        intro q op' seen' hne hq _
        have hp := h.lock p (by rw [hchecked]; rfl)
        have hq' := h.lock q (by rw [hq]; rfl)
        exact absurd (Option.some.inj (hq'.symm.trans hp)) hne
    · exact nomatch hstep
  | readBack p =>
    unfold step at hstep
    dsimp only at hstep
    split at hstep
    · obtain rfl := Option.some.inj hstep
      exact h.finish p _
    · exact nomatch hstep
  | fail p =>
    unfold step at hstep
    dsimp only at hstep
    split at hstep
    · exact nomatch hstep
    · obtain rfl := Option.some.inj hstep
      exact h.finish p _
    · obtain rfl := Option.some.inj hstep
      exact h.finish p _
    · obtain rfl := Option.some.inj hstep
      exact h.finish p _

/-! ## reading back -/

/-- the operation disables or deletes a principal -/
def Op.disables : Op → Text → Prop
  | .setDisabled subject true, s => checkSubject R subject = .ok s
  | .deletePrincipal subject, s => checkSubject R subject = .ok s
  | _, _ => False

/-- the operation updates a principal that is disabled -/
def Op.ofDisabled (r : Roster) : Op → Prop
  | .updatePrincipal subject _ => ∃ s row, checkSubject R subject = .ok s ∧
      r.principals.lookup s = some row ∧ row.disabledAt ≠ none
  | _ => False

/-- the condition on a step: no principal that is disabled is updated, none is disabled or deleted while
it is read back, and reading back is not cut off -/
def Undisturbed (w : World π) : Action π → Prop
  | .commit p _ _ => ∀ op seen, w.phase p = .checked op seen → ¬op.ofDisabled R w.roster ∧
      ∀ q subject found left, w.phase q = .committed subject found left → ¬op.disables R subject
  | .fail p => ∀ subject found left, w.phase p ≠ .committed subject found left
  | _ => True

def Enabled (r : Roster) (subject : Text) : Prop :=
  ∃ row, r.principals.lookup subject = some row ∧ row.disabledAt = none

theorem not_space_of_isEmail {t : Text} (h : isEmail t = true) : t ≠ [] ∧ ∀ c ∈ t, Text.isSpace c = false := by
  unfold isEmail at h
  dsimp only at h
  simp only [Bool.and_eq_true, beq_iff_eq, List.all_eq_true] at h
  set isPart : Char → Bool := fun c => c != '@' && !Text.isSpace c with hpart
  set user := t.takeWhile isPart with huser
  obtain ⟨⟨⟨hne, hat⟩, hdomain⟩, -⟩ := h
  have hspace : ∀ c, isPart c = true → Text.isSpace c = false := by
    intro c hc
    rw [hpart, Bool.and_eq_true, Bool.not_eq_true'] at hc
    exact hc.2
  have hlt : user.length < t.length := by
    by_contra hge
    rw [List.getElem?_eq_none (by omega)] at hat
    exact nomatch hat
  have htake : t.take user.length = user := by
    rw [huser]
    exact (List.prefix_iff_eq_take.mp (List.takeWhile_prefix isPart)).symm
  refine ⟨List.ne_nil_of_length_pos (by omega), fun c hc => ?_⟩
  rw [← List.take_append_drop user.length t, htake, List.mem_append] at hc
  rcases hc with hc | hc
  · exact hspace c (List.mem_takeWhile_imp hc)
  · rw [List.drop_eq_getElem_cons hlt, List.mem_cons] at hc
    rcases hc with rfl | hc
    · rw [List.getElem?_eq_getElem hlt, Option.some.injEq] at hat
      rw [hat]
      rfl
    · have hpart := (hdomain c hc).2
      rwa [Bool.not_eq_true'] at hpart

/-- an identity is its own normal form -/
theorem strip_of_checkSubject {value : Value} {subject : Text} (h : checkSubject R value = .ok subject) :
    Text.strip subject = subject ∧ subject.isEmpty = false ∧ ∃ t, subject = R.lower t := by
  unfold checkSubject at h
  obtain ⟨hemail, h⟩ := Checks.of_ite_error h
  obtain rfl := Except.ok.inj h
  rw [Bool.or_eq_true, not_or, Bool.not_eq_true', Bool.not_eq_false] at hemail
  obtain ⟨hne, hspace⟩ := not_space_of_isEmail hemail.1
  refine ⟨?_, ?_, _, rfl⟩
  · exact Text.strip_eq_self_of_all hspace
  · exact List.isEmpty_eq_false_iff.mpr hne

theorem enabled_insert {r : Roster} {subject other : Text} {row : PrincipalRow} (h : Enabled r subject)
    (hrow : other = subject → row.disabledAt = none) :
    Enabled { r with principals := r.principals.insert other row } subject := by
  unfold Enabled
  dsimp only
  rw [Table.lookup_insert_eq]
  split
  · rename_i he
    exact ⟨row, rfl, hrow he.symm⟩
  · exact h

/-- an enabled principal stays so unless the operation says otherwise -/
theorem enabled_perform {now : Time} {elsewhere : Option Text} {seen cur r : Roster} {op : Op}
    {subject : Text} (h : Enabled cur subject) (hprincipals : seen.principals = cur.principals)
    (hop : perform R upper now elsewhere seen cur op = .ok r) (hno : ¬op.disables R subject) :
    Enabled r subject := by
  have hsame : ∀ other row, seen.principals.lookup other = some row → other = subject →
      row.disabledAt = none := by
    rintro other row hrow rfl
    obtain ⟨row', hrow', henabled⟩ := h
    rw [hprincipals] at hrow
    obtain rfl : row = row' := Option.some.inj (hrow.symm.trans hrow')
    exact henabled
  cases op with
  | createPrincipal data =>
    rw [perform] at hop
    split at hop
    · exact nomatch hop
    · split at hop
      · exact nomatch hop
      · obtain ⟨-, hop⟩ := Checks.of_ite_error hop
        obtain rfl := Except.ok.inj hop
        exact enabled_insert h fun _ => rfl
  | updatePrincipal value data =>
    rw [perform] at hop
    split at hop
    · exact nomatch hop
    · split at hop
      · exact nomatch hop
      · rename_i row hrow
        split at hop
        · exact nomatch hop
        · obtain ⟨-, hop⟩ := Checks.of_ite_error hop
          obtain rfl := Except.ok.inj hop
          exact enabled_insert h fun he => hsame _ row hrow he
  | setDisabled value disabled =>
    rw [perform] at hop
    split at hop
    · exact nomatch hop
    · rename_i other hother
      split at hop
      · exact nomatch hop
      · obtain ⟨-, hop⟩ := Checks.of_ite_error hop
        obtain rfl := Except.ok.inj hop
        refine enabled_insert h fun he => ?_
        cases disabled with
        | true => exact absurd (he ▸ hother) hno
        | false => rfl
  | deletePrincipal value =>
    rw [perform] at hop
    split at hop
    · exact nomatch hop
    · rename_i other hother
      split at hop
      · exact nomatch hop
      · obtain ⟨-, hop⟩ := Checks.of_ite_error hop
        obtain rfl := Except.ok.inj hop
        obtain ⟨row, hrow, henabled⟩ := h
        refine ⟨row, (AList.lookup_erase_ne ?_).trans hrow, henabled⟩
        rintro rfl
        exact hno hother
  | createGroup name description =>
    rw [perform] at hop
    obtain ⟨-, hop⟩ := Checks.of_ite_error hop
    obtain ⟨-, hop⟩ := Checks.of_ite_error hop
    obtain ⟨-, hop⟩ := Checks.of_ite_error hop
    obtain rfl := Except.ok.inj hop
    exact h
  | deleteGroup name =>
    unfold perform at hop
    dsimp only at hop
    obtain ⟨-, hop⟩ := Checks.of_ite_error hop
    obtain ⟨-, hop⟩ := Checks.of_ite_error hop
    split at hop
    · exact nomatch hop
    · split at hop
      · obtain rfl := Except.ok.inj hop
        exact h
      · exact nomatch hop
  | setChannel channelId groups =>
    rw [perform] at hop
    obtain ⟨-, hop⟩ := Checks.of_ite_error hop
    split at hop
    · exact nomatch hop
    · obtain rfl := Except.ok.inj hop
      exact h
  | deleteChannel channelId =>
    rw [perform] at hop
    split at hop
    · obtain rfl := Except.ok.inj hop
      exact h
    · exact nomatch hop

/-- the principal an operation reads back is enabled when it has not updated a disabled one -/
theorem enabled_readsBack {now : Time} {elsewhere : Option Text} {seen cur r : Roster} {op : Op}
    {subject : Text} (hprincipals : seen.principals = cur.principals)
    (hop : perform R upper now elsewhere seen cur op = .ok r) (hback : op.readsBack R = some subject)
    (hno : ¬op.ofDisabled R cur) : Enabled r subject := by
  cases op with
  | createPrincipal data =>
    rw [perform] at hop
    unfold Op.readsBack at hback
    split at hop
    · exact nomatch hop
    · rename_i other hother
      dsimp only at hback
      rw [hother] at hback
      obtain rfl : other = subject := Option.some.inj hback
      split at hop
      · exact nomatch hop
      · obtain ⟨-, hop⟩ := Checks.of_ite_error hop
        obtain rfl := Except.ok.inj hop
        exact ⟨_, AList.lookup_insert _, rfl⟩
  | updatePrincipal value data =>
    rw [perform] at hop
    unfold Op.readsBack at hback
    split at hop
    · exact nomatch hop
    · rename_i other hother
      dsimp only at hback
      rw [hother] at hback
      obtain rfl : other = subject := Option.some.inj hback
      split at hop
      · exact nomatch hop
      · rename_i row hrow
        split at hop
        · exact nomatch hop
        · obtain ⟨-, hop⟩ := Checks.of_ite_error hop
          obtain rfl := Except.ok.inj hop
          refine ⟨_, AList.lookup_insert _, ?_⟩
          by_contra hdisabled
          exact hno ⟨other, row, hother, hprincipals ▸ hrow, hdisabled⟩
  | setDisabled _ _ => exact nomatch hback
  | deletePrincipal _ => exact nomatch hback
  | createGroup _ _ => exact nomatch hback
  | deleteGroup _ => exact nomatch hback
  | setChannel _ _ => exact nomatch hback
  | deleteChannel _ => exact nomatch hback

theorem principal_of_enabled (hlower : ∀ t, R.lower (R.lower t) = R.lower t) {r : Roster} {value : Value}
    {subject : Text} (hsubject : checkSubject R value = .ok subject) (h : Enabled r subject) :
    (principal R r subject).isNone = false := by
  obtain ⟨hstrip, hne, t, rfl⟩ := strip_of_checkSubject R hsubject
  obtain ⟨row, hrow, henabled⟩ := h
  unfold principal
  rw [hne, if_neg Bool.false_ne_true, hstrip, hlower, hrow]
  simp [Option.filter, henabled]

/-- what holds besides when no operation is disturbed -/
structure Undamaged (w : World π) : Prop where
  back : ∀ p subject found left, w.phase p = .committed subject found left →
    Enabled w.roster subject ∧ ∃ value, checkSubject R value = .ok subject
  ended : ∀ e ∈ w.ended, e.raised = true → e.left = e.found

theorem Undamaged.finish {w : World π} (h : Undamaged R w) (p : π) {e : Ended}
    (he : e.raised = true → e.left = e.found) : Undamaged R (w.finish p e) := by
  refine ⟨fun q subject found left hq => ?_, fun e' he' => ?_⟩
  · have hq' : Function.update w.phase p .idle q = .committed subject found left := hq
    by_cases hqp : q = p
    · rw [hqp, Function.update_self] at hq'
      exact nomatch hq'
    · rw [Function.update_of_ne hqp] at hq'
      exact h.back q subject found left hq'
  · rcases List.mem_cons.mp he' with rfl | he'
    · exact he
    · exact h.ended e' he'

/-- a caller that holds or takes no principal back moves on -/
theorem Undamaged.move {w : World π} (h : Undamaged R w) (p : π) {ph : Phase} {lock : Option π}
    (hph : ∀ subject found left, ph ≠ .committed subject found left) :
    Undamaged R { w.move p ph with lock := lock } := by
  refine ⟨fun q subject found left hq => ?_, h.ended⟩
  have hq' : Function.update w.phase p ph q = .committed subject found left := hq
  by_cases hqp : q = p
  · rw [hqp, Function.update_self] at hq'
    exact absurd hq' (hph subject found left)
  · rw [Function.update_of_ne hqp] at hq'
    exact h.back q subject found left hq'

theorem readsBack_subject {op : Op} {subject : Text} (h : op.readsBack R = some subject) :
    ∃ value, checkSubject R value = .ok subject := by
  have hok : ∀ value, (checkSubject R value).toOption = some subject →
      ∃ value, checkSubject R value = .ok subject := by
    intro value hv
    cases hc : checkSubject R value with
    | error e =>
      rw [hc] at hv
      exact nomatch hv
    | ok s =>
      rw [hc] at hv
      exact ⟨value, by rw [hc, Option.some.inj hv]⟩
  cases op with
  | createPrincipal data => exact hok _ h
  | updatePrincipal value data => exact hok _ h
  | setDisabled _ _ => exact nomatch h
  | deletePrincipal _ => exact nomatch h
  | createGroup _ _ => exact nomatch h
  | deleteGroup _ => exact nomatch h
  | setChannel _ _ => exact nomatch h
  | deleteChannel _ => exact nomatch h

theorem Undamaged.commit {w : World π} (h : Undamaged R w) (p : π) {readsBack : Option Text} {r : Roster}
    (hothers : ∀ q subject found left, w.phase q = .committed subject found left → Enabled r subject)
    (hown : ∀ subject, readsBack = some subject →
      Enabled r subject ∧ ∃ value, checkSubject R value = .ok subject) :
    Undamaged R (w.commit p readsBack r) := by
  unfold World.commit
  cases readsBack with
  | none =>
    refine ⟨fun q subject found left hq => ?_, fun e he => ?_⟩
    · have hq' : Function.update w.phase p .idle q = .committed subject found left := hq
      by_cases hqp : q = p
      · rw [hqp, Function.update_self] at hq'
        exact nomatch hq'
      · rw [Function.update_of_ne hqp] at hq'
        exact ⟨hothers q subject found left hq', (h.back q subject found left hq').2⟩
    · rcases List.mem_cons.mp he with rfl | he
      · exact nofun
      · exact h.ended e he
  | some subject =>
    refine ⟨fun q subject' found left hq => ?_, h.ended⟩
    have hq' : Function.update w.phase p (.committed subject w.roster r) q =
        .committed subject' found left := hq
    by_cases hqp : q = p
    · rw [hqp, Function.update_self] at hq'
      obtain ⟨rfl, -, -⟩ := Phase.committed.inj hq'
      exact hown subject rfl
    · rw [Function.update_of_ne hqp] at hq'
      exact ⟨hothers q subject' found left hq', (h.back q subject' found left hq').2⟩

theorem undamaged_step (hlower : ∀ t, R.lower (R.lower t) = R.lower t) {w w' : World π} (a : Action π)
    (hi : Inv w) (h : Undamaged R w) (hu : Undisturbed R w a) (hstep : step R upper w a = some w') :
    Undamaged R w' := by
  cases a with
  | call p op =>
    unfold step at hstep
    dsimp only at hstep
    split at hstep
    · split at hstep
      · split at hstep
        · obtain rfl := Option.some.inj hstep
          exact h.move R p nofun
        · exact nomatch hstep
      · rename_i hunlocked
        split at hstep
        · obtain rfl := Option.some.inj hstep
          exact h.finish R p fun _ => rfl
        · rename_i r hr
          obtain rfl := Option.some.inj hstep
          refine h.commit R p (fun q subject found left hq => ?_) nofun
          refine enabled_perform R upper (h.back q subject found left hq).1 rfl hr fun hd => ?_
          cases op with
          | setDisabled _ _ => exact hunlocked rfl
          | deletePrincipal _ => exact hunlocked rfl
          | createPrincipal _ => exact hd
          | updatePrincipal _ _ => exact hd
          | createGroup _ _ => exact hd
          | deleteGroup _ => exact hd
          | setChannel _ _ => exact hd
          | deleteChannel _ => exact hd
    · exact nomatch hstep
  | read p =>
    unfold step at hstep
    dsimp only at hstep
    split at hstep
    · obtain rfl := Option.some.inj hstep
      exact h.move R p nofun
    · exact nomatch hstep
  | commit p now elsewhere =>
    unfold step at hstep
    dsimp only at hstep
    split at hstep
    · rename_i op seen hchecked
      obtain ⟨hdisabled, hquiet⟩ := hu op seen hchecked
      have hprincipals := (hi.sees p op seen hchecked).principals
      split at hstep
      · obtain rfl := Option.some.inj hstep
        exact h.finish R p fun _ => rfl
      · rename_i r hr
        obtain rfl := Option.some.inj hstep
        refine h.commit R p (fun q subject found left hq => ?_) fun subject hs => ⟨?_, readsBack_subject R hs⟩
        · exact enabled_perform R upper (h.back q subject found left hq).1 hprincipals hr
            (hquiet q subject found left hq)
        · exact enabled_readsBack R upper hprincipals hr hs hdisabled
    · exact nomatch hstep
  | readBack p =>
    unfold step at hstep
    dsimp only at hstep
    split at hstep
    · rename_i subject found left hback
      obtain rfl := Option.some.inj hstep
      obtain ⟨henabled, value, hvalue⟩ := h.back p subject found left hback
      refine h.finish R p fun hraised => ?_
      have hfound : (principal R w.roster subject).isNone = true := hraised
      rw [principal_of_enabled R hlower hvalue henabled] at hfound
      exact nomatch hfound
    · exact nomatch hstep
  | fail p =>
    unfold step at hstep
    dsimp only at hstep
    split at hstep
    · exact nomatch hstep
    · obtain rfl := Option.some.inj hstep
      exact h.finish R p fun _ => rfl
    · obtain rfl := Option.some.inj hstep
      exact h.finish R p fun _ => rfl
    · rename_i subject found left hback
      exact absurd hback (hu subject found left)

/-- whatever the callers do, the roster keeps its clauses; and an operation that raises has changed
nothing when none is disturbed -/
theorem roster_kept (hlower : ∀ t, R.lower (R.lower t) = R.lower t) {r : Roster} (hr : Kept r)
    {as : List (Action π)} {w : World π} (h : Runs.exec (step R upper) (init r) as = some w) :
    Kept w.roster ∧ (Runs.along (step R upper) (Undisturbed R) (init r) as →
      ∀ e ∈ w.ended, e.raised = true → e.left = e.found) := by
  refine ⟨(Runs.exec_invariant (fun _ a _ hi hs => inv_step R upper a hi hs) (inv_init hr) h).kept,
    fun hP => ?_⟩
  have hinit : Undamaged R (init r : World π) := ⟨nofun, nofun⟩
  have hall := Runs.exec_invariant_along (I := fun w : World π => Inv w ∧ Undamaged R w)
    (fun _ a _ hi hp hs => ⟨inv_step R upper a hi.1 hs, undamaged_step R upper hlower a hi.1 hi.2 hp hs⟩)
    ⟨inv_init hr, hinit⟩ hP h
  exact hall.2.ended

end

/-! ## a person who is disabled -/

/-- the roster `bootstrap_admin` leaves -/
def bootstrapped (subject displayName : Text) : Roster where
  groups := (∅ : AList fun _ : Text => Text).insert UNRESTRICTED_GROUP
    "Reads every page in the brain.".toList
  principals := (∅ : AList fun _ : Text => PrincipalRow).insert subject
    ⟨displayName, .person, true, [UNRESTRICTED_GROUP], some [Layers.PUBLIC], none⟩
  channels := ∅

theorem kept_bootstrapped (subject displayName : Text) : Kept (bootstrapped subject displayName) := by
  have hone : ∀ {other row}, (bootstrapped subject displayName).principals.lookup other = some row →
      row = ⟨displayName, .person, true, [UNRESTRICTED_GROUP], some [Layers.PUBLIC], none⟩ := by
    intro other row hrow
    unfold bootstrapped at hrow
    dsimp only at hrow
    rw [Table.lookup_insert_eq, AList.lookup_empty] at hrow
    split at hrow
    · exact (Option.some.inj hrow).symm
    · exact nomatch hrow
  refine ⟨⟨subject, _, AList.lookup_insert _, rfl, rfl⟩, fun other row hrow _ => ?_,
    fun other row hrow group hg => ?_, fun other row hrow => ?_, nofun⟩
  · rw [hone hrow]
    exact ⟨rfl, List.mem_singleton_self _⟩
  · rw [hone hrow] at hg
    rw [List.mem_singleton.mp hg]
    exact Table.mem_keys_iff.mpr ⟨_, AList.lookup_insert _⟩
  · rw [hone hrow]
    exact ⟨Layers.PUBLIC, rfl, Or.inl rfl⟩

def firstAdmin : Roster := bootstrapped "a@b.c".toList "A".toList

def newPerson : Data :=
  [("subject".toList, .text "p@b.c".toList), ("display_name".toList, .text "P".toList),
    ("default_audience".toList, .list [.text Layers.PUBLIC] [])]

/-- one caller runs an operation to its end -/
def alone (op : Op) : List (Action Unit) := [.call () op, .read (), .commit () 0 none]

/-- a person is created, disabled and then renamed -/
def renameDisabled : List (Action Unit) :=
  alone (.createPrincipal newPerson) ++ [.readBack ()] ++
    alone (.setDisabled (.text "p@b.c".toList) true) ++
    alone (.updatePrincipal (.text "p@b.c".toList) [("display_name".toList, .text "Q".toList)]) ++
    [.readBack ()]

def upperAscii (t : Text) : Text :=
  t.map fun c => if 'a' ≤ c ∧ c ≤ 'z' then Char.ofNat (c.toNat - 32) else c

/-- the name is changed, and the update raises -/
theorem not_roster_kept : ∃ w e, Runs.exec (step ascii upperAscii) (init firstAdmin) renameDisabled = some w ∧
    Kept firstAdmin ∧ e ∈ w.ended ∧ e.raised = true ∧
    (e.found.principals.lookup "p@b.c".toList).map PrincipalRow.displayName = some "P".toList ∧
    (e.left.principals.lookup "p@b.c".toList).map PrincipalRow.displayName = some "Q".toList := by
  have hrun : (Runs.exec (step ascii upperAscii) (init firstAdmin) renameDisabled).any (fun w =>
      w.ended.head?.any fun e => e.raised &&
        (e.found.principals.lookup "p@b.c".toList).map PrincipalRow.displayName == some "P".toList &&
        (e.left.principals.lookup "p@b.c".toList).map PrincipalRow.displayName == some "Q".toList) =
      true := by decide +kernel
  obtain ⟨w, hw, h⟩ := (Option.any_eq_true _ _).mp hrun
  obtain ⟨e, he, h⟩ := (Option.any_eq_true _ _).mp h
  simp only [Bool.and_eq_true, beq_iff_eq] at h
  exact ⟨w, e, hw, kept_bootstrapped _ _, List.mem_of_head? he, h.1.1, h.1.2, h.2⟩

/-- a person is created, and the one administrator cannot be deleted -/
def createPerson : List (Action Unit) :=
  alone (.createPrincipal newPerson) ++ [.readBack ()] ++ alone (.deletePrincipal (.text "a@b.c".toList))

/-- no commit of the run updates, disables or deletes, but for a deletion when nobody reads back -/
def quiet (w : World Unit) : Action Unit → Bool
  | .commit _ _ _ =>
    match w.phase () with
    | .checked (.createPrincipal _) _ | .checked (.deletePrincipal _) _ => true
    | _ => false
  | .fail _ => false
  | _ => true

theorem undisturbed_of_quiet {w : World Unit} {a : Action Unit} (h : quiet w a = true) :
    Undisturbed ascii w a := by
  cases a with
  | call _ _ => trivial
  | read _ => trivial
  | readBack _ => trivial
  | fail _ => exact nomatch h
  | commit p now elsewhere =>
    intro op seen hphase
    unfold quiet at h
    dsimp only at h
    split at h
    · rename_i hp
      obtain ⟨rfl, -⟩ := Phase.checked.inj (hphase.symm.trans hp)
      exact ⟨id, fun _ _ _ _ _ => id⟩
    · rename_i hp
      obtain ⟨rfl, -⟩ := Phase.checked.inj (hphase.symm.trans hp)
      exact ⟨id, fun q _ _ _ hq => absurd (hq.symm.trans hp) nofun⟩
    · exact nomatch h

theorem roster_kept_createPerson : ∃ w, Runs.exec (step ascii upperAscii) (init firstAdmin) createPerson = some w ∧
    Kept w.roster ∧ ∀ e ∈ w.ended, e.raised = true → e.left = e.found := by
  have hrun : (Runs.exec (step ascii upperAscii) (init firstAdmin) createPerson).isSome = true := by
    decide +kernel
  obtain ⟨w, hw⟩ := Option.isSome_iff_exists.mp hrun
  have hP : Runs.along (step ascii upperAscii) (Undisturbed ascii) (init firstAdmin) createPerson :=
    Runs.along_of_check (p := quiet) (fun _ _ h => undisturbed_of_quiet h) (by decide +kernel)
  have hlower : ∀ t, ascii.lower (ascii.lower t) = ascii.lower t := by
    intro t
    show (t.map Ascii.lowerChar).map Ascii.lowerChar = t.map Ascii.lowerChar
    rw [List.map_map]
    exact List.map_congr_left fun c _ => Ascii.lowerChar_lowerChar c
  obtain ⟨hkept, hended⟩ := roster_kept ascii upperAscii hlower (kept_bootstrapped _ _) hw
  exact ⟨w, hw, hkept, hended hP⟩

end Roster
