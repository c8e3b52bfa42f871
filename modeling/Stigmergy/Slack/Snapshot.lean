import Stigmergy.Lib.Dumps
import Stigmergy.Lib.Table
import Stigmergy.Capture.Fetch
import Stigmergy.Capture.Service

/-!
# A Slack thread as artifacts

`_build_snapshot` of `slack/capture.py` over the models of `slack/snapshot.py`: the files of every message
downloaded, each once by its identity and kept once by its bytes, and the thread as canonical JSON that names
them by number.

* `acquireFile`       one file of one message, from one cache, the other or the server;
* `Consistent`        what holds of both caches and the list after any number of files;
* `Placed`            an attachment says what stands at its number;
* `Serves`            an attachment has the digest of what the server gave for the file's address;
* `acquireFile_spec`, `acquireFiles_spec`, `snapshotMessages_spec`   a file, a message, a thread;
* `attachments_consistent`   the snapshot and the artifacts of a capture.

The server answers each call as it likes: `download` has the number of the call.
-/

set_option linter.unusedSectionVars false

namespace Snapshot

open Capture (Bytes Services ArtifactValue ArtifactRef Participant isDigest MAX_ARTIFACTS MAX_ARTIFACT_BYTES
  MAX_CAPTURE_BYTES)

def MAX_THREAD_MESSAGES : ℕ := 500
def MAX_SNAPSHOT_BYTES : ℕ := 1024 * 1024
def MEDIA_SLACK : Text := "application/vnd.stigmergy.slack-thread+json".toList

/-- the errors a snapshot ends with -/
inductive Failure where
  /-- `CaptureError` -/
  | capture (message : Text)
  /-- `ArtifactRejected` -/
  | artifact (message : Text)
  /-- a `ValidationError`, by its field -/
  | invalid (field : Text)
  /-- `SlackApiError` -/
  | slack (message : Text)

/-- an entry of a message's `files` -/
structure File where
  id : Option Text
  name : Option Text
  mimetype : Option Text
  urlPrivateDownload : Option Text
  urlPrivate : Option Text

/-- a message of `conversations.replies`; fields that are missing or null are `none` -/
structure Message where
  ts : Option Text
  threadTs : Option Text
  user : Option Text
  botId : Option Text
  text : Option Text
  files : List File

structure SnapshotAttachment where
  artifactIndex : ℕ
  fileId : Text
  filename : Text
  mediaType : Text
  bytes : ℕ
  sha256 : Text

structure SnapshotMessage where
  order : ℕ
  ts : Text
  occurredAt : Text
  userId : Text
  speaker : Text
  text : Text
  permalink : Text
  attachments : List SnapshotAttachment

structure SlackSnapshot where
  teamId : Text
  channelId : Text
  channelName : Text
  threadTs : Text
  permalink : Text
  messages : List SnapshotMessage

/-- the names of a user's profile -/
structure Profile where
  displayName : Option Text
  realName : Option Text

/-- what Slack answers, and what of the standard library the model leaves open -/
structure Slack where
  urls : Provenance.Urls
  /-- the answer to a call of `download_file`, by its number and its URL -/
  download : ℕ → Text → Except Failure Bytes
  cachedName : Text → Option Text
  /-- `users_info`, nothing for a `SlackApiError` -/
  usersInfo : Text → Option Profile
  /-- `timestamp_from_slack`, as it is written in JSON -/
  timestamp : Text → Except Failure Text
  /-- `str.isdigit` -/
  isDigit : Char → Bool

/-- `a or b` on strings -/
def orElse (a : Option Text) (b : Text) : Text :=
  match a with
  | some t => if t.isEmpty then b else t
  | none => b

def decimal (n : ℕ) : Text := Nat.toDigits 10 n

/-- `Field(min_length=1, max_length=limit)` -/
def inBounds (limit : ℕ) (t : Text) : Bool := !t.isEmpty && t.length ≤ limit

/-- the first field that fails its check -/
def firstInvalid (fields : List (String × Bool)) : Except Failure Unit :=
  match fields.find? fun f => !f.2 with
  | some f => .error (.invalid f.1.toList)
  | none => .ok ()

def SnapshotAttachment.validate (a : SnapshotAttachment) : Except Failure Unit :=
  firstInvalid [("artifact_index", 1 ≤ a.artifactIndex && a.artifactIndex ≤ 20), ("file_id", inBounds 200 a.fileId),
    ("filename", inBounds 500 a.filename), ("media_type", inBounds 200 a.mediaType), ("bytes", 0 < a.bytes),
    ("sha256", isDigest a.sha256)]

def SnapshotMessage.validate (m : SnapshotMessage) : Except Failure Unit :=
  firstInvalid [("order", 1 ≤ m.order), ("ts", inBounds 100 m.ts), ("user_id", inBounds 200 m.userId),
    ("speaker", inBounds 300 m.speaker), ("permalink", inBounds 4096 m.permalink)]

def SlackSnapshot.validate (s : SlackSnapshot) : Except Failure Unit :=
  firstInvalid [("team_id", inBounds 200 s.teamId), ("channel_id", inBounds 200 s.channelId),
    ("channel_name", inBounds 300 s.channelName), ("thread_ts", inBounds 100 s.threadTs),
    ("permalink", inBounds 4096 s.permalink),
    ("messages", !s.messages.isEmpty && s.messages.length ≤ MAX_THREAD_MESSAGES),
    ("__root__", s.messages.map SnapshotMessage.order == List.range' 1 s.messages.length)]

/-! ## canonical JSON -/

def member (key : String) (value : Text) : Text := Doc.quoted key.toList ++ ':' :: value

def object (members : List Text) : Text := '\x7b' :: [','].intercalate members ++ ['\x7d']

def array (items : List Text) : Text := '[' :: [','].intercalate items ++ [']']

/-- the members of each object in the order of their keys -/
def SnapshotAttachment.dump (a : SnapshotAttachment) : Text :=
  object [member "artifact_index" (decimal a.artifactIndex), member "bytes" (decimal a.bytes),
    member "file_id" (Doc.quoted a.fileId), member "filename" (Doc.quoted a.filename),
    member "media_type" (Doc.quoted a.mediaType), member "sha256" (Doc.quoted a.sha256)]

def SnapshotMessage.dump (m : SnapshotMessage) : Text :=
  object [member "attachments" (array (m.attachments.map SnapshotAttachment.dump)),
    member "occurred_at" (Doc.quoted m.occurredAt), member "order" (decimal m.order),
    member "permalink" (Doc.quoted m.permalink), member "speaker" (Doc.quoted m.speaker),
    member "text" (Doc.quoted m.text), member "ts" (Doc.quoted m.ts), member "user_id" (Doc.quoted m.userId)]

def SlackSnapshot.dump (s : SlackSnapshot) : Text :=
  object [member "channel_id" (Doc.quoted s.channelId), member "channel_name" (Doc.quoted s.channelName),
    member "messages" (array (s.messages.map SnapshotMessage.dump)), member "permalink" (Doc.quoted s.permalink),
    member "team_id" (Doc.quoted s.teamId), member "thread_ts" (Doc.quoted s.threadTs),
    member "version" (decimal 1)]

section
variable (S : Services) (N : Slack)

def canonicalBytes (snapshot : SlackSnapshot) : Except Failure Bytes :=
  let data := S.encode (snapshot.dump ++ ['\n'])
  if MAX_SNAPSHOT_BYTES < data.length then
    .error (.artifact "Slack capture exceeds the snapshot byte limit".toList)
  else .ok data

/-! ## speakers and permalinks -/

/-- `_display_name` -/
def displayName (userId : Text) : Text :=
  if userId.isEmpty then "Unknown speaker".toList
  else
    match N.cachedName userId with
    | some name => name
    | none =>
      match N.usersInfo userId with
      | none => userId
      | some profile => orElse profile.displayName (orElse profile.realName userId)

/-- `urllib.parse.quote(…, safe="")` -/
def quote (t : Text) : Text :=
  t.flatMap fun c =>
    if Provenance.isAsciiAlpha c || Provenance.isAsciiDigit c || "_.-~".toList.contains c then [c]
    else (S.encode [c]).flatMap fun b =>
      '%' :: (Nat.toDigits 16 (b.toNat / 16) ++ Nat.toDigits 16 (b.toNat % 16)).map Char.toUpper

/-- `_SLACK_TIMESTAMP_RE.fullmatch` -/
def isTimestamp (t : Text) : Bool :=
  let whole := t.takeWhile S.runtime.isDecimal
  let rest := t.dropWhile S.runtime.isDecimal
  !whole.isEmpty && rest.head? == some '.' && !rest.tail.isEmpty && rest.tail.all S.runtime.isDecimal

/-- `_message_permalink` -/
def messagePermalink (rootPermalink channelId messageTs : Text) : Except Failure Text :=
  let invalid := Failure.capture "Slack returned an invalid permalink".toList
  match Provenance.urlsplit S.runtime N.urls rootPermalink with
  | .error _ => .error invalid
  | .ok parsed =>
    let host := S.runtime.lower (parsed.hostname S.runtime)
    let expected := "/archives/".toList ++ (quote S channelId ++ "/p".toList)
    let begins := Text.startsWith expected parsed.path
    let root := if begins then parsed.path.drop expected.length else parsed.path
    if parsed.scheme != "https".toList || !(host == "slack.com".toList || Text.endsWith ".slack.com".toList host) ||
        S.runtime.lower parsed.netloc != host || !begins || !(!root.isEmpty && root.all N.isDigit) ||
        !isTimestamp S messageTs then
      .error invalid
    else
      let path := expected ++ messageTs.filter (· != '.')
      .ok (Fetch.withQuery (Provenance.urlunsplit "https".toList parsed.netloc path)
        (Fetch.queryOf S.runtime rootPermalink))

/-! ## attachments -/

def SNAPSHOT_RESERVE : ℕ := min MAX_SNAPSHOT_BYTES (max 1 (MAX_CAPTURE_BYTES / 2))
def ATTACHMENT_BUDGET : ℕ := MAX_CAPTURE_BYTES - SNAPSHOT_RESERVE

def CACHE_ERROR : Text := "Slack attachment cache is inconsistent".toList
def COUNT_ERROR : Text := "Slack capture exceeds the 20-artifact limit".toList
def BYTES_ERROR : Text := "Slack capture exceeds the capture-wide byte limit".toList

def File.url (item : File) : Text := orElse item.urlPrivateDownload (orElse item.urlPrivate [])

/-- `acquisition_key` -/
def File.key (item : File) : Option (Text × Text) :=
  let fileId := orElse item.id []
  if fileId.isEmpty || item.url.isEmpty then none else some (fileId, item.url)

/-- the variables of the loop -/
structure Acquisition where
  /-- `attachment_values` -/
  values : List ArtifactValue
  attachmentBytes : ℕ
  artifactIndex : ℕ
  shared : AList fun _ : Text => SnapshotAttachment
  acquired : AList fun _ : Text × Text => Text
  acquisitionCount : ℕ

def Acquisition.start : Acquisition := ⟨[], 0, 2, ∅, ∅, 0⟩

/-- `acquired[acquisition_key] = digest` -/
def Acquisition.remember (a : Acquisition) (key : Option (Text × Text)) (digest : Text) : Acquisition :=
  match key with
  | some key => { a with acquired := a.acquired.insert key digest }
  | none => a

/-- an attachment that `shared` does not have -/
def newAttachment (item : File) (data : Bytes) (digest : Text) (a : Acquisition) :
    Except Failure (SnapshotAttachment × Acquisition) :=
  -- `len(data) > remaining`
  if ATTACHMENT_BUDGET < a.attachmentBytes + data.length then .error (.capture BYTES_ERROR)
  else if MAX_ARTIFACTS < a.artifactIndex then .error (.capture COUNT_ERROR)
  else
    let filename := orElse item.name ("slack-file-".toList ++ decimal a.artifactIndex)
    match S.detectMedia data (item.mimetype.filter fun t => !t.isEmpty) (some filename) with
    | .error message => .error (.artifact message)
    | .ok mediaType =>
      let attachment : SnapshotAttachment :=
        ⟨a.artifactIndex, orElse item.id ("file-".toList ++ decimal a.artifactIndex), filename, mediaType,
          data.length, digest⟩
      attachment.validate.map fun _ =>
        (attachment, { a with
          values := a.values ++ [⟨data, some mediaType, some filename, some item.url⟩]
          attachmentBytes := a.attachmentBytes + data.length
          artifactIndex := a.artifactIndex + 1
          shared := a.shared.insert digest attachment })

/-- one entry of `files` -/
def acquireFile (item : File) (a : Acquisition) : Except Failure (SnapshotAttachment × Acquisition) :=
  match item.key.bind fun key => a.acquired.lookup key with
  | some digest =>
    match a.shared.lookup digest with
    | some attachment => .ok (attachment, a)
    | none => .error (.capture CACHE_ERROR)
  | none =>
    if MAX_ARTIFACTS - 1 ≤ a.acquisitionCount then .error (.capture COUNT_ERROR)
    else
      (N.download a.acquisitionCount item.url).bind fun data =>
        let digest := S.sha256 data
        let a := { a with acquisitionCount := a.acquisitionCount + 1 }
        match a.shared.lookup digest with
        | some attachment => .ok (attachment, a.remember item.key digest)
        | none => (newAttachment S item data digest a).map fun r => (r.1, r.2.remember item.key digest)

def acquireFiles : List File → Acquisition → Except Failure (List SnapshotAttachment × Acquisition)
  | [], a => .ok ([], a)
  | item :: items, a =>
    (acquireFile S N item a).bind fun r => (acquireFiles items r.2).map fun s => (r.1 :: s.1, s.2)

/-! ## messages -/

/-- `message.get("user") or message.get("bot_id") or "slack-system"` -/
def Message.userId (m : Message) : Text := orElse m.user (orElse m.botId "slack-system".toList)

def snapshotMessage (rootPermalink channelId : Text) (order : ℕ) (m : Message) (a : Acquisition) :
    Except Failure (SnapshotMessage × Acquisition) :=
  let messageTs := orElse m.ts []
  (messagePermalink S N rootPermalink channelId messageTs).bind fun permalink =>
    (acquireFiles S N m.files a).bind fun r =>
      (N.timestamp messageTs).bind fun occurredAt =>
        let message : SnapshotMessage :=
          ⟨order, messageTs, occurredAt, m.userId, displayName N m.userId, orElse m.text [], permalink, r.1⟩
        message.validate.map fun _ => (message, r.2)

def snapshotMessages (rootPermalink channelId : Text) :
    ℕ → List Message → Acquisition → Except Failure (List SnapshotMessage × Acquisition)
  | _, [], a => .ok ([], a)
  | order, m :: ms, a =>
    (snapshotMessage S N rootPermalink channelId order m a).bind fun r =>
      (snapshotMessages rootPermalink channelId (order + 1) ms r.2).map fun s => (r.1 :: s.1, s.2)

/-- what `_build_snapshot` returns -/
structure Built where
  snapshotData : Bytes
  attachments : List ArtifactValue
  participants : List Participant
  threadTs : Text

/-- `_build_snapshot` -/
def buildSnapshot (teamId channelId channelName rootPermalink : Text) (messages : List Message) :
    Except Failure Built :=
  match messages with
  | [] => .error (.capture "Slack returned an empty thread".toList)
  | first :: _ =>
    if MAX_THREAD_MESSAGES < messages.length then
      .error (.capture "Slack thread exceeds the message limit".toList)
    else
      let threadTs := orElse first.threadTs (orElse first.ts [])
      let userIds := firsts (messages.map Message.userId)
      match Capture.validateAll Participant.validate
          (userIds.map fun userId => ⟨some userId, displayName N userId⟩) with
      | .error _ => .error (.invalid "participants".toList)
      | .ok participants =>
        (snapshotMessages S N rootPermalink channelId 1 messages .start).bind fun r =>
          let snapshot : SlackSnapshot :=
            ⟨teamId, channelId, if channelName.isEmpty then channelId else channelName, threadTs, rootPermalink, r.1⟩
          snapshot.validate.bind fun _ =>
            (canonicalBytes S snapshot).bind fun snapshotData =>
              if MAX_CAPTURE_BYTES < snapshotData.length + r.2.attachmentBytes then .error (.capture BYTES_ERROR)
              else .ok ⟨snapshotData, r.2.values, participants, threadTs⟩

/-- `artifact_values` of `submit` -/
def artifactValues (rootPermalink : Text) (built : Built) : List ArtifactValue :=
  ⟨built.snapshotData, some MEDIA_SLACK, some ("slack-".toList ++ built.threadTs ++ ".json".toList),
    some rootPermalink⟩ :: built.attachments

/-! ## What the caches and the list say -/

/-- the attachment has the digest, the length and the media type of an artifact -/
structure Describes (a : SnapshotAttachment) (v : ArtifactValue) : Prop where
  sha256 : a.sha256 = S.sha256 v.data
  bytes : a.bytes = v.data.length
  mediaType : v.declaredType = some a.mediaType

/-- an attachment describes the value at its number; the thread itself is number one -/
def Placed (values : List ArtifactValue) (a : SnapshotAttachment) : Prop :=
  2 ≤ a.artifactIndex ∧ ∃ v, values[a.artifactIndex - 2]? = some v ∧ Describes S a v

/-- one of so many calls got the bytes with this digest from this address -/
def Answered (calls : ℕ) (url digest : Text) : Prop :=
  ∃ n < calls, ∃ data, N.download n url = .ok data ∧ digest = S.sha256 data

/-- the attachment of a file has the digest of what the server gave for the file's address -/
def Serves (calls : ℕ) (item : File) (a : SnapshotAttachment) : Prop := Answered S N calls item.url a.sha256

theorem Placed.append {values : List ArtifactValue} {a : SnapshotAttachment} (h : Placed S values a)
    (more : List ArtifactValue) : Placed S (values ++ more) a := by
  obtain ⟨hindex, v, hv, hd⟩ := h
  have hlt := (List.getElem?_eq_some_iff.mp hv).1
  refine ⟨hindex, v, ?_, hd⟩
  rw [List.getElem?_append_left hlt]
  exact hv

theorem Answered.mono {m n : ℕ} (hle : m ≤ n) {url digest : Text} (h : Answered S N m url digest) :
    Answered S N n url digest := by
  obtain ⟨k, hk, hdata⟩ := h
  exact ⟨k, hk.trans_le hle, hdata⟩

/-- what holds of the variables of the loop -/
structure Consistent (a : Acquisition) : Prop where
  index : a.artifactIndex = a.values.length + 2
  limit : a.values.length + 1 ≤ MAX_ARTIFACTS
  bytes : a.attachmentBytes = (a.values.map fun v => v.data.length).sum
  distinct : a.values.Pairwise fun v w => S.sha256 v.data ≠ S.sha256 w.data
  known : ∀ v ∈ a.values, (a.shared.lookup (S.sha256 v.data)).isSome
  shared : ∀ digest attachment, a.shared.lookup digest = some attachment →
    attachment.sha256 = digest ∧ Placed S a.values attachment
  acquired : ∀ key digest, a.acquired.lookup key = some digest →
    (a.shared.lookup digest).isSome ∧ Answered S N a.acquisitionCount key.2 digest

/-- the list only grows at its end -/
structure Grows (a b : Acquisition) : Prop where
  values : a.values <+: b.values
  count : a.acquisitionCount ≤ b.acquisitionCount

theorem Grows.refl (a : Acquisition) : Grows a a := ⟨List.prefix_refl _, le_refl _⟩

theorem Grows.trans {a b c : Acquisition} (hab : Grows a b) (hbc : Grows b c) : Grows a c :=
  ⟨hab.values.trans hbc.values, hab.count.trans hbc.count⟩

theorem Placed.grows {a b : Acquisition} (h : Grows a b) {attachment : SnapshotAttachment}
    (hp : Placed S a.values attachment) : Placed S b.values attachment := by
  obtain ⟨more, hmore⟩ := h.values
  rw [← hmore]
  exact hp.append S more

theorem consistent_start : Consistent S N .start := by
  refine ⟨rfl, by decide, rfl, List.Pairwise.nil, fun v hv => absurd hv List.not_mem_nil, ?_, ?_⟩
  · intro digest attachment h
    exact nomatch h
  · intro key digest h
    exact nomatch h

/-- a call was made -/
theorem Consistent.called {a : Acquisition} (h : Consistent S N a) :
    Consistent S N { a with acquisitionCount := a.acquisitionCount + 1 } :=
  { h with acquired := fun key digest hk =>
      ⟨(h.acquired key digest hk).1, (h.acquired key digest hk).2.mono S N (Nat.le_succ _)⟩ }

theorem grows_remember (a : Acquisition) (key : Option (Text × Text)) (digest : Text) :
    Grows a (a.remember key digest) := by
  cases key with
  | none => exact Grows.refl a
  | some key => exact ⟨List.prefix_refl _, le_refl _⟩

theorem Consistent.remember {a : Acquisition} (h : Consistent S N a) {key : Option (Text × Text)} {digest : Text}
    (hshared : (a.shared.lookup digest).isSome)
    (hkey : ∀ k, key = some k → Answered S N a.acquisitionCount k.2 digest) :
    Consistent S N (a.remember key digest) := by
  cases key with
  | none => exact h
  | some key =>
    refine { h with acquired := fun k d hk => ?_ }
    have hk : (a.acquired.insert key digest).lookup k = some d := hk
    rw [Table.lookup_insert_eq] at hk
    split at hk
    · next heq =>
      obtain rfl := Option.some.inj hk
      rw [heq]
      exact ⟨hshared, hkey key rfl⟩
    · exact h.acquired k d hk

theorem File.url_of_key {item : File} {key : Text × Text} (h : item.key = some key) : key.2 = item.url := by
  unfold File.key at h
  dsimp only at h
  split at h
  · exact nomatch h
  · rw [← Option.some.inj h]

/-! ## One file, one message, one thread -/

/-- an attachment that is not among them is put last, under the next number -/
theorem newAttachment_spec {item : File} {data : Bytes} {a b : Acquisition} {attachment : SnapshotAttachment}
    (h : Consistent S N a) (hnew : a.shared.lookup (S.sha256 data) = none)
    (hb : newAttachment S item data (S.sha256 data) a = .ok (attachment, b)) :
    Consistent S N b ∧ Grows a b ∧ attachment.sha256 = S.sha256 data ∧
      b.shared.lookup (S.sha256 data) = some attachment := by
  unfold newAttachment at hb
  obtain ⟨hbudget, hb⟩ := Checks.of_ite_error hb
  obtain ⟨hindex, hb⟩ := Checks.of_ite_error hb
  dsimp only at hb
  split at hb
  · exact nomatch hb
  · next mediaType hmedia =>
    obtain ⟨_, -, heq⟩ := Checks.map_eq_ok hb
    obtain ⟨rfl, rfl⟩ := Prod.mk.inj heq
    refine ⟨?_, ⟨List.prefix_append _ _, le_refl _⟩, rfl, AList.lookup_insert _⟩
    have hnumber := h.index
    have hlast : (a.values ++ [⟨data, some mediaType,
        some (orElse item.name ("slack-file-".toList ++ decimal a.artifactIndex)), some item.url⟩])[a.artifactIndex - 2]? =
          some (⟨data, some mediaType,
            some (orElse item.name ("slack-file-".toList ++ decimal a.artifactIndex)), some item.url⟩ : ArtifactValue) := by
      rw [show a.artifactIndex - 2 = a.values.length by omega]
      exact List.getElem?_concat_length
    constructor
    case index =>
      show a.artifactIndex + 1 = (a.values ++ [_]).length + 2
      rw [List.length_append, List.length_singleton]
      omega
    case limit =>
      show (a.values ++ [_]).length + 1 ≤ MAX_ARTIFACTS
      rw [List.length_append, List.length_singleton]
      omega
    case bytes =>
      show a.attachmentBytes + data.length = ((a.values ++ [_]).map fun v : ArtifactValue => v.data.length).sum
      rw [List.map_append, List.sum_append, ← h.bytes]
      rfl
    case distinct =>
      refine List.pairwise_append.mpr ⟨h.distinct, List.pairwise_singleton _ _, fun v hv w hw heq => ?_⟩
      rw [List.mem_singleton.mp hw] at heq
      have hsome := h.known v hv
      rw [show S.sha256 v.data = S.sha256 data from heq, hnew] at hsome
      exact nomatch hsome
    case known =>
      intro v hv
      show ((a.shared.insert (S.sha256 data) _).lookup (S.sha256 v.data)).isSome
      rw [Table.lookup_insert_eq]
      split
      · rfl
      · next hne =>
        rcases List.mem_append.mp hv with hv | hv
        · exact h.known v hv
        · rw [List.mem_singleton.mp hv] at hne
          exact absurd rfl hne
    case shared =>
      intro digest attachment hd
      have hd : (a.shared.insert (S.sha256 data) _).lookup digest = some attachment := hd
      rw [Table.lookup_insert_eq] at hd
      split at hd
      · next heq =>
        obtain rfl := Option.some.inj hd
        refine ⟨heq.symm, ?_, _, hlast, rfl, rfl, rfl⟩
        show 2 ≤ a.artifactIndex
        omega
      · obtain ⟨hsha, hplaced⟩ := h.shared digest attachment hd
        exact ⟨hsha, hplaced.append S _⟩
    case acquired =>
      intro key digest hk
      obtain ⟨hsome, hanswered⟩ := h.acquired key digest hk
      refine ⟨?_, hanswered⟩
      show ((a.shared.insert (S.sha256 data) _).lookup digest).isSome
      rw [Table.lookup_insert_eq]
      split
      · rfl
      · exact hsome

/-- a file gets the attachment of the bytes the server gave for it -/
theorem acquireFile_spec {item : File} {a b : Acquisition} {attachment : SnapshotAttachment}
    (h : Consistent S N a) (hb : acquireFile S N item a = .ok (attachment, b)) :
    Consistent S N b ∧ Grows a b ∧ Placed S b.values attachment ∧ Serves S N b.acquisitionCount item attachment := by
  unfold acquireFile at hb
  split at hb
  · next digest hcached =>
    obtain ⟨key, hkey, hdigest⟩ := Option.bind_eq_some_iff.mp hcached
    split at hb
    · next shared hshared =>
      obtain ⟨rfl, rfl⟩ := Prod.mk.inj (Except.ok.inj hb)
      obtain ⟨hsha, hplaced⟩ := h.shared digest shared hshared
      refine ⟨h, Grows.refl a, hplaced, ?_⟩
      have hanswered := (h.acquired key digest hdigest).2
      rw [File.url_of_key hkey, ← hsha] at hanswered
      exact hanswered
    · exact nomatch hb
  · obtain ⟨-, hb⟩ := Checks.of_ite_error hb
    obtain ⟨data, hdata, hb⟩ := Checks.bind_eq_ok.mp hb
    have hcalled := h.called
    have hgrows : Grows a { a with acquisitionCount := a.acquisitionCount + 1 } :=
      ⟨List.prefix_refl _, Nat.le_succ _⟩
    have hanswer : ∀ calls, a.acquisitionCount < calls → Answered S N calls item.url (S.sha256 data) :=
      fun calls hlt => ⟨a.acquisitionCount, hlt, data, hdata, rfl⟩
    dsimp only at hb
    split at hb
    · next shared hshared =>
      obtain ⟨rfl, rfl⟩ := Prod.mk.inj (Except.ok.inj hb)
      obtain ⟨hsha, hplaced⟩ := h.shared _ shared hshared
      have hto := grows_remember { a with acquisitionCount := a.acquisitionCount + 1 } item.key (S.sha256 data)
      refine ⟨hcalled.remember S N (Option.isSome_of_mem hshared) fun k hk => ?_, hgrows.trans hto,
        Placed.grows S hto hplaced, ?_⟩
      · rw [File.url_of_key hk]
        exact hanswer _ (Nat.lt_succ_self _)
      · unfold Serves
        rw [hsha]
        exact hanswer _ ((Nat.lt_succ_self _).trans_le hto.count)
    · next hnew =>
      obtain ⟨⟨fresh, c⟩, hc, heq⟩ := Checks.map_eq_ok hb
      obtain ⟨rfl, rfl⟩ := Prod.mk.inj heq
      obtain ⟨hconsistent, hgrown, hsha, hshared⟩ := newAttachment_spec S N hcalled hnew hc
      have hto := grows_remember c item.key (S.sha256 data)
      have hlt : a.acquisitionCount < c.acquisitionCount := hgrown.count
      refine ⟨hconsistent.remember S N (Option.isSome_of_mem hshared) fun k hk => ?_,
        (hgrows.trans hgrown).trans hto, Placed.grows S hto (hconsistent.shared _ _ hshared).2, ?_⟩
      · rw [File.url_of_key hk]
        exact hanswer _ hlt
      · unfold Serves
        rw [hsha]
        exact hanswer _ (hlt.trans_le hto.count)

theorem Serves.mono {m n : ℕ} (hle : m ≤ n) {item : File} {a : SnapshotAttachment} (h : Serves S N m item a) :
    Serves S N n item a := Answered.mono S N hle h

/-- the attachments of a message are those of its files, in their order -/
theorem acquireFiles_spec {items : List File} {a b : Acquisition} {attachments : List SnapshotAttachment}
    (h : Consistent S N a) (hb : acquireFiles S N items a = .ok (attachments, b)) :
    Consistent S N b ∧ Grows a b ∧ (∀ attachment ∈ attachments, Placed S b.values attachment) ∧
      List.Forall₂ (Serves S N b.acquisitionCount) items attachments := by
  induction items generalizing a attachments with
  | nil =>
    obtain ⟨rfl, rfl⟩ := Prod.mk.inj (Except.ok.inj hb)
    exact ⟨h, Grows.refl a, fun attachment hm => absurd hm List.not_mem_nil, List.Forall₂.nil⟩
  | cons item items ih =>
    obtain ⟨⟨attachment, c⟩, hc, hb⟩ := Checks.bind_eq_ok.mp hb
    obtain ⟨⟨rest, d⟩, hd, heq⟩ := Checks.map_eq_ok hb
    obtain ⟨rfl, rfl⟩ := Prod.mk.inj heq
    obtain ⟨hconsistent, hgrown, hplaced, hserves⟩ := acquireFile_spec S N h hc
    obtain ⟨hall, hmore, hrest, hforall⟩ := ih hconsistent hd
    refine ⟨hall, hgrown.trans hmore, fun x hx => ?_, List.Forall₂.cons (hserves.mono S N hmore.count) hforall⟩
    rcases List.mem_cons.mp hx with rfl | hx
    · exact hplaced.grows S hmore
    · exact hrest x hx

/-- each file of a message has its attachment there, in the same place -/
def Attached (calls : ℕ) (m : Message) (s : SnapshotMessage) : Prop :=
  List.Forall₂ (Serves S N calls) m.files s.attachments

theorem snapshotMessage_spec {rootPermalink channelId : Text} {order : ℕ} {m : Message} {a b : Acquisition}
    {message : SnapshotMessage} (h : Consistent S N a)
    (hb : snapshotMessage S N rootPermalink channelId order m a = .ok (message, b)) :
    Consistent S N b ∧ Grows a b ∧ (∀ attachment ∈ message.attachments, Placed S b.values attachment) ∧
      Attached S N b.acquisitionCount m message := by
  obtain ⟨permalink, -, hb⟩ := Checks.bind_eq_ok.mp hb
  obtain ⟨⟨attachments, c⟩, hc, hb⟩ := Checks.bind_eq_ok.mp hb
  obtain ⟨occurredAt, -, hb⟩ := Checks.bind_eq_ok.mp hb
  obtain ⟨_, -, heq⟩ := Checks.map_eq_ok hb
  obtain ⟨rfl, rfl⟩ := Prod.mk.inj heq
  exact acquireFiles_spec S N h hc

theorem snapshotMessages_spec {rootPermalink channelId : Text} {messages : List Message} {order : ℕ}
    {a b : Acquisition} {written : List SnapshotMessage} (h : Consistent S N a)
    (hb : snapshotMessages S N rootPermalink channelId order messages a = .ok (written, b)) :
    Consistent S N b ∧ Grows a b ∧
      (∀ message ∈ written, ∀ attachment ∈ message.attachments, Placed S b.values attachment) ∧
      List.Forall₂ (Attached S N b.acquisitionCount) messages written := by
  induction messages generalizing order a written with
  | nil =>
    obtain ⟨rfl, rfl⟩ := Prod.mk.inj (Except.ok.inj hb)
    exact ⟨h, Grows.refl a, fun message hm => absurd hm List.not_mem_nil, List.Forall₂.nil⟩
  | cons m ms ih =>
    obtain ⟨⟨message, c⟩, hc, hb⟩ := Checks.bind_eq_ok.mp hb
    obtain ⟨⟨rest, d⟩, hd, heq⟩ := Checks.map_eq_ok hb
    obtain ⟨rfl, rfl⟩ := Prod.mk.inj heq
    obtain ⟨hconsistent, hgrown, hplaced, hattached⟩ := snapshotMessage_spec S N h hc
    obtain ⟨hall, hmore, hrest, hforall⟩ := ih hconsistent hd
    refine ⟨hall, hgrown.trans hmore, fun x hx => ?_, List.Forall₂.cons ?_ hforall⟩
    · rcases List.mem_cons.mp hx with rfl | hx
      · exact fun attachment ha => (hplaced attachment ha).grows S hmore
      · exact hrest x hx
    · exact List.Forall₂.imp (fun _ _ hs => hs.mono S N hmore.count) hattached

/-- what a snapshot that is returned was made of -/
theorem buildSnapshot_eq_ok {teamId channelId channelName rootPermalink : Text} {messages : List Message}
    {built : Built} (h : buildSnapshot S N teamId channelId channelName rootPermalink messages = .ok built) :
    ∃ (snapshot : SlackSnapshot) (run : Acquisition),
      snapshotMessages S N rootPermalink channelId 1 messages .start = .ok (snapshot.messages, run) ∧
      canonicalBytes S snapshot = .ok built.snapshotData ∧ built.attachments = run.values ∧
      built.snapshotData.length + run.attachmentBytes ≤ MAX_CAPTURE_BYTES := by
  unfold buildSnapshot at h
  split at h
  · exact nomatch h
  · obtain ⟨-, h⟩ := Checks.of_ite_error h
    dsimp only at h
    split at h
    · exact nomatch h
    · obtain ⟨⟨written, run⟩, hrun, h⟩ := Checks.bind_eq_ok.mp h
      obtain ⟨_, -, h⟩ := Checks.bind_eq_ok.mp h
      obtain ⟨snapshotData, hbytes, h⟩ := Checks.bind_eq_ok.mp h
      obtain ⟨hfits, h⟩ := Checks.of_ite_error h
      obtain rfl := Except.ok.inj h
      exact ⟨_, run, hrun, hbytes, rfl, Nat.not_lt.mp hfits⟩

/-! ## The artifacts of the capture -/

/-- the reference of an artifact has its digest and its length -/
theorem referenceOf_spec {v : ArtifactValue × Text} {p : ArtifactValue × ArtifactRef}
    (h : Capture.referenceOf S v = .ok p) : p.1 = v.1 ∧ p.2.sha256 = S.sha256 v.1.data ∧ p.2.bytes = v.1.data.length := by
  unfold Capture.referenceOf at h
  dsimp only at h
  split at h
  · obtain ⟨reference, hreference, rfl⟩ := Checks.map_eq_ok h
    cases hc : ArtifactRef.clean S.runtime S.withoutCapability ⟨Capture.contentRef (S.sha256 v.1.data),
        S.sha256 v.1.data, v.1.data.length, v.2, v.1.originalName, v.1.sourceUrl⟩ with
    | error message =>
      rw [hc] at hreference
      exact nomatch hreference
    | ok cleaned =>
      rw [hc] at hreference
      obtain rfl := Except.ok.inj hreference
      obtain ⟨-, -, -, -, -, -, -, hsha, hbytes⟩ := (ArtifactRef.clean_eq_ok ..).mp hc
      exact ⟨rfl, hsha, hbytes⟩
  · exact nomatch h

theorem normalize_spec {v : ArtifactValue} {p : ArtifactValue × Text} (h : Capture.normalize S v = .ok p) :
    p.1 = v := by
  unfold Capture.normalize at h
  simp only [bind, Except.bind] at h
  split at h
  · exact nomatch h
  · split at h
    · exact nomatch h
    · split at h
      · rw [← Except.ok.inj h]
      · exact nomatch h

/-- the references of a capture are those of its artifacts, in their order -/
theorem referencesOf_spec {values : List ArtifactValue} {pairs : List (ArtifactValue × ArtifactRef)}
    (h : Capture.referencesOf S values = .ok pairs) :
    List.Forall₂ (fun v p => p.1 = v ∧ p.2.sha256 = S.sha256 v.data ∧ p.2.bytes = v.data.length) values pairs := by
  have hboth : ∃ normalized, values.mapM (Capture.normalize S) = .ok normalized ∧
      normalized.mapM (Capture.referenceOf S) = .ok pairs := by
    unfold Capture.referencesOf at h
    simp only [bind, Except.bind] at h
    split at h
    · cases h
    · split at h
      · cases h
      · split at h
        · cases h
        · next normalized hn => exact ⟨normalized, hn, h⟩
  obtain ⟨normalized, hn, hp⟩ := hboth
  have hfirst := Checks.forall₂_mapM hn
  have hsecond := Checks.forall₂_mapM hp
  clear h hn hp
  induction hfirst generalizing pairs with
  | nil =>
    cases hsecond
    exact List.Forall₂.nil
  | cons hv _ ih =>
    cases hsecond with
    | cons hr hrest =>
      have hsame := normalize_spec S hv
      obtain ⟨hvalue, hsha, hbytes⟩ := referenceOf_spec S hr
      rw [hsame] at hvalue hsha hbytes
      exact List.Forall₂.cons ⟨hvalue, hsha, hbytes⟩ (ih hrest)

/-- Every file of every message has an attachment in its place there, with the digest of what the server gave
for it; an attachment describes the artifact at its number; the attachments differ in their bytes; and the
artifacts keep both limits -/
theorem attachments_consistent {teamId channelId channelName rootPermalink : Text} {messages : List Message}
    {built : Built} (h : buildSnapshot S N teamId channelId channelName rootPermalink messages = .ok built) :
    ∃ (snapshot : SlackSnapshot) (run : Acquisition),
      canonicalBytes S snapshot = .ok built.snapshotData ∧
      snapshotMessages S N rootPermalink channelId 1 messages .start = .ok (snapshot.messages, run) ∧
      List.Forall₂ (Attached S N run.acquisitionCount) messages snapshot.messages ∧
      (∀ m ∈ snapshot.messages, ∀ a ∈ m.attachments, 2 ≤ a.artifactIndex ∧ ∃ v,
        built.attachments[a.artifactIndex - 2]? = some v ∧
        (artifactValues rootPermalink built)[a.artifactIndex - 1]? = some v ∧ Describes S a v ∧
        ∀ pairs, Capture.referencesOf S (artifactValues rootPermalink built) = .ok pairs →
          ∃ p, pairs[a.artifactIndex - 1]? = some p ∧ p.1 = v ∧ p.2.sha256 = a.sha256 ∧ p.2.bytes = a.bytes) ∧
      built.attachments.Pairwise (fun v w => v.data ≠ w.data) ∧
      (artifactValues rootPermalink built).length ≤ MAX_ARTIFACTS ∧
      ((artifactValues rootPermalink built).map fun v => v.data.length).sum ≤ MAX_CAPTURE_BYTES := by
  obtain ⟨snapshot, run, hrun, hbytes, hvalues, hfits⟩ := buildSnapshot_eq_ok S N h
  obtain ⟨hconsistent, -, hplaced, hattached⟩ := snapshotMessages_spec S N (consistent_start S N) hrun
  refine ⟨snapshot, run, hbytes, hrun, hattached, fun m hm a ha => ?_, ?_, ?_, ?_⟩
  · obtain ⟨hindex, v, hv, hd⟩ := hplaced m hm a ha
    have hsucc : (artifactValues rootPermalink built)[a.artifactIndex - 1]? = some v := by
      rw [show a.artifactIndex - 1 = a.artifactIndex - 2 + 1 by omega, artifactValues, List.getElem?_cons_succ, hvalues]
      exact hv
    refine ⟨hindex, v, by rw [hvalues]; exact hv, hsucc, hd, fun pairs hpairs => ?_⟩
    have hall := List.forall₂_iff_get.mp (referencesOf_spec S hpairs)
    obtain ⟨hlt, hget⟩ := List.getElem?_eq_some_iff.mp hsucc
    have hlt' : a.artifactIndex - 1 < pairs.length := hall.1 ▸ hlt
    obtain ⟨hvalue, hsha, hlength⟩ := hall.2 (a.artifactIndex - 1) hlt hlt'
    rw [List.get_eq_getElem, List.get_eq_getElem, hget] at hvalue
    rw [List.get_eq_getElem, List.get_eq_getElem, hget, ← hd.sha256] at hsha
    rw [List.get_eq_getElem, List.get_eq_getElem, hget, ← hd.bytes] at hlength
    exact ⟨pairs[a.artifactIndex - 1], List.getElem?_eq_getElem hlt', hvalue, hsha, hlength⟩
  · rw [hvalues]
    exact hconsistent.distinct.imp fun hne heq => hne (congrArg S.sha256 heq)
  · show built.attachments.length + 1 ≤ MAX_ARTIFACTS
    rw [hvalues]
    exact hconsistent.limit
  · show built.snapshotData.length + (built.attachments.map fun v => v.data.length).sum ≤ MAX_CAPTURE_BYTES
    rw [hvalues, ← hconsistent.bytes]
    exact hfits

end

/-! ## a thread with one file in two messages -/

/-- services whose digest of bytes below sixteen is their hexadecimal digits -/
def sums : Services :=
  { Capture.plainServices with
    sha256 := fun data => (data.flatMap (fun b => Nat.toDigits 16 b.toNat) ++ List.replicate 64 '0').take 64 }

/-- a server that has three files, two of them with the same bytes -/
def shelf : Slack where
  urls := Fetch.anyUrls
  download := fun _ url =>
    if url = "https://files.example/c".toList then .ok [3] else .ok [1, 2]
  cachedName := fun _ => none
  usersInfo := fun _ => some ⟨none, some "Ada".toList⟩
  timestamp := fun _ => .ok "2020-01-01T00:00:00Z".toList
  isDigit := Provenance.isAsciiDigit

def fileAt (id url : String) : File := ⟨some id.toList, some "plan".toList, none, some url.toList, none⟩

def thread : List Message :=
  [⟨some "10.1".toList, none, some "U1".toList, none, none,
      [fileAt "F1" "https://files.example/a", fileAt "" "https://files.example/c"]⟩,
    ⟨some "10.2".toList, some "10.1".toList, none, none, none,
      [fileAt "F1" "https://files.example/a", fileAt "F2" "https://files.example/b"]⟩]

def threadLink : Text := "https://acme.slack.com/archives/C1/p101".toList

theorem attachments_consistent_thread :
    ∃ built, buildSnapshot sums shelf "T1".toList "C1".toList [] threadLink thread = .ok built ∧
      built.attachments.map ArtifactValue.data = [[1, 2], [3]] ∧
      built.attachments.Pairwise (fun v w => v.data ≠ w.data) ∧
      (artifactValues threadLink built).length ≤ MAX_ARTIFACTS := by
  have hrun : (buildSnapshot sums shelf "T1".toList "C1".toList [] threadLink thread).toOption.map
      (fun built => built.attachments.map ArtifactValue.data) = some [[1, 2], [3]] := by decide +kernel
  cases h : buildSnapshot sums shelf "T1".toList "C1".toList [] threadLink thread with
  | error failure =>
    rw [h] at hrun
    exact nomatch hrun
  | ok built =>
    rw [h] at hrun
    obtain ⟨-, -, -, -, -, -, hdistinct, hcount, -⟩ := attachments_consistent sums shelf h
    exact ⟨built, rfl, Option.some.inj hrun, hdistinct, hcount⟩

end Snapshot
