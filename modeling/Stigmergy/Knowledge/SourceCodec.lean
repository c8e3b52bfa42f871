import Stigmergy.Kernel.Ascii
import Stigmergy.Knowledge.Sources

/-!
# The codec of source pages

Whether a source page gives back the capture it was written for.

* `Recoverable`        what the schema does not change when it reads an accepted envelope again;
* `parseSource_page`, `sourceEnvelope_page`   what reading comes to on a rendered page;
* `carried_iff`        an accepted capture is carried by its page exactly when it is recoverable;
* `not_carried`        a title with a line separator is accepted, and its page is refused.
-/

set_option linter.unusedSectionVars false

namespace Sources

open Capture

/-! ## fields -/

theorem get_cons (e : Text × Value) (m : Dict) (key : String) :
    Dict.get (e :: m) key = if e.1 = key.toList then e.2 else Dict.get m key := by
  rw [Dict.get, List.find?_cons]
  by_cases h : e.1 = key.toList
  · rw [if_pos h, beq_iff_eq.mpr h]
    rfl
  · rw [if_neg h, beq_false_of_ne h]
    rfl

theorem get_of_not_mem {m : Dict} {key : String} (h : key.toList ∉ m.keys) : m.get key = .null := by
  induction m with
  | nil => rfl
  | cons e m ih =>
    rw [get_cons, if_neg fun he : e.1 = key.toList => h (List.mem_cons.mpr (Or.inl he.symm))]
    exact ih fun hm => h (List.mem_cons_of_mem _ hm)

/-- leaving out what has no value changes no field -/
theorem get_present {m : Dict} (h : m.keys.Nodup) (key : String) : m.present.get key = m.get key := by
  induction m with
  | nil => rfl
  | cons e m ih =>
    obtain ⟨hout, hnodup⟩ := List.nodup_cons.mp h
    rw [Dict.present, List.filter_cons]
    split
    · rw [get_cons, get_cons]
      congr 1
      exact ih hnodup
    · next hnull =>
      have hnull : e.2 = .null := by
        cases he : e.2 <;> first | rfl | (rw [he] at hnull; exact absurd rfl hnull)
      refine (ih hnodup).trans ?_
      rw [get_cons]
      split
      · next hkey =>
        rw [get_of_not_mem (hkey ▸ hout), hnull]
      · rfl

theorem mem_keys_of_get {m : Dict} {key : String} (h : (m.get key).isNull = false) :
    key.toList ∈ m.keys := by
  by_contra hout
  rw [get_of_not_mem hout] at h
  exact nomatch h

theorem keys_present_subset {m : Dict} {key : Text} (h : key ∈ m.present.keys) : key ∈ m.keys := by
  obtain ⟨e, he, rfl⟩ := List.mem_map.mp h
  exact List.mem_map.mpr ⟨e, (List.mem_filter.mp he).1, rfl⟩

theorem textOf_ofText (t : Option Text) : textOf (.ofText t) = .ok t := by
  cases t with
  | none => rfl
  | some t => rfl

theorem listOf_eq_ok {α : Type} {f : Value → Except Text α} {vs : List Value} {as : List α} :
    listOf f vs = .ok as ↔ List.Forall₂ (fun v a => f v = .ok a) vs as := by
  induction vs generalizing as with
  | nil =>
    rw [List.forall₂_nil_left_iff]
    exact ⟨fun h => (Except.ok.inj h).symm, fun h => congrArg Except.ok h.symm⟩
  | cons v vs ih =>
    rw [listOf, Checks.bind_eq_ok, List.forall₂_cons_left_iff]
    constructor
    · rintro ⟨a, ha, h⟩
      obtain ⟨as', has, rfl⟩ := map_eq_ok.mp h
      exact ⟨a, as', ha, ih.mp has, rfl⟩
    · rintro ⟨a, as', ha, has, rfl⟩
      exact ⟨a, ha, map_eq_ok.mpr ⟨as', ih.mpr has, rfl⟩⟩

/-- values that were written are read back -/
theorem listOf_map {α β : Type} {f : Value → Except Text β} {g : α → Value} {k : α → β} (as : List α)
    (h : ∀ a ∈ as, f (g a) = .ok (k a)) : listOf f (as.map g) = .ok (as.map k) := by
  rw [listOf_eq_ok, List.forall₂_map_left_iff, List.forall₂_map_right_iff, List.forall₂_same]
  exact h

theorem participantOf_dump (p : Participant) : participantOf p.dump = .ok p := by
  have hfields : fieldsOf ["subject", "display_name"] p.dump =
      .ok [("subject".toList, .ofText p.subject), ("display_name".toList, .str p.displayName)] := rfl
  rw [participantOf, hfields]
  show (textOf (.ofText p.subject)).bind _ = _
  rw [textOf_ofText]
  rfl

section
variable {R : Runtime} {F : Formats} {withoutCapability : Text → Except Text Text}

theorem acquisitionOf_dump {a : AcquisitionProvenance}
    (h : F.datetime (.str (F.jsonTime a.acquiredAt)) = some a.acquiredAt) :
    acquisitionOf F (a.dump F) = .ok a := by
  have hkeys : (a.fields F).keys = ["original_url".toList, "final_url".toList, "acquired_at".toList,
      "drive_file_id".toList, "drive_media_type".toList, "export_media_type".toList] := rfl
  have hget : ∀ key : String, (a.fields F).present.get key = (a.fields F).get key :=
    get_present (by rw [hkeys]; decide +kernel)
  have hfields : fieldsOf ["original_url", "final_url", "acquired_at", "drive_file_id",
      "drive_media_type", "export_media_type"] (a.dump F) = .ok (a.fields F).present := by
    refine if_pos (List.all_eq_true.mpr fun key hkey => ?_)
    have hkey := keys_present_subset hkey
    rw [hkeys] at hkey
    simp only [List.mem_cons, List.not_mem_nil, or_false] at hkey
    rcases hkey with rfl | rfl | rfl | rfl | rfl | rfl <;> rfl
  rw [acquisitionOf, hfields]
  simp only [Except.bind, hget]
  show (orError _ (F.datetime (.str (F.jsonTime a.acquiredAt)))).bind _ = _
  rw [h]
  show (textOf (.ofText a.driveFileId)).bind _ = _
  rw [textOf_ofText]
  show (textOf (.ofText a.driveMediaType)).bind _ = _
  rw [textOf_ofText]
  show (textOf (.ofText a.exportMediaType)).map _ = _
  rw [textOf_ofText]
  rfl

/-! ## the front matter of a page -/

theorem keys_sourceFields (e : Envelope) (xs : List ExtractedArtifact) :
    (sourceFields F e xs).keys = Lint.SOURCE_FIELDS := rfl

theorem get_frontmatter (e : Envelope) (xs : List ExtractedArtifact) (key : String) :
    (frontmatter F e xs).get key = (sourceFields F e xs).get key :=
  get_present (by rw [keys_sourceFields]; decide +kernel) key

theorem hasFields_frontmatter (e : Envelope) (xs : List ExtractedArtifact) :
    hasFields Lint.SOURCE_FIELDS Lint.REQUIRED_SOURCE_FIELDS (frontmatter F e xs) = true := by
  rw [hasFields, Bool.and_eq_true, List.all_eq_true, List.all_eq_true]
  constructor
  · intro key hkey
    exact List.contains_iff_mem.mpr (keys_present_subset hkey)
  · intro key hkey
    refine List.contains_iff_mem.mpr ?_
    have hget : ∀ key : String, ((sourceFields F e xs).get key).isNull = false →
        key.toList ∈ (frontmatter F e xs).keys := by
      intro key h
      exact mem_keys_of_get (by rw [get_frontmatter]; exact h)
    simp only [Lint.REQUIRED_SOURCE_FIELDS, List.mem_cons, List.not_mem_nil, or_false] at hkey
    rcases hkey with rfl | rfl | rfl | rfl | rfl | rfl | rfl
    · exact hget "id" rfl
    · exact hget "type" rfl
    · exact hget "submitted_by" rfl
    · exact hget "captured_at" rfl
    · exact hget "origin" rfl
    · exact hget "participants" rfl
    · exact hget "artifacts" rfl

/-- the formats give back what this page is written with -/
structure Faithful (F : Formats) (e : Envelope) (xs : List ExtractedArtifact) : Prop where
  yaml : F.safeLoad (yamlText F e xs) = some (.dict (frontmatter F e xs))
  /-- every line of a scalar but its first is indented -/
  fence : Text.contains "\n---".toList (yamlText F e xs) = false
  captured : F.datetime (.str (F.isoformat e.origin.capturedAt)) = some e.origin.capturedAt
  occurred : ∀ o, e.origin.occurredAt = some o → F.occurred (.str (o.isoformat F)) = some o
  acquired : ∀ a, e.origin.acquisition = some a →
    F.datetime (.str (F.jsonTime a.acquiredAt)) = some a.acquiredAt
  calendar : (F.calendar e.origin.capturedAt).1 < 10000 ∧
    1 ≤ (F.calendar e.origin.capturedAt).2 ∧ (F.calendar e.origin.capturedAt).2 ≤ 12
  integer : ∀ n, F.integer (.int n) = some n
  uuid : F.uuid e.captureId = some e.captureId

theorem adapterOf_name (a : Adapter) : adapterOf (.str a.name) = some a := by
  cases a <;> decide

theorem rawOrigin_frontmatter {e : Envelope} {xs : List ExtractedArtifact} (h : Faithful F e xs) :
    rawOrigin F (frontmatter F e xs) = .ok e.origin := by
  have hoccurred : unlessNull (fun v => orError "input should be a valid date" (F.occurred v))
      (e.origin.occurredAt.elim .null fun o => .str (o.isoformat F)) = .ok e.origin.occurredAt := by
    cases ho : e.origin.occurredAt with
    | none => rfl
    | some o =>
      show (orError _ (F.occurred (.str (o.isoformat F)))).map some = _
      rw [h.occurred o ho]
      rfl
  have hparticipants : (itemsOf (.list (e.origin.participants.map Participant.dump))).bind
      (listOf participantOf) = .ok e.origin.participants := by
    show listOf participantOf _ = _
    rw [listOf_map e.origin.participants fun p _ => participantOf_dump p]
    exact congrArg Except.ok (List.map_id' _)
  have hacquisition : unlessNull (acquisitionOf F)
      (e.origin.acquisition.elim .null (AcquisitionProvenance.dump F)) = .ok e.origin.acquisition := by
    cases ha : e.origin.acquisition with
    | none => rfl
    | some a =>
      show (acquisitionOf F (a.dump F)).map some = _
      rw [acquisitionOf_dump (h.acquired a ha)]
      rfl
  rw [rawOrigin]
  simp only [get_frontmatter]
  show (orError _ (adapterOf (.str e.origin.adapter.name))).bind _ = _
  rw [adapterOf_name]
  show (orError _ (F.datetime (.str (F.isoformat e.origin.capturedAt)))).bind _ = _
  rw [h.captured]
  show (unlessNull _ (e.origin.occurredAt.elim .null fun o => .str (o.isoformat F))).bind _ = _
  rw [hoccurred]
  show (textOf (.ofText e.origin.title)).bind _ = _
  rw [textOf_ofText]
  show (textOf (.ofText e.origin.locator)).bind _ = _
  rw [textOf_ofText]
  show ((itemsOf (.list (e.origin.participants.map Participant.dump))).bind (listOf participantOf)).bind
    _ = _
  rw [hparticipants]
  show (unlessNull (acquisitionOf F)
    (e.origin.acquisition.elim .null (AcquisitionProvenance.dump F))).map _ = _
  rw [hacquisition]
  rfl

theorem intentOf_frontmatter (e : Envelope) (xs : List ExtractedArtifact) :
    intentOf (frontmatter F e xs) = e.intent.validate := by
  rw [intentOf, get_frontmatter, get_frontmatter]
  show (textOf (.ofText e.intent.resolutionOf)).bind _ = _
  rw [textOf_ofText]
  show (textOf (.ofText e.intent.rationale)).bind _ = _
  rw [textOf_ofText]
  rfl

/-! ## artifacts -/

theorem artifactOf_fields {x : ExtractedArtifact} (hint : ∀ n, F.integer (.int n) = some n)
    (hd : isDigest x.original.sha256 = true) :
    artifactOf R F withoutCapability x.fields x.original.sha256 =
      ArtifactRef.clean R withoutCapability
        { x.original with blobRef := contentRef x.original.sha256 } := by
  rw [artifactOf, if_neg (by rw [hd]; exact Bool.false_ne_true)]
  show (orError _ (F.integer (.int x.original.bytes))).bind _ = _
  rw [hint]
  show (textOf (.ofText x.original.originalName)).bind _ = _
  rw [textOf_ofText]
  show (textOf (.ofText x.original.sourceUrl)).bind _ = _
  rw [textOf_ofText]
  simp only [Except.bind]
  rw [if_neg (Int.not_lt.mpr (Int.natCast_nonneg x.original.bytes))]
  rfl

theorem orEmpty_str (t : Text) : orEmpty F (.str t) = t := by
  cases t with
  | nil => rfl
  | cons c t => rfl

theorem ocrPages_map (pages : List ℕ) (h : ∀ page ∈ pages, 1 ≤ page) :
    ocrPages (pages.map fun page => .int page) = some (pages.map Int.ofNat) := by
  induction pages with
  | nil => rfl
  | cons n pages ih =>
    have hn : ¬((n : ℤ) < 1) := by
      have := h n List.mem_cons_self
      omega
    show (if (n : ℤ) < 1 then none else (ocrPages (pages.map fun page => .int page)).map _) = _
    rw [if_neg hn, ih fun m hm => h m (List.mem_cons_of_mem n hm)]
    rfl

/-- an entry of the front matter is in order when its artifact is -/
theorem validateArtifact_dump {x : ExtractedArtifact} (hint : ∀ n, F.integer (.int n) = some n)
    (hd : isDigest x.original.sha256 = true) (hm : Text.isBlank x.original.mediaType = false)
    {a : ArtifactRef} (ha : ArtifactRef.clean R withoutCapability
      { x.original with blobRef := contentRef x.original.sha256 } = .ok a) :
    validateArtifact R F withoutCapability x.dump = .ok () := by
  have hfields : hasFields ARTIFACT_FIELDS REQUIRED_ARTIFACT_FIELDS x.fields = true := by
    show (ARTIFACT_FIELDS.all (ARTIFACT_FIELDS.contains ·) &&
      REQUIRED_ARTIFACT_FIELDS.all (ARTIFACT_FIELDS.contains ·)) = true
    decide +kernel
  have hpages : validOcrPages (.list (x.ocrPages.map fun page => .int page)) = true := by
    rw [validOcrPages, ocrPages_map x.ocrPages x.pages.2]
    exact decide_eq_true (x.pages.1.map fun _ _ h => Int.ofNat.inj h)
  have hsha : Dict.get x.fields "sha256" = .str x.original.sha256 := rfl
  have hreadable : Dict.get x.fields "readable_sha256" = .str x.readableSha256 := rfl
  have hmedia : isNamed (Dict.get x.fields "media_type") = true := by
    show (!Text.isBlank x.original.mediaType) = true
    rw [hm]
    rfl
  have hextractor : isNamed (Dict.get x.fields "extractor") = true := by
    show (!Text.isBlank x.extractor) = true
    rw [x.named.1]
    rfl
  have hversion : isNamed (Dict.get x.fields "extractor_version") = true := by
    show (!Text.isBlank x.extractorVersion) = true
    rw [x.named.2]
    rfl
  rw [ExtractedArtifact.dump, validateArtifact, hfields, hsha, orEmpty_str,
    artifactOf_fields hint hd, ha]
  dsimp only
  rw [if_neg (by decide), hreadable, orEmpty_str, x.digest, hmedia, hextractor, hversion]
  show (if (!validOcrPages (.list (x.ocrPages.map fun page => .int page))) = true then _ else _) = _
  rw [hpages]
  rfl

/-! ## the text of a page -/

theorem renderSource_eq_ok {e : Envelope} {xs : List ExtractedArtifact} {text : Text}
    (h : renderSource F e xs = .ok text) : xs.map (·.original) = e.artifacts ∧
      text = "---\n".toList ++ yamlText F e xs ++ "\n---\n\n".toList ++ sourceBody e xs := by
  rw [renderSource] at h
  obtain ⟨hxs, h⟩ := Checks.of_ite_error h
  obtain ⟨-, h⟩ := Checks.of_ite_error h
  exact ⟨not_not.mp hxs, (Except.ok.inj h).symm⟩

theorem splitFrontmatter_page {e : Envelope} {xs : List ExtractedArtifact} {text : Text}
    (hf : Faithful F e xs) (h : renderSource F e xs = .ok text) :
    splitFrontmatter R F text = (frontmatter F e xs, '\n' :: sourceBody e xs, false) := by
  obtain ⟨-, rfl⟩ := renderSource_eq_ok h
  have hlast : (yamlText F e xs).getLast? ≠ some '\r' := by
    intro hr
    have hne : yamlText F e xs ≠ [] := fun he => by
      rw [he] at hr
      exact nomatch hr
    rw [List.getLast?_eq_some_getLast hne] at hr
    have hspace := List.rdropWhile_last_not Text.isSpace (F.safeDump (frontmatter F e xs)) hne
    exact hspace (Option.some.inj hr ▸ rfl)
  have hopen : Corpus.opener ("---\n".toList ++ yamlText F e xs ++ "\n---\n\n".toList ++ sourceBody e xs) =
      some (yamlText F e xs ++ '\n' :: '-' :: '-' :: '-' :: '\n' :: '\n' :: sourceBody e xs) := by
    rw [List.append_assoc, List.append_assoc]
    rfl
  rw [splitFrontmatter, hopen]
  dsimp only [Option.bind_some]
  rw [Corpus.upToCloser_block hf.fence hlast]
  dsimp only
  rw [hf.yaml]

/-! ## the path of a page -/

/-- the laws of decimal digits, and the media types, of the runtime -/
structure Latin (R : Runtime) : Prop where
  lower_media : ∀ m ∈ SUPPORTED_MEDIA_TYPES, R.lower m = m
  digit : ∀ n < 10, R.isDecimal (Nat.digitChar n) = true ∧ R.digit (Nat.digitChar n) = n

/-- one character test for each place of `str(uuid.UUID)` -/
def uuidShape : List (Char → Bool) :=
  List.replicate 8 Corpus.isHex ++ [(· == '-')] ++ List.replicate 4 Corpus.isHex ++ [(· == '-')] ++
    List.replicate 4 Corpus.isHex ++ [(· == '-')] ++ List.replicate 4 Corpus.isHex ++ [(· == '-')] ++
    List.replicate 12 Corpus.isHex

def isUuid (t : Text) : Bool :=
  t.length == uuidShape.length && (List.zipWith (fun p c => p c) uuidShape t).all id

theorem length_padded (width n : ℕ) : (padded width n).length = width := by
  induction width generalizing n with
  | zero => rfl
  | succ width ih =>
    rw [padded, List.length_append, ih]
    rfl

theorem intOf_padded (hR : Latin R) (width n : ℕ) :
    Lint.intOf R (padded width n) = n % 10 ^ width := by
  induction width generalizing n with
  | zero =>
    rw [Nat.pow_zero, Nat.mod_one]
    rfl
  | succ width ih =>
    have hstep : Lint.intOf R (padded (width + 1) n) =
        10 * Lint.intOf R (padded width (n / 10)) + n % 10 := by
      rw [padded, Lint.intOf, List.foldl_append]
      show 10 * Lint.intOf R (padded width (n / 10)) + R.digit (Nat.digitChar (n % 10)) = _
      rw [(hR.digit (n % 10) (Nat.mod_lt n (by decide))).2]
    rw [hstep, ih, Nat.pow_succ, Nat.mul_comm (10 ^ width) 10, Nat.mod_mul]
    omega

theorem decimal_padded (hR : Latin R) (width n : ℕ) : ∀ c ∈ padded width n, R.isDecimal c = true := by
  induction width generalizing n with
  | zero => exact fun c hc => absurd hc List.not_mem_nil
  | succ width ih =>
    intro c hc
    rcases List.mem_append.mp hc with hc | hc
    · exact ih (n / 10) c hc
    · rw [List.mem_singleton.mp hc]
      exact (hR.digit (n % 10) (Nat.mod_lt n (by decide))).1

theorem padded_four (n : ℕ) : padded 4 n = [Nat.digitChar (n / 10 / 10 / 10 % 10),
    Nat.digitChar (n / 10 / 10 % 10), Nat.digitChar (n / 10 % 10), Nat.digitChar (n % 10)] := by
  simp only [padded, List.nil_append, List.cons_append]

theorem month_padded : ∀ m < 13, 1 ≤ m → ∃ a b, padded 2 m = [a, b] ∧
    (a == '0' || a == '1') = true ∧ ('0' ≤ b && b ≤ '9') = true ∧ Corpus.isMonth [a, b] = true := by
  intro m hm hpos
  refine ⟨_, _, rfl, ?_⟩
  revert m
  decide

theorem sourcePath_parts {e : Envelope} (hR : Latin R) (hid : isUuid e.captureId = true)
    (hyear : (F.calendar e.origin.capturedAt).1 < 10000)
    (hmonth : 1 ≤ (F.calendar e.origin.capturedAt).2 ∧ (F.calendar e.origin.capturedAt).2 ≤ 12) :
    Corpus.isSourcePath R (sourcePath F e) = true ∧
      Lint.intOf R (((sourcePath F e).drop 8).take 4) = (F.calendar e.origin.capturedAt).1 ∧
      Lint.intOf R (((sourcePath F e).drop 13).take 2) = (F.calendar e.origin.capturedAt).2 ∧
      ((sourcePath F e).drop 16).take 36 = e.captureId := by
  have hyear' := intOf_padded hR 4 (F.calendar e.origin.capturedAt).1
  have hyear4 : (F.calendar e.origin.capturedAt).1 < 10 ^ 4 := hyear
  rw [Nat.mod_eq_of_lt hyear4] at hyear'
  have hmonth' := intOf_padded hR 2 (F.calendar e.origin.capturedAt).2
  have hmonth2 : (F.calendar e.origin.capturedAt).2 < 10 ^ 2 := Nat.lt_of_le_of_lt hmonth.2 (by decide)
  rw [Nat.mod_eq_of_lt hmonth2] at hmonth'
  obtain ⟨a, b, hab, ha, hb, hmon⟩ :=
    month_padded (F.calendar e.origin.capturedAt).2 (by omega) hmonth.1
  obtain ⟨c, d, g, k, hy⟩ : ∃ c d g k, padded 4 (F.calendar e.origin.capturedAt).1 = [c, d, g, k] :=
    ⟨_, _, _, _, padded_four _⟩
  have hdec := decimal_padded hR 4 (F.calendar e.origin.capturedAt).1
  have hpath : sourcePath F e = "sources/".toList ++
      c :: d :: g :: k :: '/' :: a :: b :: '/' :: (e.captureId ++ ".md".toList) := by
    unfold sourcePath
    rw [hy, hab]
    simp only [List.append_assoc, List.cons_append, List.nil_append]
  rw [hy] at hyear' hdec
  rw [hab] at hmonth'
  simp only [List.forall_mem_cons] at hdec
  obtain ⟨hc, hd, hg, hk, -⟩ := hdec
  rw [isUuid, Bool.and_eq_true, beq_iff_eq] at hid
  have hlen : e.captureId.length = 36 := hid.1
  rw [hpath]
  refine ⟨?_, hyear', hmonth', List.take_left' hlen⟩
  have hshape : Corpus.sourceShape R = R.isDecimal :: R.isDecimal :: R.isDecimal :: R.isDecimal ::
      (· == '/') :: (fun c => c == '0' || c == '1') :: (fun c => '0' ≤ c && c ≤ '9') :: (· == '/') ::
      (uuidShape ++ [(· == '.'), (· == 'm'), (· == 'd')]) := rfl
  have hall : (List.zipWith (fun p c => p c) (Corpus.sourceShape R)
      (c :: d :: g :: k :: '/' :: a :: b :: '/' :: (e.captureId ++ ".md".toList))).all id = true := by
    rw [hshape]
    simp only [List.zipWith_cons_cons, List.all_cons, id, hc, hd, hg, hk, ha, hb, beq_self_eq_true,
      Bool.true_and]
    rw [List.zipWith_append hid.1.symm, List.all_append, hid.2]
    rfl
  have hcount : (c :: d :: g :: k :: '/' :: a :: b :: '/' :: (e.captureId ++ ".md".toList)).length =
      (Corpus.sourceShape R).length := by
    rw [hshape]
    simp only [List.length_cons, List.length_append, hlen]
    rfl
  have hdrop : ("sources/".toList ++
      c :: d :: g :: k :: '/' :: a :: b :: '/' :: (e.captureId ++ ".md".toList)).drop 8 =
      c :: d :: g :: k :: '/' :: a :: b :: '/' :: (e.captureId ++ ".md".toList) := rfl
  rw [Corpus.isSourcePath, hdrop]
  dsimp only
  rw [hcount, hall, beq_self_eq_true]
  show (Text.startsWith "sources/".toList _ && (true && true && Corpus.isMonth [a, b])) = true
  rw [hmon]
  rfl

/-! ## the heading of a page -/

/-- what `clean_optional_text` leaves of a title -/
def CleanTitle (title : Option Text) : Prop :=
  ∀ t, title = some t → Text.strip t = t ∧ t ≠ [] ∧ ∀ c ∈ t, 32 ≤ c.toNat ∨ c = '\t'

theorem headingOf_some {t : Text} (h : t ≠ []) : headingOf (some t) = t :=
  if_neg fun he => h (List.isEmpty_iff.mp he)

theorem strip_heading {title : Option Text} (h : CleanTitle title) :
    Text.strip ("# ".toList ++ headingOf title) = "# ".toList ++ headingOf title := by
  cases title with
  | none => decide +kernel
  | some t =>
    obtain ⟨hstrip, hne, -⟩ := h t rfl
    have hblank : Text.isBlank t = false := by
      cases hb : Text.isBlank t with
      | false => rfl
      | true =>
        refine absurd ?_ hne
        rw [← hstrip, Text.strip]
        have hl : Text.lstrip t = [] := List.dropWhile_eq_nil_iff.mpr (Text.isBlank_iff.mp hb)
        rw [hl]
        rfl
    have hrstrip : Text.rstrip t = t := by
      rw [← hstrip, Text.strip, Text.rstrip_rstrip]
    rw [headingOf_some hne]
    show Text.rstrip (Text.lstrip ('#' :: ' ' :: t)) = _
    rw [Text.lstrip_eq_self rfl]
    show Text.rstrip (['#', ' '] ++ t) = _
    rw [Text.rstrip_append_of_ne hblank, hrstrip]
    rfl

/-- the first line of a page is its heading, unless the title holds a line end -/
theorem first_line_iff {title : Option Text} (h : CleanTitle title) (rest : Text) :
    (Text.splitlines ("# ".toList ++ headingOf title ++ '\n' :: rest)).head?.map Text.strip =
        some ("# ".toList ++ headingOf title) ↔
      ∀ t, title = some t → ∀ c ∈ t, Text.isLineEnd c = false := by
  have hhash : ∀ c ∈ "# ".toList, Text.isLineEnd c = false := by decide
  by_cases hend : ∀ c ∈ "# ".toList ++ headingOf title, Text.isLineEnd c = false
  · rw [Text.head?_splitlines hend rfl (by decide), Option.map_some, strip_heading h]
    refine ⟨fun _ t ht c hc => hend c ?_, fun _ => rfl⟩
    obtain ⟨-, hne, -⟩ := h t ht
    rw [ht, headingOf_some hne]
    exact List.mem_append_right _ hc
  · cases title with
    | none => exact absurd (by decide +kernel) hend
    | some t =>
      obtain ⟨-, hne, hctl⟩ := h t rfl
      rw [headingOf_some hne] at hend ⊢
      have hfound : ∃ c ∈ t, Text.isLineEnd c = true := by
        by_contra hno
        refine hend fun c hc => ?_
        rcases List.mem_append.mp hc with hc | hc
        · exact hhash c hc
        · exact (Bool.not_eq_true _).mp fun he => hno ⟨c, hc, he⟩
      obtain ⟨c, hc, hce⟩ := hfound
      constructor
      · intro hline
        obtain ⟨d, hd⟩ := Option.isSome_iff_exists.mp
          (List.find?_isSome.mpr ⟨c, hc, hce⟩ : (t.find? Text.isLineEnd).isSome = true)
        obtain ⟨hde, pre, post, ht, hpre⟩ := List.find?_eq_some_iff_append.mp hd
        have hdr : d ≠ '\r' := by
          rintro rfl
          have hmem : '\r' ∈ t := by
            rw [ht]
            exact List.mem_append_right _ List.mem_cons_self
          rcases hctl _ hmem with h | h
          · exact absurd h (by decide)
          · exact absurd h (by decide)
        have hpage : "# ".toList ++ t ++ '\n' :: rest = ("# ".toList ++ pre) ++ d :: (post ++ '\n' :: rest) := by
          rw [ht]
          simp only [List.append_assoc, List.cons_append]
        rw [hpage, Text.head?_splitlines _ hde hdr, Option.map_some] at hline
        · have hlen := congrArg List.length (Option.some.inj hline)
          have hle := Text.length_strip_le ("# ".toList ++ pre)
          rw [hlen, ht] at hle
          simp only [List.length_append, List.length_cons] at hle
          omega
        · intro x hx
          rcases List.mem_append.mp hx with hx | hx
          · exact hhash x hx
          · simpa using hpre x hx
      · intro hall
        rw [hall t rfl c hc] at hce
        exact nomatch hce

theorem artifactSections_blank {xs : List ExtractedArtifact} (h : xs ≠ []) (n : ℕ) :
    Text.isBlank (artifactSections n xs) = false := by
  obtain ⟨x, xs, rfl⟩ := List.exists_cons_of_ne_nil h
  have hfirst : Text.isBlank "\n## Artifact ".toList = false := by decide
  unfold artifactSections artifactSection
  simp only [Text.isBlank_append, hfirst, Bool.false_and]

theorem strip_page (e : Envelope) {xs : List ExtractedArtifact} (h : xs ≠ []) :
    Text.strip ('\n' :: sourceBody e xs) =
      "# ".toList ++ headingOf e.origin.title ++ '\n' :: Text.rstrip (artifactSections 1 xs) := by
  have hlstrip : Text.lstrip ('\n' :: sourceBody e xs) = sourceBody e xs := rfl
  rw [Text.strip, hlstrip, sourceBody, ← List.singleton_append, ← List.append_assoc,
    Text.rstrip_append_of_ne (artifactSections_blank h 1), List.append_assoc]
  rfl

/-! ## the capture of a page -/

theorem get_field (e : Envelope) (xs : List ExtractedArtifact) {key : String} {v : Value}
    (h : (sourceFields F e xs).get key = v) : (frontmatter F e xs).get key = v :=
  (get_frontmatter e xs key).trans h

theorem originOf_frontmatter {e : Envelope} {xs : List ExtractedArtifact} (h : Faithful F e xs) :
    originOf R F withoutCapability (frontmatter F e xs) = e.origin.validate R withoutCapability := by
  rw [originOf, rawOrigin_frontmatter h]
  rfl

theorem aclOf_audience {audience v : Option (List Text)} (h : validAudience v = .ok audience) :
    aclOf (audience.elim .null fun groups => .list (groups.map .str)) = .ok audience := by
  rcases validAudience_cases h with rfl | ⟨name, rfl, hname⟩
  · rfl
  · have hne : name.isEmpty = false := List.isEmpty_eq_false_iff.mpr (isSpace_layerName hname).1
    have hlabels : labels [.str name] = some [name] := by
      rw [labels, hne]
      rfl
    show aclOf (.list [.str name]) = _
    rw [aclOf, hlabels]
    exact if_pos (List.nodup_singleton name)

/-- what the schema does not change when it reads an accepted envelope again -/
structure Recoverable (R : Runtime) (withoutCapability : Text → Except Text Text) (e : Envelope) :
    Prop where
  title : ∀ t, e.origin.title = some t → ∀ c ∈ t, Text.isLineEnd c = false
  origin : e.origin.Kept R withoutCapability
  artifacts : ∀ a ∈ e.artifacts, a.Kept withoutCapability

/-- the page is accepted at its path, with the text it was written with, and gives the capture back -/
def Carried (R : Runtime) (F : Formats) (withoutCapability : Text → Except Text Text) (e : Envelope)
    (xs : List ExtractedArtifact) (text : Text) : Prop :=
  ∃ source filed, parseSource R F withoutCapability (sourcePath F e) text = .ok source ∧
    source.title = headingOf e.origin.title ∧ source.body = '\n' :: sourceBody e xs ∧
    sourceEnvelope R F withoutCapability source = .ok filed ∧
    filed.captureId = e.captureId ∧ filed.audience = e.audience ∧ filed.origin = e.origin ∧
    filed.artifacts = e.artifacts ∧ filed.intent = e.intent

/-- an accepted envelope, extraction results for its artifacts, and the page they are rendered to -/
structure Filed (R : Runtime) (F : Formats) (withoutCapability : Text → Except Text Text) (e : Envelope)
    (xs : List ExtractedArtifact) (text : Text) : Prop where
  latin : Latin R
  accepted : ∃ raw : Envelope, raw.validate R withoutCapability = .ok e
  isUuid : isUuid e.captureId = true
  faithful : Faithful F e xs
  rendered : renderSource F e xs = .ok text

namespace Filed
variable {e : Envelope} {xs : List ExtractedArtifact} {text : Text}

theorem cleanTitle (h : Filed R F withoutCapability e xs text) : CleanTitle e.origin.title := by
  obtain ⟨raw, hraw⟩ := h.accepted
  obtain ⟨-, ⟨o, ho⟩, -⟩ := Envelope.of_validate R _ hraw
  obtain ⟨ht, -⟩ := (Origin.validate_eq_ok R _).mp ho
  intro t htitle
  rw [htitle] at ht
  obtain ⟨v, -, -, rfl, hne, hctl⟩ := cleanOptionalText_eq_ok.mp ht
  exact ⟨Text.strip_strip v, hne, hctl⟩

theorem nonempty (h : Filed R F withoutCapability e xs text) : xs ≠ [] := by
  obtain ⟨raw, hraw⟩ := h.accepted
  obtain ⟨-, -, -, -, -, hbounded⟩ := Envelope.of_validate R _ hraw
  rintro rfl
  rw [captureBytesAreBounded, ← (renderSource_eq_ok h.rendered).1] at hbounded
  cases hbounded

/-- each artifact has been through its validator -/
theorem cleaned (h : Filed R F withoutCapability e xs text) {x : ExtractedArtifact} (hx : x ∈ xs) :
    x.original ∈ e.artifacts ∧ ∃ a, ArtifactRef.clean R withoutCapability a = .ok x.original := by
  obtain ⟨raw, hraw⟩ := h.accepted
  obtain ⟨-, -, hartifacts, -⟩ := Envelope.of_validate R _ hraw
  have hmem : x.original ∈ e.artifacts := by
    rw [← (renderSource_eq_ok h.rendered).1]
    exact List.mem_map_of_mem hx
  exact ⟨hmem, hartifacts _ hmem⟩

theorem digest (h : Filed R F withoutCapability e xs text) {x : ExtractedArtifact} (hx : x ∈ xs) :
    isDigest x.original.sha256 = true := by
  obtain ⟨-, a, ha⟩ := h.cleaned hx
  obtain ⟨-, hd, -, -, -, -, -, hsha, -⟩ := (ArtifactRef.clean_eq_ok R _).mp ha
  rw [hsha]
  exact hd

/-- an artifact read from its entry is the one that was filed exactly when the schema keeps it -/
theorem sourceArtifact_iff (h : Filed R F withoutCapability e xs text) {x : ExtractedArtifact}
    (hx : x ∈ xs) : sourceArtifact R F withoutCapability x.dump = .ok x.original ↔
      x.original.Kept withoutCapability := by
  obtain ⟨-, a, ha⟩ := h.cleaned hx
  rw [← ArtifactRef.clean_again R _ h.latin.lower_media ha]
  have hread : sourceArtifact R F withoutCapability x.dump =
      artifactOf R F withoutCapability x.fields x.original.sha256 := rfl
  rw [hread, artifactOf_fields h.faithful.integer (h.digest hx)]

theorem heading_iff (h : Filed R F withoutCapability e xs text) :
    (Text.splitlines (Text.strip ('\n' :: sourceBody e xs))).head?.map Text.strip =
        some ("# ".toList ++ headingOf e.origin.title) ↔
      ∀ t, e.origin.title = some t → ∀ c ∈ t, Text.isLineEnd c = false := by
  rw [strip_page e h.nonempty]
  exact first_line_iff h.cleanTitle _

end Filed

/-- what a page that is accepted has shown -/
theorem of_parseSource {path text body : Text} {m : Dict} {source : SourceDocument}
    (hsplit : splitFrontmatter R F text = (m, body, false))
    (h : parseSource R F withoutCapability path text = .ok source) :
    source.text = text ∧ ∃ origin, originOf R F withoutCapability m = .ok origin ∧
      (Text.splitlines (Text.strip body)).head?.map Text.strip =
        some ("# ".toList ++ headingOf origin.title) := by
  rw [parseSource, hsplit] at h
  obtain ⟨-, h⟩ := Checks.of_ite_error h
  obtain ⟨-, h⟩ := Checks.of_ite_error h
  rw [checkSource] at h
  obtain ⟨-, h⟩ := Checks.of_ite_error h
  cases hprov : provenanceOf R F withoutCapability m with
  | error err =>
    rw [hprov] at h
    cases h
  | ok origin =>
    rw [hprov] at h
    obtain ⟨-, h⟩ := Checks.of_ite_error h
    obtain ⟨-, -, h⟩ := Checks.bind_eq_ok.mp h
    obtain ⟨hline, h⟩ := Checks.of_ite_error h
    obtain ⟨acl, -, rfl⟩ := map_eq_ok.mp h
    obtain ⟨origin', horigin, hprov⟩ := Checks.bind_eq_ok.mp hprov
    obtain ⟨-, -, hprov⟩ := Checks.bind_eq_ok.mp hprov
    obtain ⟨-, -, rfl⟩ := map_eq_ok.mp hprov
    exact ⟨rfl, origin', horigin, not_not.mp hline⟩

/-- what an envelope made from a page was made of -/
theorem of_sourceEnvelope {source : SourceDocument} {body : Text} {m : Dict} {filed : Envelope}
    (hsplit : splitFrontmatter R F source.text = (m, body, false))
    (h : sourceEnvelope R F withoutCapability source = .ok filed) :
    ((itemsOf (m.get "artifacts")).bind (listOf (sourceArtifact R F withoutCapability))) =
        .ok filed.artifacts ∧ originOf R F withoutCapability m = .ok filed.origin := by
  rw [sourceEnvelope, hsplit] at h
  obtain ⟨artifacts, hartifacts, h⟩ := Checks.bind_eq_ok.mp h
  obtain ⟨captureId, -, h⟩ := Checks.bind_eq_ok.mp h
  obtain ⟨actor, -, h⟩ := Checks.bind_eq_ok.mp h
  obtain ⟨origin, horigin, h⟩ := Checks.bind_eq_ok.mp h
  obtain ⟨intent, -, h⟩ := Checks.bind_eq_ok.mp h
  obtain ⟨-, -, -, hfiled⟩ := Envelope.clean_iff.mp h
  rw [hfiled]
  exact ⟨hartifacts, horigin⟩

theorem recoverable_of_carried {e : Envelope} {xs : List ExtractedArtifact} {text : Text}
    (h : Filed R F withoutCapability e xs text) (hc : Carried R F withoutCapability e xs text) :
    Recoverable R withoutCapability e := by
  obtain ⟨source, filed, hparse, -, -, hfiled, -, -, horigin, hartifacts, -⟩ := hc
  have hsplit := splitFrontmatter_page (R := R) h.faithful h.rendered
  obtain ⟨htext, origin, hread, hline⟩ := of_parseSource hsplit hparse
  rw [← htext] at hsplit
  obtain ⟨hitems, hread'⟩ := of_sourceEnvelope hsplit hfiled
  rw [horigin, originOf_frontmatter h.faithful] at hread'
  rw [originOf_frontmatter h.faithful, hread'] at hread
  rw [← Except.ok.inj hread] at hline
  obtain ⟨raw, hraw⟩ := h.accepted
  obtain ⟨-, ⟨o, ho⟩, -⟩ := Envelope.of_validate R _ hraw
  refine ⟨h.heading_iff.mp hline, (Origin.validate_again R _ ho).mp hread', fun a ha => ?_⟩
  have hlist : listOf (sourceArtifact R F withoutCapability) (xs.map ExtractedArtifact.dump) =
      .ok (xs.map (·.original)) := by
    rw [(renderSource_eq_ok h.rendered).1, ← hartifacts, ← hitems, get_field e xs rfl]
    rfl
  rw [listOf_eq_ok, List.forall₂_map_left_iff, List.forall₂_map_right_iff, List.forall₂_same] at hlist
  rw [← (renderSource_eq_ok h.rendered).1] at ha
  obtain ⟨x, hx, rfl⟩ := List.mem_map.mp ha
  exact (h.sourceArtifact_iff hx).mp (hlist x hx)

/-- a blank media type is none the schema supports -/
theorem mediaType_not_blank {a b : ArtifactRef} (h : ArtifactRef.clean R withoutCapability a = .ok b) :
    Text.isBlank b.mediaType = false := by
  obtain ⟨-, -, hm, -⟩ := (ArtifactRef.clean_eq_ok R _).mp h
  rw [supportedMediaType] at hm
  split at hm
  · next hmem =>
    rw [Except.ok.inj hm, List.contains_iff_mem] at hmem
    exact (supported_plain _ hmem).2.2
  · cases hm

/-- the characters of an identity -/
theorem uuid_char {t : Text} (h : isUuid t = true) : ∀ c ∈ t, Corpus.isHex c = true ∨ c = '-' := by
  rw [isUuid, Bool.and_eq_true, beq_iff_eq] at h
  have hshape : ∀ p ∈ uuidShape, ∀ c : Char, p c = true → Corpus.isHex c = true ∨ c = '-' := by
    intro p hp c hc
    simp only [uuidShape, List.mem_append, List.mem_replicate, List.mem_singleton] at hp
    obtain rfl | rfl : p = Corpus.isHex ∨ p = (· == '-') := by tauto
    · exact Or.inl hc
    · exact Or.inr (beq_iff_eq.mp hc)
  exact Text.forall_of_zipWith h.1 hshape h.2

theorem printable_uuid {c : Char} (h : Corpus.isHex c = true ∨ c = '-') :
    Text.isSpace c = false ∧ 33 ≤ c.toNat ∧ c.toNat ≠ 127 := by
  rcases h with h | rfl
  · simp only [Corpus.isHex, Bool.or_eq_true, Bool.and_eq_true, decide_eq_true_eq, Char.le_def,
      UInt32.le_iff_toNat_le] at h
    simp only [Text.isSpace, Bool.or_eq_false_iff, Bool.and_eq_false_iff, decide_eq_false_iff_not,
      beq_eq_false_iff_ne]
    have hnat : c.val.toNat = c.toNat := rfl
    have h97 : ('a' : Char).val.toNat = 97 := rfl
    have h102 : ('f' : Char).val.toNat = 102 := rfl
    have h48 : ('0' : Char).val.toNat = 48 := rfl
    have h57 : ('9' : Char).val.toNat = 57 := rfl
    omega
  · decide

/-- the key a recompile is filed under -/
theorem cleanIdempotencyKey_recompile {id : Text} (h : isUuid id = true) :
    cleanIdempotencyKey ("recompile:".toList ++ id) = .ok ("recompile:".toList ++ id) := by
  have hlen : id.length = 36 := beq_iff_eq.mp ((Bool.and_eq_true _ _).mp h).1
  have hword : ∀ c ∈ "recompile:".toList,
      Text.isSpace c = false ∧ 33 ≤ c.toNat ∧ c.toNat ≠ 127 := by decide
  have hchar : ∀ c ∈ "recompile:".toList ++ id,
      Text.isSpace c = false ∧ 33 ≤ c.toNat ∧ c.toNat ≠ 127 := by
    intro c hc
    rcases List.mem_append.mp hc with hc | hc
    · exact hword c hc
    · exact printable_uuid (uuid_char h c hc)
  have hstrip : Text.strip ("recompile:".toList ++ id) = "recompile:".toList ++ id :=
    Text.strip_eq_self_of_all fun c hc => (hchar c hc).1
  have hany : ("recompile:".toList ++ id).any (fun c => c.toNat < 33 || c.toNat == 127) = false := by
    rw [List.any_eq_false]
    intro c hc
    obtain ⟨-, h33, h127⟩ := hchar c hc
    simp only [Bool.or_eq_true, decide_eq_true_eq, beq_iff_eq, not_or]
    exact ⟨Nat.not_lt.mpr h33, h127⟩
  have hshort : tooLong MAX_IDEMPOTENCY_KEY_CHARS ("recompile:".toList ++ id) = .ok () := by
    rw [tooLong_eq_ok, List.length_append, hlen]
    decide
  show (tooLong MAX_IDEMPOTENCY_KEY_CHARS ("recompile:".toList ++ id)).bind _ = _
  rw [hshort]
  show (if ((Text.strip ("recompile:".toList ++ id)).isEmpty || _) = true then _ else _) = _
  rw [hstrip, hany]
  rfl

theorem Filed.actor {e : Envelope} {xs : List ExtractedArtifact} {text : Text}
    (h : Filed R F withoutCapability e xs text) :
    Actor.validate ⟨e.actor.subject, e.actor.subject⟩ = .ok ⟨e.actor.subject, e.actor.subject⟩ := by
  obtain ⟨raw, hraw⟩ := h.accepted
  obtain ⟨hsubject, -⟩ := Envelope.of_validate R _ hraw
  rw [Actor.validate, cleanIdentity_idem hsubject]
  rfl

theorem Filed.intent {e : Envelope} {xs : List ExtractedArtifact} {text : Text}
    (h : Filed R F withoutCapability e xs text) : intentOf (frontmatter F e xs) = .ok e.intent := by
  obtain ⟨raw, hraw⟩ := h.accepted
  obtain ⟨-, -, -, hintent, -⟩ := Envelope.of_validate R _ hraw
  exact (intentOf_frontmatter e xs).trans hintent

theorem Filed.origin {e : Envelope} {xs : List ExtractedArtifact} {text : Text}
    (h : Filed R F withoutCapability e xs text) (hk : Recoverable R withoutCapability e) :
    originOf R F withoutCapability (frontmatter F e xs) = .ok e.origin := by
  obtain ⟨raw, hraw⟩ := h.accepted
  obtain ⟨-, ⟨o, ho⟩, -⟩ := Envelope.of_validate R _ hraw
  exact (originOf_frontmatter h.faithful).trans ((Origin.validate_again R _ ho).mpr hk.origin)

theorem provenanceOf_frontmatter {e : Envelope} {xs : List ExtractedArtifact} {text : Text}
    (h : Filed R F withoutCapability e xs text) (hk : Recoverable R withoutCapability e) :
    provenanceOf R F withoutCapability (frontmatter F e xs) = .ok e.origin := by
  have hsubject : (frontmatter F e xs).get "submitted_by" = .str e.actor.subject := get_field e xs rfl
  rw [provenanceOf, h.origin hk]
  show (Actor.validate _).bind _ = _
  rw [hsubject, orEmpty_str, h.actor]
  show (intentOf (frontmatter F e xs)).map _ = _
  rw [h.intent]
  rfl

/-- every entry of a page is in order -/
theorem validateArtifacts_frontmatter {e : Envelope} {xs : List ExtractedArtifact} {text : Text}
    (h : Filed R F withoutCapability e xs text) (hk : Recoverable R withoutCapability e) :
    validateArtifacts R F withoutCapability ((frontmatter F e xs).get "artifacts") = .ok () := by
  have hartifacts : (frontmatter F e xs).get "artifacts" = .list (xs.map ExtractedArtifact.dump) :=
    get_field e xs rfl
  have hall : listOf (validateArtifact R F withoutCapability) (xs.map ExtractedArtifact.dump) =
      .ok (xs.map fun _ => ()) := by
    refine listOf_map xs fun x hx => ?_
    obtain ⟨hmem, a, ha⟩ := h.cleaned hx
    exact validateArtifact_dump h.faithful.integer (h.digest hx) (mediaType_not_blank ha)
      ((ArtifactRef.clean_again R _ h.latin.lower_media ha).mpr (hk.artifacts _ hmem))
  rw [hartifacts]
  obtain ⟨x, xs', rfl⟩ := List.exists_cons_of_ne_nil h.nonempty
  show (listOf (validateArtifact R F withoutCapability) ((x :: xs').map ExtractedArtifact.dump)).map _ = _
  rw [hall]
  rfl

theorem sourceBody_blank (e : Envelope) {xs : List ExtractedArtifact} (h : xs ≠ []) :
    Text.isBlank ('\n' :: sourceBody e xs) = false := by
  have hhash : Text.isBlank "# ".toList = false := by decide
  show (Text.isSpace '\n' && Text.isBlank (sourceBody e xs)) = false
  unfold sourceBody
  rw [List.append_assoc, Text.isBlank_append, hhash]
  rfl

/-- the page of a recoverable capture passes every check -/
theorem parseSource_page {e : Envelope} {xs : List ExtractedArtifact} {text : Text}
    (h : Filed R F withoutCapability e xs text) (hk : Recoverable R withoutCapability e) :
    parseSource R F withoutCapability (sourcePath F e) text =
      .ok ⟨sourcePath F e, e.audience, headingOf e.origin.title, e.origin.capturedAt,
        '\n' :: sourceBody e xs, text, (text.map Char.utf8Size).sum⟩ := by
  obtain ⟨raw, hraw⟩ := h.accepted
  obtain ⟨-, -, -, -, ⟨w, haudience⟩, -⟩ := Envelope.of_validate R _ hraw
  obtain ⟨hpath, hyear, hmonth, hid⟩ :=
    sourcePath_parts h.latin h.isUuid h.faithful.calendar.1 h.faithful.calendar.2
  have htype : (frontmatter F e xs).get "type" = .str "source".toList := get_field e xs rfl
  have hident : (frontmatter F e xs).get "id" = .str e.captureId := get_field e xs rfl
  have hacl : aclOf ((frontmatter F e xs).get "acl") = .ok e.audience := by
    rw [get_field e xs rfl]
    exact aclOf_audience haudience
  rw [parseSource, splitFrontmatter_page h.faithful h.rendered]
  dsimp only
  rw [hpath, htype, hasFields_frontmatter, if_neg (by decide), if_neg (by decide), checkSource, hident,
    orEmpty_str, hid, sourceBody_blank e h.nonempty, if_neg (by simp), provenanceOf_frontmatter h hk]
  dsimp only
  rw [hyear, hmonth, if_neg (by simp), validateArtifacts_frontmatter h hk]
  simp only [Except.bind]
  rw [if_neg (not_not.mpr (h.heading_iff.mpr hk.title)), hacl]
  rfl

/-- and is filed again as it was -/
theorem sourceEnvelope_page {e : Envelope} {xs : List ExtractedArtifact} {text : Text}
    (h : Filed R F withoutCapability e xs text) (hk : Recoverable R withoutCapability e)
    {source : SourceDocument} (htext : source.text = text) (hacl : source.acl = e.audience) :
    sourceEnvelope R F withoutCapability source =
      .ok ⟨e.captureId, "recompile:".toList ++ e.captureId, ⟨e.actor.subject, e.actor.subject⟩, e.audience,
        e.origin, e.artifacts, e.intent⟩ := by
  obtain ⟨raw, hraw⟩ := h.accepted
  obtain ⟨-, -, -, -, ⟨w, haudience⟩, hbounded⟩ := Envelope.of_validate R _ hraw
  have hartifacts : (itemsOf ((frontmatter F e xs).get "artifacts")).bind
      (listOf (sourceArtifact R F withoutCapability)) = .ok e.artifacts := by
    rw [get_field e xs rfl, ← (renderSource_eq_ok h.rendered).1]
    show listOf (sourceArtifact R F withoutCapability) (xs.map ExtractedArtifact.dump) = _
    exact listOf_map xs fun x hx => (h.sourceArtifact_iff hx).mpr (hk.artifacts _ (h.cleaned hx).1)
  have hident : (frontmatter F e xs).get "id" = .str e.captureId := get_field e xs rfl
  have hsubject : (frontmatter F e xs).get "submitted_by" = .str e.actor.subject := get_field e xs rfl
  have hclean : Envelope.clean ⟨e.captureId, "recompile:".toList ++ e.captureId,
      ⟨e.actor.subject, e.actor.subject⟩, e.audience, e.origin, e.artifacts, e.intent⟩ =
      .ok ⟨e.captureId, "recompile:".toList ++ e.captureId, ⟨e.actor.subject, e.actor.subject⟩, e.audience,
        e.origin, e.artifacts, e.intent⟩ :=
    Envelope.clean_iff.mpr ⟨cleanIdempotencyKey_recompile h.isUuid, validAudience_idem haudience, hbounded,
      rfl⟩
  rw [sourceEnvelope, htext, splitFrontmatter_page h.faithful h.rendered]
  dsimp only
  rw [hartifacts, hident, hsubject]
  show (orError _ (F.uuid e.captureId)).bind _ = _
  rw [h.faithful.uuid]
  show (Actor.validate ⟨e.actor.subject, e.actor.subject⟩).bind _ = _
  rw [h.actor]
  show (originOf R F withoutCapability (frontmatter F e xs)).bind _ = _
  rw [h.origin hk]
  show (intentOf (frontmatter F e xs)).bind _ = _
  rw [h.intent, hacl]
  exact hclean

theorem carried_of_recoverable {e : Envelope} {xs : List ExtractedArtifact} {text : Text}
    (h : Filed R F withoutCapability e xs text) (hk : Recoverable R withoutCapability e) :
    Carried R F withoutCapability e xs text :=
  ⟨_, _, parseSource_page h hk, rfl, rfl, sourceEnvelope_page h hk rfl rfl, rfl, rfl, rfl, rfl, rfl⟩

end

/-- an accepted capture is carried by its page exactly when it is recoverable -/
theorem carried_iff {R : Runtime} {F : Formats} {U : Provenance.Urls} {e : Envelope}
    {xs : List ExtractedArtifact} {text : Text}
    (h : Filed R F (Provenance.withoutCapability R U) e xs text) :
    Carried R F (Provenance.withoutCapability R U) e xs text ↔
      Recoverable R (Provenance.withoutCapability R U) e :=
  ⟨recoverable_of_carried h, carried_of_recoverable h⟩

/-! ## two notes -/

def noteId : Text := "0b8f6f0e-2f4c-4c55-9a41-6a7f7b1c2d3e".toList
def noteText : Text := "The plan is kept.\n".toList
def noteDigest : Text := List.replicate 64 'a'
def noteDay : Text := "2026-01-01T00:00:00+00:00".toList

def noteArtifact : ArtifactRef :=
  ⟨contentRef noteDigest, noteDigest, 18, "text/markdown".toList, none, none⟩

theorem isDigest_noteDigest : isDigest noteDigest = true := by
  have ha : isHex 'a' = true := by decide
  rw [isDigest, noteDigest, List.length_replicate, List.all_replicate, ha]
  rfl

def noteExtracted : ExtractedArtifact where
  original := noteArtifact
  readableSha256 := noteDigest
  text := noteText
  mediaType := "text/markdown".toList
  extractor := "utf8".toList
  extractorVersion := ['1']
  ocrPages := []
  digest := isDigest_noteDigest
  named := by decide
  pages := ⟨List.nodup_nil, fun _ h => absurd h List.not_mem_nil⟩

def note (title : Text) : Envelope :=
  ⟨noteId, "note-1".toList, ⟨"dana".toList, "Dana".toList⟩, none,
    ⟨.mcp, 1767225600000000, none, some title, none, [], none⟩, [noteArtifact], ⟨none, none⟩⟩

/-- the front matter of the note, its title as `scalar` -/
def noteYaml (scalar : Text) : Text :=
  "id: ".toList ++ noteId ++ "\ntype: source\nsubmitted_by: dana\ncaptured_at: '".toList ++ noteDay ++
    "'\norigin: mcp\ntitle: ".toList ++ scalar ++ "\nparticipants: []\nartifacts:\n- sha256: ".toList ++
    noteDigest ++ ("\n  bytes: 18\n  media_type: text/markdown\n  original_name: null\n" ++
      "  source_url: null\n  readable_sha256: ").toList ++ noteDigest ++
    "\n  extractor: utf8\n  extractor_version: '1'\n  ocr_pages: []".toList

/-- the metadata of the note -/
def noteFields (title : Text) : Dict :=
  [("id".toList, .str noteId), ("type".toList, .str "source".toList),
    ("submitted_by".toList, .str "dana".toList), ("captured_at".toList, .str noteDay),
    ("origin".toList, .str "mcp".toList), ("title".toList, .str title),
    ("participants".toList, .list []), ("artifacts".toList, .list [noteExtracted.dump])]

/-- what the formats come to on the note -/
def noteFormats (title scalar : Text) : Formats where
  isoformat := fun _ => noteDay
  jsonTime := fun _ => noteDay
  calendar := fun _ => (2026, 1)
  datetime := fun
    | .str t => if t = noteDay then some 1767225600000000 else none
    | _ => none
  occurred := fun _ => none
  integer := fun
    | .int n => some n
    | _ => none
  shown := fun _ => []
  uuid := some
  safeDump := fun _ => noteYaml scalar ++ ['\n']
  safeLoad := fun t => if t = noteYaml scalar then some (.dict (noteFields title)) else none

def noUrls : Provenance.Urls := ⟨fun _ => true, fun _ => true⟩

def notePage (title scalar : Text) : Text :=
  "---\n".toList ++ noteYaml scalar ++ "\n---\n\n".toList ++ sourceBody (note title) [noteExtracted]

theorem latin_ascii : Latin ascii := by
  refine ⟨fun m hm => ?_, by decide +kernel⟩
  unfold SUPPORTED_MEDIA_TYPES at hm
  iterate 9
    rcases List.mem_cons.mp hm with rfl | hm
    · exact of_literal (fun m => ascii.lower m = m) (by decide +kernel)
  exact absurd hm List.not_mem_nil

theorem yamlText_note (title scalar : Text) :
    yamlText (noteFormats title scalar) (note title) [noteExtracted] = noteYaml scalar := by
  have hblank : Text.isBlank "\n  extractor: utf8\n  extractor_version: '1'\n  ocr_pages: []".toList = false := by
    decide +kernel
  have hend : Text.rstrip "\n  extractor: utf8\n  extractor_version: '1'\n  ocr_pages: []".toList =
      "\n  extractor: utf8\n  extractor_version: '1'\n  ocr_pages: []".toList := by
    decide +kernel
  show Text.rstrip (noteYaml scalar ++ ['\n']) = noteYaml scalar
  rw [Text.rstrip_append_blank rfl]
  unfold noteYaml
  rw [Text.rstrip_append_of_ne hblank, hend]

theorem faithful_note {title scalar : Text} (hfence : Text.contains "\n---".toList (noteYaml scalar) = false) :
    Faithful (noteFormats title scalar) (note title) [noteExtracted] where
  yaml := by
    have hload : ∀ t, (noteFormats title scalar).safeLoad t =
        if t = noteYaml scalar then some (.dict (noteFields title)) else none := fun _ => rfl
    rw [hload, if_pos (yamlText_note title scalar)]
    rfl
  fence := by rwa [yamlText_note]
  captured := rfl
  occurred := nofun
  acquired := nofun
  calendar := by
    show 2026 < 10000 ∧ 1 ≤ 1 ∧ 1 ≤ 12
    decide
  integer := fun _ => rfl
  uuid := rfl

theorem renderSource_note {title scalar : Text} (hsize : ((notePage title scalar).map Char.utf8Size).sum ≤
    MAX_CAPTURE_RENDERED_SOURCE_BYTES) :
    renderSource (noteFormats title scalar) (note title) [noteExtracted] = .ok (notePage title scalar) := by
  have hsame : [noteExtracted].map (·.original) = (note title).artifacts := rfl
  have htext : "---\n".toList ++ yamlText (noteFormats title scalar) (note title) [noteExtracted] ++
      "\n---\n\n".toList ++ sourceBody (note title) [noteExtracted] = notePage title scalar := by
    rw [yamlText_note]
    rfl
  rw [renderSource, if_neg (not_not.mpr hsame), htext]
  exact if_neg (Nat.not_lt.mpr hsize)

theorem carried_plain : Recoverable ascii (Provenance.withoutCapability ascii noUrls) (note "Plan B".toList) ∧
    Carried ascii (noteFormats "Plan B".toList "Plan B".toList) (Provenance.withoutCapability ascii noUrls)
      (note "Plan B".toList) [noteExtracted] (notePage "Plan B".toList "Plan B".toList) := by
  have hpage : Text.contains "\n---".toList (noteYaml "Plan B".toList) = false ∧
      ((notePage "Plan B".toList "Plan B".toList).map Char.utf8Size).sum ≤
        MAX_CAPTURE_RENDERED_SOURCE_BYTES := by decide +kernel
  have hfiled : Filed ascii (noteFormats "Plan B".toList "Plan B".toList)
      (Provenance.withoutCapability ascii noUrls) (note "Plan B".toList) [noteExtracted]
      (notePage "Plan B".toList "Plan B".toList) :=
    ⟨latin_ascii, ⟨note "Plan B".toList, by decide +kernel⟩, by decide +kernel,
      faithful_note hpage.1, renderSource_note hpage.2⟩
  have hkept : Recoverable ascii (Provenance.withoutCapability ascii noUrls) (note "Plan B".toList) := by
    refine ⟨?_, ⟨by decide +kernel, nofun⟩, ?_⟩
    · intro t ht
      obtain rfl := Option.some.inj ht
      decide
    · intro a ha
      rw [List.mem_singleton.mp ha]
      exact ⟨by decide +kernel, rfl⟩
  exact ⟨hkept, (carried_iff hfiled).mpr hkept⟩

/-- a title with a line separator is accepted, and its page is refused -/
theorem not_carried : ¬∀ (R : Runtime) (F : Formats) (U : Provenance.Urls) (e : Envelope)
    (xs : List ExtractedArtifact) (text : Text), Filed R F (Provenance.withoutCapability R U) e xs text →
      Carried R F (Provenance.withoutCapability R U) e xs text := by
  intro h
  have hpage : Text.contains "\n---".toList (noteYaml "'Plan\u2028  B'".toList) = false ∧
      ((notePage "Plan\u2028B".toList "'Plan\u2028  B'".toList).map Char.utf8Size).sum ≤
        MAX_CAPTURE_RENDERED_SOURCE_BYTES := by decide +kernel
  have hfiled : Filed ascii (noteFormats "Plan\u2028B".toList "'Plan\u2028  B'".toList)
      (Provenance.withoutCapability ascii noUrls) (note "Plan\u2028B".toList) [noteExtracted]
      (notePage "Plan\u2028B".toList "'Plan\u2028  B'".toList) :=
    ⟨latin_ascii, ⟨note "Plan\u2028B".toList, by decide +kernel⟩, by decide +kernel,
      faithful_note hpage.1, renderSource_note hpage.2⟩
  have hkept := recoverable_of_carried hfiled (h _ _ _ _ _ _ hfiled)
  have hplain := hkept.title _ rfl '\u2028' (by decide)
  exact absurd hplain (by decide)

end Sources
