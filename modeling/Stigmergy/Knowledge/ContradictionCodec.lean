import Mathlib.Data.List.Forall2
import Mathlib.Data.List.Pairwise
import Stigmergy.Lib.Checks
import Stigmergy.Knowledge.ContradictionJson

/-!
# The codec of contradiction blocks

What `parseAll` accepts, and what `append` and `remove` make of it.

* `Listed`          a text cut into blocks and gaps without markers;
* `parseAll_iff`    exactly such texts are accepted, with the records of their blocks;
* `codec_iff`       an appended record is listed exactly when it is valid and its prose holds no marker.
-/

set_option linter.unusedSectionVars false

namespace Contradictions

/-- `from_proposal`: the explanation on one line, under a fresh id -/
structure Proposal where
  pagePath : Text
  explanation : Text
  claims : List Claim
  sizes : (1 ≤ pagePath.length ∧ pagePath.length ≤ 500) ∧
    (1 ≤ explanation.length ∧ explanation.length ≤ 1000) ∧ 2 ≤ claims.length ∧ claims.length ≤ 10

def fromProposal (id : Text) (p : Proposal) : Contradiction := ⟨id, Text.oneLine p.explanation, p.claims⟩

/-! ## markers -/

def MARKERS : List Text := [START, DATA, END]

theorem marker_spec : ∀ p ∈ MARKERS, ∃ q, p = '<' :: q ∧ '<' ∉ q ∧ '\n' ∉ p ∧
    ∀ hl : p ≠ [], Text.isSpace (p.getLast hl) = false := by
  intro p hp
  simp only [MARKERS, List.mem_cons, List.not_mem_nil, or_false] at hp
  rcases hp with rfl | rfl | rfl
  · exact ⟨START.tail, by decide +kernel, by decide +kernel, by decide +kernel, by decide +kernel⟩
  · exact ⟨DATA.tail, by decide +kernel, by decide +kernel, by decide +kernel, by decide +kernel⟩
  · exact ⟨END.tail, by decide +kernel, by decide +kernel, by decide +kernel, by decide +kernel⟩

theorem marker_apart : ∀ p ∈ MARKERS, ∀ q ∈ MARKERS, p ≠ q → ∀ t, ¬p <+: q ++ t := by
  have hdiff : ∀ p ∈ MARKERS, ∀ q ∈ MARKERS, p ≠ q → p.take 30 ≠ q.take 30 ∧ 30 ≤ p.length ∧ 30 ≤ q.length := by
    decide +kernel
  intro p hp q hq hne t h
  obtain ⟨htake, hlp, hlq⟩ := hdiff p hp q hq hne
  refine htake ?_
  obtain ⟨u, hu⟩ := h
  have := congrArg (List.take 30) hu
  rw [List.take_append_of_le_length hlp, List.take_append_of_le_length hlq] at this
  exact this

/-- a comment holds one marker, its own -/
theorem count_comment {p q body : Text} (hp : p ∈ MARKERS) (hq : q ∈ MARKERS) (hb : '<' ∉ body) (t : Text) :
    Text.count p (q ++ (body ++ t)) = (if p = q then 1 else 0) + Text.count p t := by
  obtain ⟨u, rfl, hu, -⟩ := marker_spec p hp
  obtain ⟨v, rfl, hv, -⟩ := marker_spec q hq
  rw [List.cons_append, Text.count_cons]
  by_cases h : '<' :: u = '<' :: v
  · obtain rfl := (List.cons.inj h).2
    have hpre : ('<' :: u).isPrefixOf ('<' :: (u ++ (body ++ t))) = true :=
      List.isPrefixOf_iff_prefix.mpr (List.prefix_append ('<' :: u) (body ++ t))
    have hdrop : (u ++ (body ++ t)).drop (('<' :: u).length - 1) = body ++ t := List.drop_left
    rw [hpre, if_pos rfl, if_pos rfl, hdrop, Text.count_append_of_notMem hb, Nat.add_comm]
  · have hpre : ('<' :: u).isPrefixOf ('<' :: (v ++ (body ++ t))) = false := by
      rw [Bool.eq_false_iff, ne_eq, List.isPrefixOf_iff_prefix]
      exact marker_apart _ hp _ hq h (body ++ t)
    rw [hpre, if_neg Bool.false_ne_true, if_neg h, Text.count_append_of_notMem hv,
      Text.count_append_of_notMem hb, Nat.zero_add]

/-! ## characters of a block -/

theorem hex_char {c : Char} (h : isHex c = true) : isIdChar c = true ∧ c ≠ '<' := by
  simp only [isHex, isIdChar, Bool.or_eq_true, Bool.and_eq_true, decide_eq_true_eq] at h ⊢
  refine ⟨?_, ?_⟩
  · tauto
  · rintro rfl
    revert h
    decide

theorem id_chars {id : Text} (h : isContradictionId id = true) : ∃ hexes, id = "con_".toList ++ hexes ∧
    hexes ≠ [] ∧ (∀ c ∈ hexes, isIdChar c = true) ∧ '<' ∉ id := by
  rw [isContradictionId, Bool.and_eq_true, beq_iff_eq] at h
  obtain ⟨hlen, hall⟩ := h
  obtain ⟨shape, hshape, hsize, htests⟩ : ∃ shape : List (Char → Bool),
      idShape = "con_".toList.map (fun c d => d == c) ++ shape ∧ shape.length = 36 ∧
        ∀ p ∈ shape, ∀ c, p c = true → isIdChar c = true := by
    refine ⟨idShape.drop 4, rfl, rfl, fun p hp c hc => ?_⟩
    have hdrop : idShape.drop 4 = List.replicate 8 isHex ++ [(· == '-')] ++ List.replicate 4 isHex ++
        [(· == '-'), (· == '4')] ++ List.replicate 3 isHex ++
        [(· == '-'), fun c => "89ab".toList.contains c] ++ List.replicate 3 isHex ++ [(· == '-')] ++
        List.replicate 12 isHex := rfl
    rw [hdrop] at hp
    simp only [List.mem_append, List.mem_replicate, List.mem_cons, List.not_mem_nil, or_false] at hp
    have hone : p = isHex ∨ p = (· == '-') ∨ p = (· == '4') ∨ p = fun c => "89ab".toList.contains c := by
      tauto
    rcases hone with rfl | rfl | rfl | rfl
    · exact (hex_char hc).1
    · rw [beq_iff_eq.mp hc]
      decide
    · rw [beq_iff_eq.mp hc]
      decide
    · have hmem : ∀ c ∈ "89ab".toList, isIdChar c = true := by decide
      exact hmem c (List.contains_iff_mem.mp hc)
  have hlen' : id.length = 40 := by
    rw [hlen, hshape, List.length_append, hsize]
    rfl
  have htake : (id.take 4).length = 4 := by
    rw [List.length_take, hlen']
    rfl
  rw [hshape, ← List.take_append_drop 4 id, List.zipWith_append (by rw [htake]; rfl), List.all_append,
    Bool.and_eq_true] at hall
  have hfront : id.take 4 = "con_".toList := Text.eq_of_zipWith (by rw [htake]; rfl) hall.1
  have hrest : ∀ c ∈ id.drop 4, isIdChar c = true :=
    Text.forall_of_zipWith (by rw [List.length_drop, hlen', hsize]) htests hall.2
  refine ⟨id.drop 4, by rw [← hfront, List.take_append_drop], fun hnil => ?_, hrest, fun hlt => ?_⟩
  · have := congrArg List.length hnil
    rw [List.length_drop, hlen'] at this
    exact absurd this (by decide)
  · rw [← List.take_append_drop 4 id, hfront] at hlt
    rcases List.mem_append.mp hlt with hlt | hlt
    · exact absurd hlt (by decide)
    · exact absurd (hrest '<' hlt) (by decide)

theorem data_char {c : Char} (h : isDataChar c = true) : c ≠ '<' ∧ c ≠ ' ' := by
  constructor
  · rintro rfl
    revert h
    decide
  · rintro rfl
    revert h
    decide

/-! ## blocks -/

section
variable {C : Codec}

def prose (r : Contradiction) : Text := Text.unlines (visibleLines r)

theorem block_eq (r : Contradiction) : block C r = openLine r.contradictionId ++ '\n' ::
    (prose r ++ '\n' :: (dataLine C r ++ '\n' :: closeLine r.contradictionId)) := by
  have hne : visibleLines r ≠ [] := List.cons_ne_nil _ _
  rw [block, List.append_assoc, Text.unlines_append (List.cons_ne_nil _ _) (List.append_ne_nil_of_left_ne_nil hne _),
    Text.unlines_append hne (List.cons_ne_nil _ _), Text.unlines_cons (List.cons_ne_nil _ _),
    Text.unlines_singleton, Text.unlines_singleton]
  rfl

theorem count_newline {p : Text} (hp : p ∈ MARKERS) (a b : Text) :
    Text.count p (a ++ '\n' :: b) = Text.count p a + Text.count p b := by
  obtain ⟨q, rfl, -, hn, -⟩ := marker_spec p hp
  rw [Text.count_append_cons (List.cons_ne_nil _ _) fun h => hn (List.mem_cons_of_mem _ h)]
  congr 1

theorem close_char : '<' ∉ CLOSE := by decide

/-- each marker is in a block once, and as often as the prose holds it -/
theorem count_block {p : Text} (hp : p ∈ MARKERS) {r : Contradiction}
    (hid : isContradictionId r.contradictionId = true) (rest : Text) :
    Text.count p (block C r ++ rest) = 1 + Text.count p (prose r) + Text.count p rest := by
  obtain ⟨-, -, -, -, hlt⟩ := id_chars hid
  have hidc : '<' ∉ r.contradictionId ++ CLOSE := fun h =>
    (List.mem_append.mp h).elim hlt close_char
  have hdata : '<' ∉ C.encode r ++ CLOSE := fun h => (List.mem_append.mp h).elim
    (fun h => (data_char ((C.encode_chars r).2 _ h)).1 rfl) close_char
  have hopen : Text.count p (openLine r.contradictionId) = if p = START then 1 else 0 := by
    have := count_comment hp (List.mem_cons_self : START ∈ MARKERS) hidc []
    rw [List.append_nil] at this
    rw [openLine, List.append_assoc]
    exact this
  have hmid : Text.count p (dataLine C r) = if p = DATA then 1 else 0 := by
    have := count_comment hp (List.mem_cons_of_mem _ List.mem_cons_self : DATA ∈ MARKERS) hdata []
    rw [List.append_nil] at this
    rw [dataLine, List.append_assoc]
    exact this
  have hend : Text.count p (closeLine r.contradictionId ++ rest) =
      (if p = END then 1 else 0) + Text.count p rest := by
    have := count_comment hp
      (List.mem_cons_of_mem _ (List.mem_cons_of_mem _ List.mem_cons_self) : END ∈ MARKERS) hidc rest
    rw [closeLine, List.append_assoc, List.append_assoc]
    rw [List.append_assoc] at this
    exact this
  have hone : ∀ p ∈ MARKERS, (if p = START then 1 else 0) +
      ((if p = DATA then 1 else 0) + (if p = END then 1 else 0)) = 1 := by decide +kernel
  have hone := hone p hp
  rw [block_eq]
  simp only [List.append_assoc, List.cons_append]
  rw [count_newline hp, count_newline hp, count_newline hp, hopen, hmid, hend]
  omega

theorem takeWhile_append_stop {q : Char → Bool} {x : Text} (hx : ∀ c ∈ x, q c = true) {c : Char}
    (hc : q c = false) (t : Text) : (x ++ c :: t).takeWhile q = x := by
  rw [List.takeWhile_append_of_pos hx, List.takeWhile_cons_of_neg (by rw [hc]; exact Bool.false_ne_true),
    List.append_nil]

theorem startsWith_append (p t : Text) : Text.startsWith p (p ++ t) = true :=
  List.isPrefixOf_iff_prefix.mpr (List.prefix_append p t)

theorem opensBlock_openLine {id : Text} (h : isContradictionId id = true) (t : Text) :
    opensBlock (openLine id ++ '\n' :: t) = some ((openLine id).length + 1, id) := by
  obtain ⟨hexes, rfl, hne, hchars, -⟩ := id_chars h
  have hshape : openLine ("con_".toList ++ hexes) ++ '\n' :: t =
      START ++ "con_".toList ++ (hexes ++ ' ' :: '-' :: '-' :: '>' :: '\n' :: t) := by
    rw [openLine]
    simp only [List.append_assoc]
    rfl
  have hdrop : (START ++ "con_".toList ++ (hexes ++ ' ' :: '-' :: '-' :: '>' :: '\n' :: t)).drop
      (START.length + 4) = hexes ++ ' ' :: '-' :: '-' :: '>' :: '\n' :: t :=
    List.drop_left' List.length_append
  have hafter : (START ++ "con_".toList ++ (hexes ++ ' ' :: '-' :: '-' :: '>' :: '\n' :: t)).drop
      (START.length + ("con_".toList ++ hexes).length) = ' ' :: '-' :: '-' :: '>' :: '\n' :: t := by
    rw [← List.append_assoc, ← List.length_append, ← List.append_assoc]
    exact List.drop_left
  have hempty : hexes.isEmpty = false := List.isEmpty_eq_false_iff.mpr hne
  rw [hshape, opensBlock, if_pos (startsWith_append _ _), hdrop]
  dsimp only
  rw [takeWhile_append_stop hchars (by decide), hafter, hempty]
  show some _ = some _
  have hclose : CLOSE.length = 4 := rfl
  congr 2
  rw [openLine]
  simp only [List.length_append, hclose]

theorem closesBlock_dataLine {r : Contradiction} (rest : Text) :
    closesBlock r.contradictionId (dataLine C r ++ '\n' :: (closeLine r.contradictionId ++ rest)) =
      some ((dataLine C r).length + 1 + (closeLine r.contradictionId).length, C.encode r) := by
  obtain ⟨hne, hchars⟩ := C.encode_chars r
  have hempty : (C.encode r).isEmpty = false := List.isEmpty_eq_false_iff.mpr hne
  have hshape : dataLine C r ++ '\n' :: (closeLine r.contradictionId ++ rest) =
      DATA ++ (C.encode r ++ ' ' :: '-' :: '-' :: '>' :: '\n' :: (closeLine r.contradictionId ++ rest)) := by
    rw [dataLine]
    simp only [List.append_assoc]
    rfl
  have hafter : (DATA ++ (C.encode r ++
      ' ' :: '-' :: '-' :: '>' :: '\n' :: (closeLine r.contradictionId ++ rest))).drop
      (DATA.length + (C.encode r).length) =
      (CLOSE ++ '\n' :: closeLine r.contradictionId) ++ rest := by
    rw [← List.append_assoc, ← List.length_append, List.drop_left, List.append_assoc]
    rfl
  rw [hshape, closesBlock, if_pos (startsWith_append _ _), List.drop_left]
  dsimp only
  rw [takeWhile_append_stop hchars (by decide), hafter, hempty, startsWith_append]
  show some _ = some _
  congr 2
  rw [dataLine, List.length_append, List.length_append, List.length_append, List.length_cons]
  omega

theorem closesBlock_none {id t : Text} (h : ¬DATA <+: t) : closesBlock id t = none :=
  if_neg fun hs => h (List.isPrefixOf_iff_prefix.mp hs)

theorem upToClose_gap {id gap t : Text} {n : ℕ} {data : Text}
    (h : ∀ s, s <:+ gap → s ≠ [] → ¬DATA <+: s ++ t) (ht : t ≠ []) (hc : closesBlock id t = some (n, data)) :
    upToClose id (gap ++ t) = some (gap.length + n, data) := by
  induction gap with
  | nil =>
    obtain ⟨c, t, rfl⟩ := List.exists_cons_of_ne_nil ht
    rw [List.nil_append, upToClose, hc, List.length_nil, Nat.zero_add]
  | cons c gap ih =>
    have hnone : closesBlock id (c :: (gap ++ t)) = none :=
      closesBlock_none (h (c :: gap) List.suffix_rfl (List.cons_ne_nil c gap))
    rw [List.cons_append, upToClose, hnone, ih fun s hs => h s (hs.trans (List.suffix_cons c gap))]
    rw [List.length_cons, Nat.add_right_comm]
    rfl

/-- the pattern takes a block as a whole when its prose holds no marker of data -/
theorem blockAt_block {r : Contradiction} (hid : isContradictionId r.contradictionId = true)
    (hdata : Text.count DATA (prose r) = 0) (rest : Text) :
    blockAt (block C r ++ rest) = some ((block C r).length, r.contradictionId, C.encode r) := by
  have hmem : DATA ∈ MARKERS := List.mem_cons_of_mem _ List.mem_cons_self
  obtain ⟨q, hq, hlt, hn, -⟩ := marker_spec DATA hmem
  have hshape : block C r ++ rest = openLine r.contradictionId ++ '\n' :: ((prose r ++ ['\n']) ++
      (dataLine C r ++ '\n' :: (closeLine r.contradictionId ++ rest))) := by
    rw [block_eq]
    simp only [List.append_assoc, List.cons_append, List.nil_append]
  have hzero : Text.count DATA (prose r ++ ['\n']) = 0 := by
    rw [count_newline hmem, hdata]
    rfl
  have hgap : ∀ s, s <:+ prose r ++ ['\n'] → s ≠ [] →
      ¬DATA <+: s ++ (dataLine C r ++ '\n' :: (closeLine r.contradictionId ++ rest)) := by
    intro s hs hne hpre
    refine Text.not_prefix_of_count (by rw [hq]; exact List.cons_ne_nil _ _) hzero hs ?_
    refine Text.prefix_of_append_cons (c := '<') hne (by rw [hq]; exact hlt) (b := (dataLine C r).tail ++
      '\n' :: (closeLine r.contradictionId ++ rest)) ?_
    exact hpre
  rw [hshape, blockAt, opensBlock_openLine hid]
  dsimp only
  have hdrop : (openLine r.contradictionId ++ '\n' :: ((prose r ++ ['\n']) ++
      (dataLine C r ++ '\n' :: (closeLine r.contradictionId ++ rest)))).drop
      ((openLine r.contradictionId).length + 1) = (prose r ++ ['\n']) ++
      (dataLine C r ++ '\n' :: (closeLine r.contradictionId ++ rest)) := by
    rw [List.append_cons]
    exact List.drop_left' List.length_append
  rw [hdrop, upToClose_gap hgap (by exact List.cons_ne_nil _ _) (closesBlock_dataLine rest)]
  have hlen : (block C r).length = (openLine r.contradictionId).length + 1 + ((prose r ++ ['\n']).length +
      ((dataLine C r).length + 1 + (closeLine r.contradictionId).length)) := by
    rw [block_eq]
    simp only [List.length_append, List.length_cons, List.length_nil]
    omega
  rw [hlen]
  rfl

/-! ## texts that are accepted -/

def Bare (t : Text) : Prop := ∀ p ∈ MARKERS, Text.count p t = 0

/-- a record whose block is found again -/
structure Sound (r : Contradiction) : Prop where
  valid : validate r = .ok ()
  prose : Bare (prose r)

theorem validate_eq_ok {r : Contradiction} (h : validate r = .ok ()) :
    isContradictionId r.contradictionId = true := by
  rw [validate] at h
  split at h
  · exact nomatch h
  · next hid => simpa using hid

/-- a text from some place on, cut into gaps without markers and blocks -/
inductive Listed (C : Codec) : ℕ → Text → List LocatedContradiction → Prop
  | last {pos : ℕ} {gap : Text} : Bare gap → Listed C pos gap []
  | found {pos : ℕ} {gap : Text} {r : Contradiction} {rest : Text} {items : List LocatedContradiction} :
    Bare gap → Sound r → Listed C (pos + gap.length + (block C r).length) rest items →
    Listed C pos (gap ++ (block C r ++ rest))
      (⟨r, pos + gap.length, pos + gap.length + (block C r).length, block C r⟩ :: items)

theorem block_head (r : Contradiction) (rest : Text) : ∃ t, block C r ++ rest = '<' :: t := by
  rw [block_eq]
  exact ⟨_, rfl⟩

theorem count_gap {p : Text} (hp : p ∈ MARKERS) (gap : Text) (r : Contradiction) (rest : Text) :
    Text.count p (gap ++ (block C r ++ rest)) = Text.count p gap + Text.count p (block C r ++ rest) := by
  obtain ⟨q, rfl, hq, -⟩ := marker_spec p hp
  obtain ⟨t, ht⟩ := block_head (C := C) r rest
  rw [ht]
  exact Text.count_append_cons (List.cons_ne_nil _ _) hq

/-- a listed text has as many of each marker as blocks -/
theorem Listed.count {pos : ℕ} {t : Text} {items : List LocatedContradiction} (h : Listed C pos t items)
    {p : Text} (hp : p ∈ MARKERS) : Text.count p t = items.length := by
  induction h with
  | last hb => exact hb p hp
  | found hb hs _ ih =>
    rw [count_gap hp, hb p hp, count_block hp (validate_eq_ok hs.valid), hs.prose p hp, ih,
      List.length_cons]
    omega

theorem blockAt_none {t : Text} (h : ¬START <+: t) : blockAt t = none := by
  have hopen : opensBlock t = none := by
    refine if_neg fun hs => h ?_
    exact (List.prefix_append START _).trans (List.isPrefixOf_iff_prefix.mp hs)
  rw [blockAt, hopen]

/-- the blocks of a listed text are found, and nothing else -/
theorem Listed.located {pos : ℕ} {t : Text} {items : List LocatedContradiction} (h : Listed C pos t items) :
    Scan.locatedFrom blockAt pos 0 t =
      items.map fun i => (i.start, i.stop, i.record.contradictionId, C.encode i.record) := by
  have hstart : START ∈ MARKERS := List.mem_cons_self
  obtain ⟨q, hq, hlt, -⟩ := marker_spec START hstart
  have hne : START ≠ [] := by
    rw [hq]
    exact List.cons_ne_nil _ _
  induction h with
  | @last pos gap hb =>
    have hgap : Scan.locatedFrom blockAt pos 0 (gap ++ []) = _ :=
      Scan.locatedFrom_gap pos fun s hs _ => blockAt_none (by
        rw [List.append_nil]
        exact Text.not_prefix_of_count hne (hb START hstart) hs)
    rw [List.append_nil] at hgap
    rw [hgap]
    rfl
  | @found pos gap r rest items hb hs _ ih =>
    obtain ⟨u, hu⟩ := block_head (C := C) r rest
    have hat := blockAt_block (C := C) (validate_eq_ok hs.valid)
      (hs.prose DATA (List.mem_cons_of_mem _ List.mem_cons_self)) rest
    obtain ⟨n, hn⟩ : ∃ n, (block C r).length = n + 1 := by
      rw [block_eq]
      exact ⟨_, rfl⟩
    have hfit : n + 1 ≤ (block C r ++ rest).length := by
      rw [List.length_append, hn]
      omega
    rw [Scan.locatedFrom_gap pos fun s hs hnil => blockAt_none fun hpre =>
      Text.not_prefix_of_count hne (hb START hstart) hs
        (Text.prefix_of_append_cons hnil (by rw [hq]; exact hlt) (hu ▸ hpre)),
      Scan.locatedFrom_match _ (hn ▸ hat) hfit, ← hn, List.drop_left, Nat.add_assoc _ n 1, ← hn, ih]
    rfl

theorem decode_encode {r : Contradiction} (h : validate r = .ok ()) : decode C (C.encode r) = .ok r := by
  rw [decode, C.decode_encode]
  dsimp only
  rw [h]

theorem locate_eq_ok {text : Text} {found : ℕ × ℕ × Text × Text} {item : LocatedContradiction} :
    locate C text found = .ok item ↔ ∃ r, decode C found.2.2.2 = .ok r ∧ r.contradictionId = found.2.2.1 ∧
      (text.drop found.1).take (found.2.1 - found.1) = block C r ∧
        item = ⟨r, found.1, found.2.1, block C r⟩ := by
  rw [locate]
  cases hd : decode C found.2.2.2 with
  | error e => exact ⟨nofun, fun ⟨_, hr, _⟩ => nomatch hr⟩
  | ok r =>
    dsimp only
    constructor
    · intro h
      split at h
      · exact nomatch h
      · next hid =>
        split at h
        · exact nomatch h
        · next hblock =>
          refine ⟨r, rfl, not_not.mp hid, not_not.mp hblock, ?_⟩
          rw [← Except.ok.inj h, not_not.mp hblock]
    · rintro ⟨r', hr, hid, hblock, rfl⟩
      obtain rfl := Except.ok.inj hr
      rw [if_neg (not_not.mpr hid), if_neg (not_not.mpr hblock), hblock]

theorem drop_eq_of_append {whole gap rest : Text} {pos : ℕ} (h : whole.drop pos = gap ++ rest) :
    whole.drop (pos + gap.length) = rest := by
  rw [← List.drop_drop, h, List.drop_left]

theorem Listed.mapM {whole t : Text} {pos : ℕ} {items : List LocatedContradiction} (h : Listed C pos t items)
    (hw : whole.drop pos = t) :
    (items.map fun i => (i.start, i.stop, i.record.contradictionId, C.encode i.record)).mapM
      (locate C whole) = .ok items := by
  induction h with
  | last _ => rfl
  | @found pos gap r rest items hb hs _ ih =>
    have hat := drop_eq_of_append hw
    have hfound : locate C whole (pos + gap.length, pos + gap.length + (block C r).length,
        r.contradictionId, C.encode r) =
        .ok ⟨r, pos + gap.length, pos + gap.length + (block C r).length, block C r⟩ := by
      refine locate_eq_ok.mpr ⟨r, decode_encode hs.valid, rfl, ?_, rfl⟩
      rw [hat, Nat.add_sub_cancel_left, List.take_left]
    rw [List.map_cons, List.mapM_cons, hfound]
    show (List.mapM (locate C whole) _).bind _ = _
    rw [ih (drop_eq_of_append hat)]
    rfl

theorem opensBlock_fits {t id : Text} {n : ℕ} (h : opensBlock t = some (n, id)) : n ≤ t.length := by
  unfold opensBlock at h
  split at h
  · dsimp only at h
    split at h
    · next hc =>
      obtain ⟨rfl, -⟩ := Prod.mk.inj (Option.some.inj h)
      have hlen := (List.isPrefixOf_iff_prefix.mp (Bool.and_eq_true _ _ ▸ hc).2).length_le
      rw [List.length_drop, List.length_append] at hlen
      have hclose : CLOSE.length = 4 := rfl
      simp only [List.length_cons, List.length_nil] at hlen
      omega
    · exact nomatch h
  · exact nomatch h

theorem closesBlock_fits {id t data : Text} {n : ℕ} (h : closesBlock id t = some (n, data)) :
    n ≤ t.length := by
  unfold closesBlock at h
  split at h
  · dsimp only at h
    split at h
    · next hc =>
      obtain ⟨rfl, -⟩ := Prod.mk.inj (Option.some.inj h)
      have hlen := (List.isPrefixOf_iff_prefix.mp (Bool.and_eq_true _ _ ▸ hc).2).length_le
      rw [List.length_drop] at hlen
      have hpos : 0 < (CLOSE ++ '\n' :: closeLine id).length := by
        rw [List.length_append, List.length_cons]
        omega
      omega
    · exact nomatch h
  · exact nomatch h

theorem upToClose_fits {id t data : Text} {n : ℕ} (h : upToClose id t = some (n, data)) : n ≤ t.length := by
  induction t generalizing n with
  | nil => exact nomatch h
  | cons c t ih =>
    rw [upToClose] at h
    cases hc : closesBlock id (c :: t) with
    | some r =>
      rw [hc] at h
      obtain rfl := Option.some.inj h
      exact closesBlock_fits hc
    | none =>
      rw [hc] at h
      obtain ⟨⟨k, d⟩, hk, hkd⟩ := Option.map_eq_some_iff.mp h
      obtain ⟨rfl, rfl⟩ := Prod.mk.inj hkd
      exact Nat.succ_le_succ (ih hk)

theorem blockAt_fits {t id data : Text} {n : ℕ} (h : blockAt t = some (n, id, data)) : n ≤ t.length := by
  rw [blockAt] at h
  cases ho : opensBlock t with
  | none =>
    rw [ho] at h
    exact nomatch h
  | some r =>
    rw [ho] at h
    obtain ⟨⟨k, d⟩, hk, hkd⟩ := Option.map_eq_some_iff.mp h
    obtain ⟨rfl, -⟩ := Prod.mk.inj hkd
    have hopen := opensBlock_fits ho
    have hclose := upToClose_fits hk
    rw [List.length_drop] at hclose
    dsimp only
    omega

theorem valid_of_decode {data : Text} {r : Contradiction} (h : decode C data = .ok r) :
    validate r = .ok () := by
  rw [decode] at h
  split at h
  · exact nomatch h
  · exact nomatch h
  · split at h
    · exact nomatch h
    · next hv =>
      obtain rfl := Except.ok.inj h
      exact hv

/-- found blocks hold at least one marker each, and no more only in a listed text -/
theorem listed_of_located {whole t : Text} {pos : ℕ} {items : List LocatedContradiction}
    (hw : whole.drop pos = t)
    (h : (Scan.locatedFrom blockAt pos 0 t).mapM (locate C whole) = .ok items) :
    (∀ p ∈ MARKERS, items.length ≤ Text.count p t) ∧
      ((∀ p ∈ MARKERS, Text.count p t = items.length) → Listed C pos t items) := by
  induction items generalizing pos t with
  | nil =>
    refine ⟨fun _ _ => Nat.zero_le _, fun hcount => ?_⟩
    exact Listed.last hcount
  | cons item items ih =>
    rcases Scan.locatedFrom_cases (fun s n a => blockAt_fits) pos t with
      hnil | ⟨gap, s, n, ⟨id, data⟩, rfl, hm, hn, hcons⟩
    · rw [hnil] at h
      exact nomatch h
    · rw [hcons, List.mapM_cons] at h
      obtain ⟨item', hitem, h⟩ := Checks.bind_eq_ok.mp h
      obtain ⟨items', hitems, h⟩ := Checks.bind_eq_ok.mp h
      obtain ⟨rfl, rfl⟩ := List.cons.inj (Except.ok.inj h)
      obtain ⟨r, hdecode, rfl, hslice, rfl⟩ := locate_eq_ok.mp hitem
      have hat := drop_eq_of_append hw
      dsimp only at hslice hdecode
      have hwidth : pos + gap.length + n + 1 - (pos + gap.length) = n + 1 := by omega
      rw [hat, hwidth] at hslice
      obtain ⟨rest, rfl⟩ : ∃ rest, s = block C r ++ rest :=
        ⟨s.drop (n + 1), by rw [← hslice, List.take_append_drop]⟩
      have hlen : (block C r).length = n + 1 := by
        rw [← hslice, List.length_take]
        omega
      rw [← hlen, List.drop_left, Nat.add_assoc _ n 1, ← hlen] at hitems
      have hvalid := valid_of_decode hdecode
      obtain ⟨hle, hlisted⟩ := ih (drop_eq_of_append hat) hitems
      have hcount : ∀ p ∈ MARKERS, Text.count p (gap ++ (block C r ++ rest)) =
          Text.count p gap + (1 + Text.count p (prose r) + Text.count p rest) := fun p hp => by
        rw [count_gap hp, count_block hp (validate_eq_ok hvalid)]
      rw [Nat.add_assoc _ n 1, ← hlen]
      constructor
      · intro p hp
        have := hle p hp
        rw [hcount p hp, List.length_cons]
        omega
      · intro heq
        have hexact : ∀ p ∈ MARKERS, Text.count p gap = 0 ∧ Text.count p (prose r) = 0 ∧
            Text.count p rest = items'.length := by
          intro p hp
          have hsum := heq p hp
          have := hle p hp
          rw [hcount p hp, List.length_cons] at hsum
          omega
        exact Listed.found (fun p hp => (hexact p hp).1) ⟨hvalid, fun p hp => (hexact p hp).2.1⟩
          (hlisted fun p hp => (hexact p hp).2.2)

/-- exactly the listed texts are accepted -/
theorem parseAll_iff {text : Text} {items : List LocatedContradiction} : parseAll C text = .ok items ↔
    Listed C 0 text items ∧ (items.map fun item => item.record.contradictionId).Nodup := by
  rw [parseAll, Scan.located]
  constructor
  · intro h
    cases hm : (Scan.locatedFrom blockAt 0 0 text).mapM (locate C text) with
    | error e =>
      rw [hm] at h
      exact nomatch h
    | ok found =>
      rw [hm] at h
      obtain ⟨hcount, h⟩ := Checks.of_ite_error h
      obtain ⟨hnodup, h⟩ := Checks.of_ite_error h
      obtain rfl := Except.ok.inj h
      push Not at hcount
      refine ⟨(listed_of_located rfl hm).2 fun p hp => ?_, not_not.mp hnodup⟩
      simp only [MARKERS, List.mem_cons, List.not_mem_nil, or_false] at hp
      rcases hp with rfl | rfl | rfl
      · exact hcount.1
      · exact hcount.2.1
      · exact hcount.2.2
  · rintro ⟨hlisted, hnodup⟩
    have hcount : ∀ p ∈ MARKERS, Text.count p text = items.length := fun p hp => hlisted.count hp
    rw [hlisted.located, hlisted.mapM rfl]
    dsimp only
    rw [if_neg, if_neg (not_not.mpr hnodup)]
    simp only [hcount START (by decide), hcount DATA (by decide), hcount END (by decide), ne_eq,
      not_true_eq_false, or_self, not_false_eq_true]

/-! ## appending -/

theorem block_last (r : Contradiction) : ∃ x, block C r = x ++ ['>'] := by
  have hclose : CLOSE = " --".toList ++ ['>'] := by decide
  refine ⟨openLine r.contradictionId ++ '\n' :: (prose r ++ '\n' :: (dataLine C r ++ '\n' ::
    (END ++ r.contradictionId ++ " --".toList))), ?_⟩
  rw [block_eq, closeLine, hclose]
  simp only [List.append_assoc, List.cons_append]

theorem rstrip_after_block (x : Text) (r : Contradiction) (t : Text) :
    Text.rstrip (x ++ block C r ++ t) = x ++ block C r ++ Text.rstrip t := by
  obtain ⟨y, hy⟩ := block_last (C := C) r
  refine Text.rstrip_append_of_last fun hl => ?_
  simp only [hy, ← List.append_assoc, List.getLast_concat]
  rfl

theorem bare_rstrip {t : Text} (h : Bare t) : Bare (Text.rstrip t) := by
  intro p hp
  obtain ⟨q, rfl, -, -, hlast⟩ := marker_spec p hp
  obtain ⟨w, hw, ht⟩ := Text.rstrip_append t
  have hcount := h _ hp
  rw [ht, Text.count_append_blank (List.cons_ne_nil _ _) hlast hw] at hcount
  exact hcount

/-- the item of a block at the end of a text -/
def itemAt (C : Codec) (pos : ℕ) (t : Text) (r : Contradiction) : LocatedContradiction :=
  ⟨r, pos + (Text.rstrip t).length + 2, pos + (Text.rstrip t).length + 2 + (block C r).length, block C r⟩

theorem Listed.append {pos : ℕ} {t : Text} {items : List LocatedContradiction} (h : Listed C pos t items)
    {r : Contradiction} (hr : Sound r) :
    Listed C pos (Text.rstrip t ++ "\n\n".toList ++ block C r ++ ['\n']) (items ++ [itemAt C pos t r]) := by
  have hnewline : Bare ['\n'] := by
    show ∀ p ∈ MARKERS, Text.count p ['\n'] = 0
    decide +kernel
  induction h with
  | @last pos gap hb =>
    have hgap : Bare (Text.rstrip gap ++ "\n\n".toList) := by
      intro p hp
      have hzero : Text.count p ("\n".toList) = 0 := hnewline p hp
      rw [show "\n\n".toList = '\n' :: "\n".toList from rfl, count_newline hp, bare_rstrip hb p hp, hzero]
    have hfound : Listed C pos (_ ++ (block C r ++ ['\n'])) _ := Listed.found hgap hr (Listed.last hnewline)
    rw [List.length_append] at hfound
    rw [List.append_assoc _ (block C r)]
    exact hfound
  | @found pos gap r' rest items hb hs _ ih =>
    have hstrip : Text.rstrip (gap ++ (block C r' ++ rest)) = gap ++ (block C r' ++ Text.rstrip rest) := by
      rw [← List.append_assoc, rstrip_after_block, List.append_assoc]
    have hitem : itemAt C pos (gap ++ (block C r' ++ rest)) r =
        itemAt C (pos + gap.length + (block C r').length) rest r := by
      rw [itemAt, itemAt, hstrip]
      simp only [List.length_append, ← Nat.add_assoc]
    rw [hitem, hstrip]
    have hfound := Listed.found hb hs ih
    simp only [List.append_assoc, List.cons_append] at hfound ⊢
    exact hfound

/-- an appended record is listed behind the others -/
def Appended (C : Codec) (text : Text) (items : List LocatedContradiction) (r : Contradiction) : Prop :=
  ∃ t item, append C text r = .ok t ∧ parseAll C t = .ok (items ++ [item]) ∧ item.record = r ∧
    item.block = block C r

theorem render_eq_ok {r : Contradiction} {t : Text} :
    render C r = .ok t ↔ validate r = .ok () ∧ t = block C r := by
  rw [render]
  split
  · next h => exact ⟨nofun, fun h' => nomatch h.symm.trans h'.1⟩
  · next h => exact ⟨fun ht => ⟨h, (Except.ok.inj ht).symm⟩, fun ht => congrArg Except.ok ht.2.symm⟩

theorem append_eq {text : Text} {items : List LocatedContradiction} (h : parseAll C text = .ok items)
    {r : Contradiction} (hnew : r.contradictionId ∉ items.map fun item => item.record.contradictionId)
    {t : Text} : append C text r = .ok t ↔
      validate r = .ok () ∧ t = Text.rstrip text ++ "\n\n".toList ++ block C r ++ ['\n'] := by
  have hany : (items.any fun item => item.record.contradictionId == r.contradictionId) = false := by
    rw [List.any_eq_false]
    intro item hitem heq
    exact hnew (List.mem_map.mpr ⟨item, hitem, beq_iff_eq.mp heq⟩)
  rw [append, h]
  dsimp only
  rw [hany, if_neg Bool.false_ne_true]
  cases hr : render C r with
  | error e =>
    refine ⟨nofun, fun ht => ?_⟩
    rw [render_eq_ok.mpr ⟨ht.1, rfl⟩] at hr
    exact nomatch hr
  | ok rendered =>
    obtain ⟨hv, rfl⟩ := render_eq_ok.mp hr
    exact ⟨fun ht => ⟨hv, (Except.ok.inj ht).symm⟩, fun ht => congrArg Except.ok ht.2.symm⟩

theorem appended_iff {text : Text} {items : List LocatedContradiction} (h : parseAll C text = .ok items)
    {r : Contradiction} (hnew : r.contradictionId ∉ items.map fun item => item.record.contradictionId) :
    Appended C text items r ↔ Sound r := by
  obtain ⟨hlisted, hnodup⟩ := parseAll_iff.mp h
  constructor
  · rintro ⟨t, item, happend, hparse, -⟩
    obtain ⟨hvalid, rfl⟩ := (append_eq h hnew).mp happend
    obtain ⟨hlisted', -⟩ := parseAll_iff.mp hparse
    refine ⟨hvalid, fun p hp => ?_⟩
    have hcount := hlisted'.count hp
    obtain ⟨q, rfl, -, -, hlast⟩ := marker_spec p hp
    obtain ⟨w, hw, htext⟩ := Text.rstrip_append text
    have hold := hlisted.count hp
    rw [htext, Text.count_append_blank (List.cons_ne_nil _ _) hlast hw] at hold
    have hshape : Text.rstrip text ++ "\n\n".toList ++ block C r ++ ['\n'] =
        Text.rstrip text ++ '\n' :: ([] ++ '\n' :: (block C r ++ ['\n'])) := by
      simp only [List.append_assoc, List.nil_append]
      rfl
    rw [hshape, count_newline hp, count_newline hp, count_block hp (validate_eq_ok hvalid), hold,
      List.length_append, List.length_singleton] at hcount
    omega
  · intro hr
    refine ⟨_, itemAt C 0 text r, (append_eq h hnew).mpr ⟨hr.valid, rfl⟩, parseAll_iff.mpr
      ⟨hlisted.append hr, ?_⟩, rfl, rfl⟩
    rw [List.map_append, List.nodup_append]
    refine ⟨hnodup, List.nodup_cons.mpr ⟨List.not_mem_nil, List.nodup_nil⟩, fun a ha b hb heq => ?_⟩
    rw [List.map_singleton, List.mem_singleton] at hb
    exact hnew (hb ▸ heq ▸ ha)

/-! ## removing -/

theorem Listed.bounds {pos : ℕ} {t : Text} {items : List LocatedContradiction} (h : Listed C pos t items) :
    items.Pairwise (fun i j => i.stop ≤ j.start) ∧ ∀ i ∈ items, pos ≤ i.start ∧
      i.stop = i.start + i.block.length ∧ i.block = block C i.record ∧ Sound i.record := by
  induction h with
  | last _ => exact ⟨List.Pairwise.nil, fun _ hi => absurd hi List.not_mem_nil⟩
  | @found pos gap r rest items hb hs _ ih =>
    obtain ⟨hpair, hall⟩ := ih
    refine ⟨List.pairwise_cons.mpr ⟨fun i hi => (hall i hi).1, hpair⟩, fun i hi => ?_⟩
    rcases List.mem_cons.mp hi with rfl | hi
    · exact ⟨Nat.le_add_right pos _, rfl, rfl, hs⟩
    · obtain ⟨hpos, hrest⟩ := hall i hi
      exact ⟨by omega, hrest⟩

theorem Listed.cut {whole t : Text} {pos : ℕ} {items : List LocatedContradiction} (h : Listed C pos t items)
    (hw : whole.drop pos = t) {i : LocatedContradiction} (hi : i ∈ items) :
    whole.drop i.start = i.block ++ whole.drop i.stop := by
  induction h with
  | last _ => exact absurd hi List.not_mem_nil
  | @found pos gap r rest items hb hs _ ih =>
    have hat := drop_eq_of_append hw
    rcases List.mem_cons.mp hi with rfl | hi
    · dsimp only
      rw [drop_eq_of_append hat, ← hat]
    · exact ih (drop_eq_of_append hat) hi

theorem backUp_spec (t : Text) (k : ℕ) :
    backUp t k ≤ k ∧ ∀ i, backUp t k ≤ i → i < k → t[i]? = some '\n' := by
  induction k with
  | zero => exact ⟨Nat.le_refl 0, fun i _ hi => absurd hi (Nat.not_lt_zero i)⟩
  | succ k ih =>
    cases k with
    | zero => exact ⟨Nat.le_refl 1, fun i h hi => absurd hi (Nat.not_lt.mpr h)⟩
    | succ k =>
      rw [backUp]
      split
      · next h =>
        obtain ⟨hle, hrun⟩ := ih
        refine ⟨Nat.le_succ_of_le hle, fun i hi hlt => ?_⟩
        by_cases hik : i = k + 1
        · rw [hik]
          exact h.1
        · exact hrun i hi (by omega)
      · exact ⟨Nat.le_refl _, fun i h hi => absurd hi (Nat.not_lt.mpr h)⟩

/-- a block is taken out with the line ends before it but one, and what is around it stays -/
structure Removed (C : Codec) (text : Text) (items : List LocatedContradiction)
    (item : LocatedContradiction) (pre blank post : Text) : Prop where
  parts : text = pre ++ (blank ++ (item.block ++ post))
  newlines : ∀ c ∈ blank, c = '\n'
  removed : remove C text item.record.contradictionId = .ok (Text.rstrip (pre ++ post) ++ ['\n'], true)
  others : ∀ other ∈ items, other ≠ item →
    other.block <:+: Text.rstrip (pre ++ post) ∧
      (other.stop ≤ pre.length ∨ pre.length + blank.length + item.block.length ≤ other.start)

theorem infix_rstrip {pre post x y : Text} (r : Contradiction) (h : pre ++ post = x ++ (block C r ++ y)) :
    block C r <:+: Text.rstrip (pre ++ post) := by
  rw [h, ← List.append_assoc, rstrip_after_block]
  exact ⟨x, Text.rstrip y, rfl⟩

theorem filter_key {α β : Type} [BEq β] [LawfulBEq β] (f : α → β) {l : List α} (h : (l.map f).Nodup) {a : α}
    (ha : a ∈ l) : l.filter (fun b => f b == f a) = [a] := by
  induction l with
  | nil => exact absurd ha List.not_mem_nil
  | cons b l ih =>
    obtain ⟨hout, hnodup⟩ := List.nodup_cons.mp h
    rw [List.filter_cons]
    rcases List.mem_cons.mp ha with rfl | ha
    · rw [beq_self_eq_true, if_pos rfl, List.filter_eq_nil_iff.mpr]
      intro c hc heq
      exact hout (List.mem_map.mpr ⟨c, hc, beq_iff_eq.mp heq⟩)
    · have hne : (f b == f a) = false := beq_eq_false_iff_ne.mpr fun heq =>
        hout (heq ▸ List.mem_map_of_mem ha)
      rw [hne, if_neg Bool.false_ne_true, ih hnodup ha]

theorem getElem?_of_backUp {text : Text} {k n : ℕ} {c : Char}
    (h : ((text.take k).drop (backUp text k))[n]? = some c) : c = '\n' := by
  rw [List.getElem?_drop] at h
  obtain ⟨hlt, -⟩ := List.getElem?_eq_some_iff.mp h
  rw [List.length_take] at hlt
  have hk : backUp text k + n < k := by omega
  rw [List.getElem?_take_of_lt hk, (backUp_spec text k).2 _ (Nat.le_add_right _ n) hk] at h
  exact (Option.some.inj h).symm

/-- a block ends before the newlines in front of a later one -/
theorem stop_le_backUp {text : Text} {k start stop : ℕ} {r : Contradiction}
    (hcut : text.drop start = block C r ++ text.drop stop) (hstop : stop = start + (block C r).length)
    (hle : stop ≤ k) : stop ≤ backUp text k := by
  obtain ⟨x, hx⟩ := block_last (C := C) r
  have hlen : (block C r).length = x.length + 1 := by
    rw [hx, List.length_append, List.length_singleton]
  by_contra hlt
  have hnewline := (backUp_spec text k).2 (start + x.length) (by omega) (by omega)
  rw [← List.getElem?_drop, hcut, hx, List.append_assoc, List.getElem?_append_right (Nat.le_refl _),
    Nat.sub_self] at hnewline
  exact absurd (Option.some.inj hnewline) (by decide)

theorem removed_of_mem {text : Text} {items : List LocatedContradiction} (h : parseAll C text = .ok items)
    {item : LocatedContradiction} (hitem : item ∈ items) :
    Removed C text items item (text.take (backUp text item.start))
      ((text.take item.start).drop (backUp text item.start)) (text.drop item.stop) := by
  obtain ⟨hlisted, hnodup⟩ := parseAll_iff.mp h
  obtain ⟨hpair, hall⟩ := hlisted.bounds
  obtain ⟨hle, -⟩ := backUp_spec text item.start
  have hfilter : (items.filter fun i => i.record.contradictionId == item.record.contradictionId) = [item] :=
    filter_key (fun i : LocatedContradiction => i.record.contradictionId) hnodup hitem
  have htake : text.take (backUp text item.start) ++ (text.take item.start).drop (backUp text item.start) =
      text.take item.start := by
    have := List.take_append_drop (backUp text item.start) (text.take item.start)
    rw [List.take_take, Nat.min_eq_left hle] at this
    exact this
  have hparts : text = text.take (backUp text item.start) ++
      ((text.take item.start).drop (backUp text item.start) ++ (item.block ++ text.drop item.stop)) := by
    rw [← List.append_assoc, htake, ← hlisted.cut rfl hitem, List.take_append_drop]
  have hstart : item.start ≤ text.length := by
    by_contra hlt
    have hcut := hlisted.cut rfl hitem
    rw [List.drop_eq_nil_of_le (Nat.le_of_not_le hlt), (hall item hitem).2.2.1] at hcut
    obtain ⟨t, ht⟩ := block_head (C := C) item.record (text.drop item.stop)
    exact nomatch hcut.trans ht
  refine ⟨hparts, fun c hc => ?_, ?_, fun other hother hne => ?_⟩
  · obtain ⟨n, hn⟩ := List.mem_iff_getElem?.mp hc
    exact getElem?_of_backUp hn
  · rw [remove, h]
    dsimp only
    rw [hfilter]
    rfl
  · have hcut := hlisted.cut rfl hother
    obtain ⟨-, hstop, hblock, -⟩ := hall other hother
    rw [hblock] at hcut hstop
    have hsym : Std.Symm fun i j : LocatedContradiction => i.stop ≤ j.start ∨ j.stop ≤ i.start :=
      ⟨fun _ _ hij => hij.symm⟩
    have hapart : items.Pairwise fun i j => i.stop ≤ j.start ∨ j.stop ≤ i.start := hpair.imp Or.inl
    rcases hapart.forall hother hitem hne with hbefore | hafter
    · have hkept := stop_le_backUp hcut hstop hbefore
      refine ⟨?_, Or.inl ?_⟩
      · rw [hblock]
        refine infix_rstrip (x := text.take other.start) other.record
          (y := (text.drop other.stop).take (backUp text item.start - other.stop) ++ text.drop item.stop) ?_
        have hsplit : backUp text item.start = other.start + ((block C other.record).length +
            (backUp text item.start - other.stop)) := by omega
        have hfront : text.take (backUp text item.start) = text.take other.start ++ (block C other.record ++
            (text.drop other.stop).take (backUp text item.start - other.stop)) := by
          conv_lhs => rw [hsplit]
          rw [List.take_add, hcut, List.take_length_add_append]
        rw [hfront]
        simp only [List.append_assoc]
      · rw [List.length_take]
        omega
    · refine ⟨?_, Or.inr ?_⟩
      · rw [hblock]
        refine infix_rstrip (x := text.take (backUp text item.start) ++
          (text.drop item.stop).take (other.start - item.stop)) other.record (y := text.drop other.stop) ?_
        have hback : text.drop item.stop = (text.drop item.stop).take (other.start - item.stop) ++
            text.drop other.start := by
          conv_lhs => rw [← List.take_append_drop (other.start - item.stop) (text.drop item.stop)]
          rw [List.drop_drop, Nat.add_sub_cancel' hafter]
        conv_lhs => rw [hback, hcut]
        rw [List.append_assoc]
      · have hlen := congrArg List.length htake
        have hitemStop := (hall item hitem).2.1
        rw [List.length_append, List.length_take_of_le hstart] at hlen
        omega

/-! ## the codec as a whole -/

theorem removed_of_absent {text : Text} {items : List LocatedContradiction} (h : parseAll C text = .ok items)
    {id : Text} (hid : id ∉ items.map fun item => item.record.contradictionId) :
    remove C text id = .ok (text, false) := by
  have hnone : (items.filter fun item => item.record.contradictionId == id) = [] := by
    rw [List.filter_eq_nil_iff]
    intro item hitem heq
    exact hid (List.mem_map.mpr ⟨item, hitem, beq_iff_eq.mp heq⟩)
  rw [remove, h]
  dsimp only
  rw [hnone]
  rfl

/-- a match of the pattern as `parse_all` takes it: its data decodes to a record it renders -/
def Canonical (C : Codec) (text : Text) (found : ℕ × ℕ × Text × Text) (item : LocatedContradiction) : Prop :=
  decode C found.2.2.2 = .ok item.record ∧ render C item.record = .ok item.block ∧
    (text.drop found.1).take (found.2.1 - found.1) = item.block

theorem canonical_of_parseAll {text : Text} {items : List LocatedContradiction}
    (h : parseAll C text = .ok items) :
    List.Forall₂ (Canonical C text) (Scan.located blockAt text) items := by
  obtain ⟨hlisted, -⟩ := parseAll_iff.mp h
  rw [Scan.located, hlisted.located, List.forall₂_map_left_iff, List.forall₂_same]
  intro item hitem
  obtain ⟨-, hstop, hblock, hsound⟩ := hlisted.bounds.2 item hitem
  refine ⟨decode_encode hsound.valid, render_eq_ok.mpr ⟨hsound.valid, hblock⟩, ?_⟩
  show (text.drop item.start).take (item.stop - item.start) = item.block
  rw [hlisted.cut rfl hitem, hstop, Nat.add_sub_cancel_left, List.take_left]

/-- what the codec promises of an accepted text and a new record -/
structure Kept (C : Codec) (text : Text) (items : List LocatedContradiction) (r : Contradiction) : Prop where
  appended : Appended C text items r
  removed : ∀ item ∈ items, ∃ pre blank post, Removed C text items item pre blank post
  absent : ∀ id, id ∉ (items.map fun item => item.record.contradictionId) →
    remove C text id = .ok (text, false)
  canonical : List.Forall₂ (Canonical C text) (Scan.located blockAt text) items

/-- the codec keeps an accepted text exactly when the new record is valid and its prose has no marker -/
theorem codec_iff {text : Text} {items : List LocatedContradiction} (h : parseAll C text = .ok items)
    (p : Proposal) {id : Text} (hnew : id ∉ items.map fun item => item.record.contradictionId) :
    Kept C text items (fromProposal id p) ↔ Sound (fromProposal id p) :=
  ⟨fun hkept => (appended_iff h hnew).mp hkept.appended, fun hsound =>
    ⟨(appended_iff h hnew).mpr hsound, fun _ hitem => ⟨_, _, _, removed_of_mem h hitem⟩,
      fun _ hid => removed_of_absent h hid, canonical_of_parseAll h⟩⟩

end

/-! ## two proposals -/

def freshId : Text := "con_00000000-0000-4000-8000-000000000000".toList

def sideOf (t : Text) (h : 1 ≤ t.length ∧ t.length ≤ 2000) : Claim :=
  ⟨t, "sources/2026/01/0b8f6f0e-2f4c-4c55-9a41-6a7f7b1c2d3e.md".toList, none, h, by decide, by decide⟩

/-- two sides, the first in the words of `t` -/
def proposalOf (t : Text) (h : 1 ≤ t.length ∧ t.length ≤ 2000) : Proposal :=
  ⟨"wiki/notes/Launch.md".toList, "The days differ.".toList,
    [sideOf t h, sideOf "Launch is in May.".toList (by decide)], by decide, by decide, Nat.le_refl 2,
    (by decide : 2 ≤ 10)⟩

theorem parseAll_nil (C : Codec) : parseAll C [] = .ok [] :=
  parseAll_iff.mpr ⟨Listed.last fun _ hp => by
    have hall : ∀ p ∈ MARKERS, Text.count p [] = 0 := by decide +kernel
    exact hall _ hp, List.nodup_nil⟩

theorem kept_plain : Kept (jsonCodec fun _ => []) [] []
    (fromProposal freshId (proposalOf "Launch is in June.".toList (by decide))) :=
  (codec_iff (parseAll_nil _) _ List.not_mem_nil).mpr ⟨by decide +kernel, by
    show ∀ p ∈ MARKERS, _
    decide +kernel⟩

/-- a claim that quotes a marker is written into the page, which is refused from then on -/
theorem not_kept : ¬∀ (C : Codec) (text : Text) (items : List LocatedContradiction) (p : Proposal) (id : Text),
    parseAll C text = .ok items → isContradictionId id = true →
      id ∉ (items.map fun item => item.record.contradictionId) → Kept C text items (fromProposal id p) := by
  intro h
  have hkept := h (jsonCodec fun _ => []) [] [] (proposalOf (START ++ "con_1 -->".toList) (by decide)) freshId
    (parseAll_nil _) (by decide +kernel) List.not_mem_nil
  have hsound := (appended_iff (parseAll_nil _) List.not_mem_nil).mp hkept.appended
  have hone : Text.count START (prose (fromProposal freshId
      (proposalOf (START ++ "con_1 -->".toList) (by decide)))) ≠ 0 := by
    decide +kernel
  exact hone (hsound.prose START List.mem_cons_self)

end Contradictions
