import Stigmergy.Lib.Dict
import Stigmergy.Kernel.Ascii
import Stigmergy.Index.Corpus
import Stigmergy.Index.Fragments

/-!
# Embedding the fragments of an index

`embed_fragments` of `index/build.py` over `page_fragments` of `index/fragments.py`.  Large entity pages are sent
whole and alone first; those the model refuses are cut, and what is left goes in one batch.

* `mem_pageFragments`   the fragments of the page rows;
* `small_or_whole`      one that may be too long is an entity page sent whole;
* `Sent`, `Sent.alone`, `Sent.rest`   what the requests made so far amount to;
* `embeds_all`          every fragment has its own vector, from the cache or from one request.
-/

set_option linter.unusedSectionVars false

namespace Embedding

open Corpus Fragments

structure FragmentRow where
  path : Text
  vpath : Text
  ordinal : ℕ
  acl : Option (List Text)
  type : PageType
  trail : Text
  text : Text
  embedText : Text
  contentHash : Text

/-- how the model answers a request: vectors, an `HTTPStatusError` with its code, or another error -/
inductive Answer (V : Type*) where
  | vectors (vs : List V)
  | status (code : ℕ)
  | raised

/-- a request: the page it is made for, or none for the batch, the texts and the answer -/
structure Call (V : Type*) where
  page : Option Text
  texts : List Text
  answer : Answer V

/-- the vectors by hash, the pages refused, and the requests made -/
structure Run (V : Type*) where
  fresh : List (Text × V)
  refused : List Text
  calls : List (Call V)

structure Embedded (V : Type*) where
  pieces : List FragmentRow
  cached : List Text
  fresh : List (Text × V)
  calls : List (Call V)

/-- `pieces_of` -/
def piecesOf (row : PageRow) (cut : Bool) : List Fragment :=
  if row.body.isEmpty then []
  else if row.type = .entity ∧ cut = false then [⟨0, 0, row.body.length, [], row.body⟩]
  else fragment row.body (row.type == .source)

section
variable (R : Runtime) {V : Type*}

def contentHash (text : Text) : Text := "sha256:".toList ++ R.sha256 text

def fragmentRow (row : PageRow) (piece : Fragment) : FragmentRow where
  path := row.path
  vpath := row.vpath
  ordinal := piece.ordinal
  acl := row.acl
  type := row.type
  trail := piece.trail
  text := piece.text
  embedText := embedText row.title piece
  contentHash := contentHash R (embedText row.title piece)

/-- `page_fragments` -/
def pageFragments (rows : List PageRow) (cut : List Text) : List FragmentRow :=
  rows.flatMap fun row => (piecesOf row (cut.contains row.path)).map (fragmentRow R row)

/-- `cached_hashes` of the hashes of the pieces; without a table there are none -/
def cachedHashes (cache : Option (List Text)) (pieces : List FragmentRow) : List Text :=
  (pieces.map FragmentRow.contentHash).dedup.filter fun h => (cache.getD []).contains h

/-- pieces that are sent whole and alone -/
def isLarge (piece : FragmentRow) : Bool := piece.type == .entity && decide (WHOLE_SAFE_BYTES < size piece.embedText)

/-- the loop over the pieces; `embed` answers with all requests before -/
def sendAlone (embed : List (Call V) → List Text → Answer V) (cached : List Text) :
    List FragmentRow → Run V → Option (Run V)
  | [], s => some s
  | piece :: pieces, s =>
    if cached.contains piece.contentHash || (Dict.keys s.fresh).contains piece.contentHash || !isLarge piece then
      sendAlone embed cached pieces s
    else
      let answer := embed s.calls [piece.embedText]
      let calls := s.calls ++ [⟨some piece.path, [piece.embedText], answer⟩]
      match answer with
      | .vectors (v :: _) =>
        sendAlone embed cached pieces { s with fresh := Dict.put s.fresh piece.contentHash v, calls := calls }
      | .status code =>
        if code = 400 then sendAlone embed cached pieces { s with refused := piece.path :: s.refused, calls := calls }
        else none
      | _ => none

/-- `unique`: the texts left, by hash -/
def leftOver (cached : List Text) (pieces : List FragmentRow) (fresh : List (Text × V)) : List (Text × Text) :=
  Dict.putAll [] ((pieces.filter fun piece => !cached.contains piece.contentHash &&
    !(Dict.keys fresh).contains piece.contentHash).map fun piece => (piece.contentHash, piece.embedText))

/-- the batch -/
def sendRest (embed : List (Call V) → List Text → Answer V) (cached : List Text) (pieces : List FragmentRow)
    (s : Run V) : Option (Run V) :=
  let unique := leftOver cached pieces s.fresh
  if unique.isEmpty then some s
  else
    let answer := embed s.calls (unique.map Prod.snd)
    match answer with
    | .vectors vs =>
      -- `zip(…, strict=True)`
      if vs.length = unique.length then
        some { s with
          fresh := Dict.putAll s.fresh ((Dict.keys unique).zip vs)
          calls := s.calls ++ [⟨none, unique.map Prod.snd, answer⟩] }
      else none
    | _ => none

/-- `embed_fragments` -/
def embedFragments (embed : List (Call V) → List Text → Answer V) (cache : Option (List Text))
    (rows : List PageRow) : Option (Embedded V) :=
  let pieces := pageFragments R rows []
  let cached := cachedHashes cache pieces
  match sendAlone embed cached pieces ⟨[], [], []⟩ with
  | none => none
  | some s =>
    let pieces' := if s.refused.isEmpty then pieces else pageFragments R rows s.refused
    let cached' := if s.refused.isEmpty then cached else cachedHashes cache pieces'
    (sendRest embed cached' pieces' s).map fun t => ⟨pieces', cached', t.fresh, t.calls⟩

/-! ## the pieces -/

theorem mem_pageFragments {rows : List PageRow} {cut : List Text} {piece : FragmentRow} :
    piece ∈ pageFragments R rows cut ↔
      ∃ row ∈ rows, ∃ f ∈ piecesOf row (cut.contains row.path), fragmentRow R row f = piece := by
  unfold pageFragments
  rw [List.mem_flatMap]
  refine exists_congr fun row => and_congr_right fun _ => ?_
  exact List.mem_map

theorem hash_of_mem {rows : List PageRow} {cut : List Text} {piece : FragmentRow}
    (h : piece ∈ pageFragments R rows cut) : piece.contentHash = contentHash R piece.embedText := by
  obtain ⟨row, -, f, -, rfl⟩ := (mem_pageFragments R).mp h
  rfl

/-- a fragment fits in the safe bytes, or it is an entity page that is not cut -/
theorem small_or_whole {rows : List PageRow} {cut : List Text} {piece : FragmentRow}
    (h : piece ∈ pageFragments R rows cut) : size piece.embedText ≤ WHOLE_SAFE_BYTES ∨
      piece.type = .entity ∧ piece.path ∉ cut ∧ piece ∈ pageFragments R rows [] := by
  obtain ⟨row, hrow, f, hf, rfl⟩ := (mem_pageFragments R).mp h
  unfold piecesOf at hf
  split at hf
  · exact nomatch hf
  · rename_i hbody
    split at hf
    · rename_i hwhole
      refine Or.inr ⟨hwhole.1, ?_, (mem_pageFragments R).mpr ⟨row, hrow, f, ?_, rfl⟩⟩
      · intro hmem
        have hcut : cut.contains row.path = true := List.contains_iff_mem.mpr hmem
        rw [hcut] at hwhole
        exact nomatch hwhole.2
      · unfold piecesOf
        rw [if_neg hbody, if_pos ⟨hwhole.1, rfl⟩]
        exact hf
    · left
      obtain ⟨-, hsize, htrail⟩ := (fragment_laps (fun hnil => hbody (by rw [hnil]; rfl)) _).2.2 f hf
      exact size_embedText htrail hsize row.title

theorem mem_cachedHashes {cache : Option (List Text)} {pieces : List FragmentRow} {h : Text} :
    h ∈ cachedHashes cache pieces ↔ (∃ piece ∈ pieces, piece.contentHash = h) ∧ h ∈ cache.getD [] := by
  unfold cachedHashes
  rw [List.mem_filter, List.mem_dedup, List.mem_map, List.contains_iff_mem]

/-! ## requests -/

/-- the texts a request was answered for with vectors -/
def Call.accepted (c : Call V) : List Text :=
  match c.answer with
  | .vectors _ => c.texts
  | _ => []

def accepted (calls : List (Call V)) : List Text := calls.flatMap Call.accepted

/-- the request gave the vector for a text with the hash -/
def Call.Gives (c : Call V) (h : Text) (v : V) : Prop :=
  ∃ (vs : List V) (i : ℕ) (t : Text), c.answer = .vectors vs ∧ c.texts[i]? = some t ∧ vs[i]? = some v ∧
    contentHash R t = h

/-- the entity pages the model refused whole -/
def Refused (calls : List (Call V)) (path : Text) : Prop :=
  ∃ c ∈ calls, c.page = some path ∧ c.answer = .status 400

/-- what the requests so far amount to -/
structure Sent (cache : Option (List Text)) (s : Run V) : Prop where
  keys : (Dict.keys s.fresh).Nodup
  given : ∀ h v, (h, v) ∈ s.fresh → ∃ c ∈ s.calls, c.Gives R h v
  kept : ∀ t ∈ accepted s.calls, contentHash R t ∈ Dict.keys s.fresh
  once : (accepted s.calls).Nodup
  unheld : ∀ c ∈ s.calls, ∀ t ∈ c.texts, contentHash R t ∉ cache.getD []
  refused : ∀ path, path ∈ s.refused ↔ Refused s.calls path
  small : ∀ c ∈ s.calls, c.page = none → ∀ t ∈ c.texts, size t ≤ WHOLE_SAFE_BYTES

theorem sent_start (cache : Option (List Text)) : Sent R cache (⟨[], [], []⟩ : Run V) where
  keys := List.nodup_nil
  given := nofun
  kept := nofun
  once := List.nodup_nil
  unheld := nofun
  refused := fun _ => ⟨nofun, fun h => nomatch h.choose_spec.1⟩
  small := nofun

theorem accepted_concat (calls : List (Call V)) (c : Call V) : accepted (calls ++ [c]) = accepted calls ++ c.accepted := by
  unfold accepted
  rw [List.flatMap_append, List.flatMap_singleton]

variable {R} {cache : Option (List Text)} {s : Run V}

/-- a request answered with vectors for new texts, which are entered -/
theorem Sent.take (h : Sent R cache s) {page : Option Text} {texts : List Text} {vs : List V}
    {es : List (Text × V)}
    (hgives : ∀ k v, (k, v) ∈ es → (⟨page, texts, .vectors vs⟩ : Call V).Gives R k v)
    (hkeys : ∀ t ∈ texts, contentHash R t ∈ Dict.keys es) (honce : texts.Nodup)
    (hnew : ∀ t ∈ texts, contentHash R t ∉ Dict.keys s.fresh)
    (hheld : ∀ t ∈ texts, contentHash R t ∉ cache.getD [])
    (hsmall : page = none → ∀ t ∈ texts, size t ≤ WHOLE_SAFE_BYTES) :
    Sent R cache { s with
      fresh := Dict.putAll s.fresh es
      calls := s.calls ++ [⟨page, texts, .vectors vs⟩] } := by
  have hcalls : ∀ c ∈ s.calls ++ [(⟨page, texts, .vectors vs⟩ : Call V)],
      c ∈ s.calls ∨ c = ⟨page, texts, .vectors vs⟩ := by
    intro c hc
    rwa [List.mem_append, List.mem_singleton] at hc
  refine ⟨Dict.nodup_putAll h.keys es, ?_, ?_, ?_, ?_, ?_, ?_⟩
  · intro k v hkv
    rcases Dict.mem_putAll hkv with hes | hold
    · exact ⟨_, List.mem_append_right s.calls (List.mem_singleton_self _), hgives k v hes⟩
    · obtain ⟨c, hc, hg⟩ := h.given k v hold
      exact ⟨c, List.mem_append_left _ hc, hg⟩
  · intro t ht
    rw [accepted_concat, List.mem_append] at ht
    rw [Dict.mem_keys_putAll]
    rcases ht with ht | ht
    · exact Or.inr (h.kept t ht)
    · exact Or.inl (hkeys t ht)
  · rw [accepted_concat]
    refine List.Nodup.append h.once honce fun t ht ht' => ?_
    exact hnew t ht' (h.kept t ht)
  · intro c hc
    rcases hcalls c hc with hc | rfl
    · exact h.unheld c hc
    · exact hheld
  · intro path
    rw [h.refused path]
    constructor
    · rintro ⟨c, hc, hp⟩
      exact ⟨c, List.mem_append_left _ hc, hp⟩
    · rintro ⟨c, hc, hp, ha⟩
      rcases hcalls c hc with hc | rfl
      · exact ⟨c, hc, hp, ha⟩
      · exact nomatch ha
  · intro c hc
    rcases hcalls c hc with hc | rfl
    · exact h.small c hc
    · exact hsmall

/-- a page refused whole -/
theorem Sent.refuse (h : Sent R cache s) {path : Text} {text : Text} (hheld : contentHash R text ∉ cache.getD []) :
    Sent R cache { s with
      refused := path :: s.refused
      calls := s.calls ++ [⟨some path, [text], .status 400⟩] } := by
  have hcalls : ∀ c ∈ s.calls ++ [(⟨some path, [text], .status 400⟩ : Call V)],
      c ∈ s.calls ∨ c = ⟨some path, [text], .status 400⟩ := by
    intro c hc
    rwa [List.mem_append, List.mem_singleton] at hc
  have haccepted : accepted (s.calls ++ [(⟨some path, [text], .status 400⟩ : Call V)]) = accepted s.calls := by
    rw [accepted_concat]
    exact List.append_nil _
  refine ⟨h.keys, ?_, ?_, ?_, ?_, ?_, ?_⟩
  · intro k v hkv
    obtain ⟨c, hc, hg⟩ := h.given k v hkv
    exact ⟨c, List.mem_append_left _ hc, hg⟩
  · rw [haccepted]
    exact h.kept
  · rw [haccepted]
    exact h.once
  · intro c hc t ht
    rcases hcalls c hc with hc | rfl
    · exact h.unheld c hc t ht
    · rw [List.mem_singleton.mp ht]
      exact hheld
  · intro p
    rw [List.mem_cons, h.refused p]
    constructor
    · rintro (rfl | ⟨c, hc, hp⟩)
      · exact ⟨_, List.mem_append_right s.calls (List.mem_singleton_self _), rfl, rfl⟩
      · exact ⟨c, List.mem_append_left _ hc, hp⟩
    · rintro ⟨c, hc, hp, ha⟩
      rcases hcalls c hc with hc | rfl
      · exact Or.inr ⟨c, hc, hp, ha⟩
      · exact Or.inl (Option.some.inj hp).symm
  · intro c hc hp
    rcases hcalls c hc with hc | rfl
    · exact h.small c hc hp
    · exact nomatch hp

/-- pieces whose hash is that of their text, and is cached just when the cache has it -/
def Known (R : Runtime) (cache : Option (List Text)) (cached : List Text) (pieces : List FragmentRow) : Prop :=
  ∀ piece ∈ pieces, piece.contentHash = contentHash R piece.embedText ∧
    (piece.contentHash ∈ cached ↔ piece.contentHash ∈ cache.getD [])

theorem known_pageFragments (rows : List PageRow) (cut : List Text) :
    Known R cache (cachedHashes cache (pageFragments R rows cut)) (pageFragments R rows cut) := by
  intro piece hpiece
  refine ⟨hash_of_mem R hpiece, ?_⟩
  rw [mem_cachedHashes]
  exact ⟨fun h => h.2, fun h => ⟨⟨piece, hpiece, rfl⟩, h⟩⟩

/-- after the loop: every large piece is cached, has a vector, or its page was refused -/
theorem Sent.alone {embed : List (Call V) → List Text → Answer V} {cached : List Text} {pieces : List FragmentRow}
    (hknown : Known R cache cached pieces) (h : Sent R cache s) {t : Run V}
    (hrun : sendAlone embed cached pieces s = some t) :
    Sent R cache t ∧ Dict.keys s.fresh ⊆ Dict.keys t.fresh ∧ s.refused ⊆ t.refused ∧
      ∀ piece ∈ pieces, isLarge piece = true →
        piece.contentHash ∈ cached ∨ piece.contentHash ∈ Dict.keys t.fresh ∨ piece.path ∈ t.refused := by
  induction pieces generalizing s with
  | nil =>
    obtain rfl := Option.some.inj hrun
    exact ⟨h, List.Subset.refl _, List.Subset.refl _, nofun⟩
  | cons piece pieces ih =>
    have hrest : Known R cache cached pieces := fun p hp => hknown p (List.mem_cons_of_mem piece hp)
    rw [sendAlone] at hrun
    split at hrun
    · rename_i hskip
      obtain ⟨ht, hfresh, hrefused, hlarge⟩ := ih hrest h hrun
      refine ⟨ht, hfresh, hrefused, fun p hp hl => ?_⟩
      rcases List.mem_cons.mp hp with rfl | hp
      · rw [hl, Bool.not_true, Bool.or_false, Bool.or_eq_true, List.contains_iff_mem, List.contains_iff_mem] at hskip
        rcases hskip with hc | hf
        · exact Or.inl hc
        · exact Or.inr (Or.inl (hfresh hf))
      · exact hlarge p hp hl
    · rename_i hsend
      rw [Bool.or_eq_true, Bool.or_eq_true, List.contains_iff_mem, List.contains_iff_mem, not_or, not_or] at hsend
      obtain ⟨⟨hcached, hnew⟩, -⟩ := hsend
      obtain ⟨hhash, hheld⟩ := hknown piece List.mem_cons_self
      rw [hheld] at hcached
      rw [hhash] at hcached hnew
      dsimp only at hrun
      split at hrun
      · -- a vector for the page
        rename_i v vs hanswer
        have hsent : Sent R cache { s with
            fresh := Dict.putAll s.fresh [(piece.contentHash, v)]
            calls := s.calls ++ [⟨some piece.path, [piece.embedText], .vectors (v :: vs)⟩] } := by
          refine h.take ?_ ?_ (List.nodup_singleton _) ?_ ?_ nofun
          · intro k u hku
            obtain ⟨rfl, rfl⟩ := Prod.mk.inj (List.mem_singleton.mp hku)
            exact ⟨_, 0, piece.embedText, rfl, rfl, rfl, hhash.symm⟩
          · intro t ht
            rw [List.mem_singleton.mp ht, ← hhash]
            exact List.mem_singleton_self _
          · intro t ht
            rw [List.mem_singleton.mp ht]
            exact hnew
          · intro t ht
            rw [List.mem_singleton.mp ht]
            exact hcached
        rw [hanswer] at hrun
        obtain ⟨ht, hfresh, hrefused, hlarge⟩ := ih hrest hsent hrun
        have hgrown : ∀ k, k = piece.contentHash ∨ k ∈ Dict.keys s.fresh → k ∈ Dict.keys t.fresh :=
          fun k hk => hfresh (Dict.mem_keys_put.mpr hk)
        refine ⟨ht, fun k hk => hgrown k (Or.inr hk), hrefused, fun p hp hl => ?_⟩
        rcases List.mem_cons.mp hp with rfl | hp
        · exact Or.inr (Or.inl (hgrown _ (Or.inl rfl)))
        · exact hlarge p hp hl
      · rename_i code hanswer
        split at hrun
        · -- the model refuses the page whole
          rename_i hcode
          subst hcode
          rw [hanswer] at hrun
          obtain ⟨ht, hfresh, hrefused, hlarge⟩ := ih hrest (h.refuse hcached) hrun
          refine ⟨ht, hfresh, fun p hp => hrefused (List.mem_cons_of_mem _ hp), fun p hp hl => ?_⟩
          rcases List.mem_cons.mp hp with rfl | hp
          · exact Or.inr (Or.inr (hrefused List.mem_cons_self))
          · exact hlarge p hp hl
        · exact nomatch hrun
      · exact nomatch hrun

theorem mem_leftOver {cached : List Text} {pieces : List FragmentRow} {fresh : List (Text × V)} {k t : Text}
    (h : (k, t) ∈ leftOver cached pieces fresh) : ∃ piece ∈ pieces, piece.contentHash = k ∧ piece.embedText = t ∧
      k ∉ cached ∧ k ∉ Dict.keys fresh := by
  rcases Dict.mem_putAll h with hmem | hnil
  · obtain ⟨piece, hpiece, heq⟩ := List.mem_map.mp hmem
    obtain ⟨rfl, rfl⟩ := Prod.mk.inj heq
    obtain ⟨hpiece, hleft⟩ := List.mem_filter.mp hpiece
    rw [Bool.and_eq_true, Bool.not_eq_true', Bool.not_eq_true'] at hleft
    refine ⟨piece, hpiece, rfl, rfl, fun hc => ?_, fun hf => ?_⟩
    · rw [List.contains_iff_mem.mpr hc] at hleft
      exact nomatch hleft.1
    · rw [List.contains_iff_mem.mpr hf] at hleft
      exact nomatch hleft.2
  · exact nomatch hnil

theorem mem_keys_leftOver {cached : List Text} {pieces : List FragmentRow} {fresh : List (Text × V)}
    {piece : FragmentRow} (h : piece ∈ pieces) (hc : piece.contentHash ∉ cached)
    (hf : piece.contentHash ∉ Dict.keys fresh) : piece.contentHash ∈ Dict.keys (leftOver cached pieces fresh) := by
  refine Dict.mem_keys_putAll.mpr (Or.inl (List.mem_map.mpr ⟨(piece.contentHash, piece.embedText), ?_, rfl⟩))
  refine List.mem_map.mpr ⟨piece, List.mem_filter.mpr ⟨h, ?_⟩, rfl⟩
  rw [Bool.and_eq_true, Bool.not_eq_true', Bool.not_eq_true']
  exact ⟨by simpa using hc, by simpa using hf⟩

/-- after the batch: every piece is cached or has a vector -/
theorem Sent.rest {embed : List (Call V) → List Text → Answer V} {cached : List Text} {pieces : List FragmentRow}
    (hknown : Known R cache cached pieces) (h : Sent R cache s)
    (hsmall : ∀ piece ∈ pieces, piece.contentHash ∉ cached → piece.contentHash ∉ Dict.keys s.fresh →
      size piece.embedText ≤ WHOLE_SAFE_BYTES) {t : Run V} (hrun : sendRest embed cached pieces s = some t) :
    Sent R cache t ∧ t.refused = s.refused ∧
      ∀ piece ∈ pieces, piece.contentHash ∈ cached ∨ piece.contentHash ∈ Dict.keys t.fresh := by
  have hleft : ∀ k u, (k, u) ∈ leftOver cached pieces s.fresh → contentHash R u = k ∧ k ∉ cache.getD [] ∧
      k ∉ Dict.keys s.fresh ∧ size u ≤ WHOLE_SAFE_BYTES := by
    intro k u hku
    obtain ⟨piece, hpiece, rfl, rfl, hc, hf⟩ := mem_leftOver hku
    obtain ⟨hhash, hheld⟩ := hknown piece hpiece
    exact ⟨hhash.symm, fun hcache => hc (hheld.mpr hcache), hf, hsmall piece hpiece hc hf⟩
  have htexts : ∀ u ∈ (leftOver cached pieces s.fresh).map Prod.snd,
      ∃ k, (k, u) ∈ leftOver cached pieces s.fresh := by
    intro u hu
    obtain ⟨⟨k, u'⟩, hku, rfl⟩ := List.mem_map.mp hu
    exact ⟨k, hku⟩
  have hcover : ∀ fresh : List (Text × V), (∀ k, k ∈ Dict.keys (leftOver cached pieces s.fresh) ∨ k ∈ Dict.keys s.fresh →
      k ∈ Dict.keys fresh) → ∀ piece ∈ pieces, piece.contentHash ∈ cached ∨ piece.contentHash ∈ Dict.keys fresh := by
    intro fresh hgrown piece hpiece
    by_cases hc : piece.contentHash ∈ cached
    · exact Or.inl hc
    · refine Or.inr (hgrown _ ?_)
      by_cases hf : piece.contentHash ∈ Dict.keys s.fresh
      · exact Or.inr hf
      · exact Or.inl (mem_keys_leftOver hpiece hc hf)
  unfold sendRest at hrun
  dsimp only at hrun
  split at hrun
  · rename_i hempty
    obtain rfl := Option.some.inj hrun
    refine ⟨h, rfl, hcover s.fresh fun k hk => hk.resolve_left fun hmem => ?_⟩
    rw [List.isEmpty_iff.mp hempty] at hmem
    exact nomatch hmem
  · split at hrun
    · rename_i vs hanswer
      split at hrun
      · rename_i hlength
        obtain rfl := Option.some.inj hrun
        rw [hanswer]
        have hkeys : Dict.keys ((Dict.keys (leftOver cached pieces s.fresh)).zip vs) =
            Dict.keys (leftOver cached pieces s.fresh) := by
          refine List.map_fst_zip (Nat.le_of_eq ?_)
          rw [Dict.keys, List.length_map, hlength]
        refine ⟨h.take ?_ ?_ ?_ ?_ ?_ ?_, rfl, hcover _ fun k hk => ?_⟩
        · -- the i-th vector is for the i-th text, whose hash is the i-th key
          intro k v hkv
          obtain ⟨i, hi⟩ := List.mem_iff_getElem?.mp hkv
          obtain ⟨hk, hv⟩ := List.getElem?_zip_eq_some.mp hi
          obtain ⟨⟨k', u⟩, hu, rfl⟩ := Option.map_eq_some_iff.mp ((List.getElem?_map ..).symm.trans hk)
          refine ⟨vs, i, u, rfl, ?_, hv, (hleft k' u (List.mem_of_getElem? hu)).1⟩
          rw [List.getElem?_map, hu, Option.map_some]
        · intro u hu
          obtain ⟨k, hku⟩ := htexts u hu
          rw [hkeys, (hleft k u hku).1]
          exact List.mem_map_of_mem hku
        · -- equal texts would have one key
          refine List.Nodup.of_map (contentHash R) ?_
          have hmap : ((leftOver cached pieces s.fresh).map Prod.snd).map (contentHash R) =
              Dict.keys (leftOver cached pieces s.fresh) := by
            rw [List.map_map]
            exact List.map_congr_left fun e he => (hleft e.1 e.2 he).1
          rw [hmap]
          exact Dict.nodup_putAll (show (Dict.keys []).Nodup from List.nodup_nil) _
        · intro u hu
          obtain ⟨k, hku⟩ := htexts u hu
          obtain ⟨rfl, -, hf, -⟩ := hleft k u hku
          exact hf
        · intro u hu
          obtain ⟨k, hku⟩ := htexts u hu
          obtain ⟨rfl, hcache, -⟩ := hleft k u hku
          exact hcache
        · intro _ u hu
          obtain ⟨k, hku⟩ := htexts u hu
          exact (hleft k u hku).2.2.2
        · rw [Dict.mem_keys_putAll, hkeys]
          exact hk
      · exact nomatch hrun
    · exact nomatch hrun

/-! ## every call that returns -/

/-- **Every fragment has its own vector.**  When `embed_fragments` returns, the fragments are those of the pages
with just the entity pages cut that the model refused whole; each has its hash in the cache or a fresh vector;
a fresh vector is the one the model gave for a text with its hash; no text is sent that the cache holds, none is
accepted twice, and every text of the batch fits in the safe bytes. -/
theorem embeds_all {embed : List (Call V) → List Text → Answer V} {cache : Option (List Text)}
    {rows : List PageRow} {out : Embedded V} (h : embedFragments R embed cache rows = some out) :
    (∃ cut, out.pieces = pageFragments R rows cut ∧ ∀ path, path ∈ cut ↔ Refused out.calls path) ∧
    (∀ k, k ∈ out.cached ↔ (∃ piece ∈ out.pieces, piece.contentHash = k) ∧ k ∈ cache.getD []) ∧
    (∀ piece ∈ out.pieces, piece.contentHash ∈ out.cached ∨ piece.contentHash ∈ Dict.keys out.fresh) ∧
    (Dict.keys out.fresh).Nodup ∧
    (∀ k v, (k, v) ∈ out.fresh → ∃ c ∈ out.calls, c.Gives R k v) ∧
    (∀ c ∈ out.calls, ∀ t ∈ c.texts, contentHash R t ∉ cache.getD []) ∧
    (accepted out.calls).Nodup ∧
    ∀ c ∈ out.calls, c.page = none → ∀ t ∈ c.texts, size t ≤ WHOLE_SAFE_BYTES := by
  unfold embedFragments at h
  dsimp only at h
  split at h
  · exact nomatch h
  · rename_i s hs
    obtain ⟨hsent, -, -, hlarge⟩ := (sent_start R cache).alone (known_pageFragments rows []) hs
    -- without a refusal the pieces are those of no cut
    have hpieces : (if s.refused.isEmpty then pageFragments R rows [] else pageFragments R rows s.refused) =
        pageFragments R rows s.refused := by
      split
      · rename_i hempty
        rw [List.isEmpty_iff.mp hempty]
      · rfl
    have hcached : (if s.refused.isEmpty then cachedHashes cache (pageFragments R rows [])
        else cachedHashes cache (pageFragments R rows s.refused)) =
          cachedHashes cache (pageFragments R rows s.refused) := by
      split
      · rename_i hempty
        rw [List.isEmpty_iff.mp hempty]
      · rfl
    rw [hpieces, hcached] at h
    obtain ⟨t, ht, rfl⟩ := Option.map_eq_some_iff.mp h
    have hsmall : ∀ piece ∈ pageFragments R rows s.refused,
        piece.contentHash ∉ cachedHashes cache (pageFragments R rows s.refused) →
          piece.contentHash ∉ Dict.keys s.fresh → size piece.embedText ≤ WHOLE_SAFE_BYTES := by
      intro piece hpiece hc hf
      rcases small_or_whole R hpiece with hsmall | ⟨hentity, hpath, hwhole⟩
      · exact hsmall
      · by_contra hlong
        have hl : isLarge piece = true := by
          unfold isLarge
          rw [hentity, Bool.and_eq_true, decide_eq_true_eq]
          exact ⟨rfl, Nat.lt_of_not_le hlong⟩
        rcases hlarge piece hwhole hl with hc' | hf' | hp
        · exact hc (mem_cachedHashes.mpr ⟨⟨piece, hpiece, rfl⟩, (mem_cachedHashes.mp hc').2⟩)
        · exact hf hf'
        · exact hpath hp
    obtain ⟨hlast, hrefused, hcover⟩ := hsent.rest (known_pageFragments rows s.refused) hsmall ht
    refine ⟨⟨s.refused, rfl, fun path => ?_⟩, fun k => mem_cachedHashes, hcover, hlast.keys, hlast.given,
      hlast.unheld, hlast.once, hlast.small⟩
    rw [← hrefused]
    exact hlast.refused path

end

def notesRow (path body : Text) : PageRow where
  path := path
  vpath := path
  zone := "notes".toList
  pageId := []
  title := "T".toList
  body := body
  type := .note
  status := []
  entityType := []
  aliases := []
  updated := []
  acl := none
  inlinks := 0
  contentHash := []
  links := []
  sources := []
  sourceDate := []
  sourceDates := []

/-- a model that answers with the lengths of the texts -/
def lengths (_ : List (Call ℕ)) (texts : List Text) : Answer ℕ := .vectors (texts.map List.length)

/-- two pages with one text are embedded once -/
theorem embeds_all_twins : ∃ out, embedFragments ascii lengths none
    [notesRow ['a'] ['x'], notesRow ['b'] ['x'], notesRow ['c'] ['y']] = some out ∧ out.fresh.length = 2 ∧
      ∀ piece ∈ out.pieces, piece.contentHash ∈ out.cached ∨ piece.contentHash ∈ Dict.keys out.fresh := by
  have hrun : (embedFragments ascii lengths none
      [notesRow ['a'] ['x'], notesRow ['b'] ['x'], notesRow ['c'] ['y']]).any
        (fun out => out.fresh.length == 2) = true := by decide +kernel
  obtain ⟨out, hout, hlength⟩ := (Option.any_eq_true _ _).mp hrun
  exact ⟨out, hout, beq_iff_eq.mp hlength, (embeds_all hout).2.2.1⟩

end Embedding
