import Stigmergy.Knowledge.Wikilinks
import Stigmergy.Knowledge.Additive

/-!
# Links a plan may write

The wikilinks of a planned body put to the pages they name, or to plain text, from
`knowledge/writer.py`.

* `knowledgeLinkStems`   the names a link may use, each with the one page that answers to it;
* `canonicalLinks`, `resolveLinks`   the two passes over a body;
* `resolved_eq`          what they leave of each wikilink;
* `Calm`                 texts where a link is open only before a name that resolves;
* `Calm.sub`             code taken out of such a text leaves such a text;
* `resolved`             the links the index reads in the result.
-/

set_option linter.unusedSectionVars false

namespace Resolve
open Corpus Pages Lint Wikilinks
open Names (PageMutation)
open Additive (WriteContext TICK)

/-- the names in lower case with the stem of their page, nothing for one of several -/
abbrev Stems := AList fun _ : Text => Option Text

def Stems.get (stems : Stems) (key : Text) : Option Text := (stems.lookup key).getD none

section
variable (R : Runtime)

/-- `may_link` -/
def mayLink (context : WriteContext) (acl : Option (List Text)) : Bool :=
  (context.unrestricted || Additive.visible acl context.actorGroups) && flowsInto acl context.contentAcl

/-- the names of the pages there are and of those a plan creates -/
def linkNames (pages : List KnowledgePage) (mutations : List PageMutation) (context : WriteContext) :
    List (Text × Text) :=
  ((pages.filter fun p => mayLink context p.acl).flatMap fun p =>
    (stem p.path, stem p.path) :: p.aliases.map fun a => (titleStem R a, stem p.path)) ++
  (mutations.filter fun m => decide (m.action = .create)).flatMap fun m =>
    match m.role with
    | none => []
    | some role =>
      match pagePath R role (m.title.getD []) with
      | .error _ => []
      | .ok path => (stem path, stem path) :: (m.aliases.getD []).map fun a => (titleStem R a, stem path)

def addName (resolved : Stems) (name : Text × Text) : Stems :=
  let key := R.casefold name.1
  if key.isEmpty then resolved
  else resolved.insert key (if (resolved.lookup key).getD (some name.2) = some name.2 then some name.2 else none)

/-- `_knowledge_link_stems` -/
def knowledgeLinkStems (pages : List KnowledgePage) (mutations : List PageMutation) (context : WriteContext) : Stems :=
  (linkNames R pages mutations context).foldl (addName R) ∅

/-! ## the two passes -/

/-- `partition` of a link's text at the first such character: what stands before it, and behind it -/
def before (c : Char) (t : Text) : Text := t.takeWhile (· != c)
def behind (c : Char) (t : Text) : Option Text :=
  if List.elem c t then some ((t.dropWhile (· != c)).drop 1) else none

/-- the name a link's text begins with, as the writer reads it -/
def cleaned (inner : Text) : Text := Text.removeSuffix ".md".toList (Text.strip (before '#' (before '|' inner)))

variable (stems : Stems)

/-- the stem of the page a name or its stem names, empty for none -/
def canonicalStem (name : Text) : Text :=
  match (stems.get (R.casefold name)).getD [] with
  | [] => (stems.get (R.casefold (titleStem R name))).getD []
  | stem => stem

/-- what stands between the brackets after `_canonical_links` -/
def canonicalInner (inner : Text) : Text :=
  let target := before '|' inner
  let name := cleaned inner
  let canonical := canonicalStem R stems name
  if canonical.isEmpty || canonical == name then inner
  else
    canonical ++ ((behind '#' target).map ('#' :: ·)).getD [] ++ '|' :: (behind '|' inner).getD name

/-- `_canonical_links` -/
def canonicalLinks (body : Text) : Text :=
  rewrite (fun embed inner => (Segment.link embed (canonicalInner R stems inner)).spell) body

/-- the name is that of one linkable page -/
def Resolves (name : Text) : Prop := stems.get (R.casefold name) = some name

instance (name : Text) : Decidable (Resolves R stems name) := inferInstanceAs (Decidable (_ = _))

/-- what a link that does not resolve becomes -/
def shownText (inner : Text) : Text := ((behind '|' inner).map Text.strip).getD (cleaned inner)

/-- `_resolve_links`: the text, and the names that were unlinked -/
def resolveLinks (body : Text) : Text × List Text :=
  (rewrite (fun embed inner =>
      if Resolves R stems (cleaned inner) then (Segment.link embed inner).spell else shownText inner) body,
    ((Scan.found wikilink body).map cleaned).filter fun name => decide ¬Resolves R stems name)

/-- a planned body after both passes -/
def resolvedBody (body : Text) : Text := (resolveLinks R stems (canonicalLinks R stems body)).1

end

/-! ## what is left of each link -/

section
variable {R : Runtime} {stems : Stems}

/-- stems of pages: nothing in them that a link cannot hold, and none ends in `.md` in other letters -/
structure Linkable (R : Runtime) (stems : Stems) : Prop where
  safe : ∀ key v, stems.get key = some v → ∀ c ∈ v, isUnsafe c = false
  suffix : ∀ key v, stems.get key = some v → Text.endsWith ".md".toList (R.lower v) = true →
    Text.endsWith ".md".toList v = true

theorem not_isBracket_of_safe {c : Char} (h : isUnsafe c = false) :
    isBracket c = false ∧ c ≠ '#' ∧ c ≠ '|' ∧ c ≠ Char.ofNat 0x60 := by
  have hall : ∀ d ∈ ['[', ']', '#', '|', Char.ofNat 0x60], isUnsafe d = true := by decide
  have hne : ∀ d ∈ ['[', ']', '#', '|', Char.ofNat 0x60], c ≠ d := by
    rintro d hd rfl
    exact Bool.false_ne_true (h.symm.trans (hall c hd))
  refine ⟨?_, hne '#' (by decide), hne '|' (by decide), hne _ (by decide)⟩
  rw [isBracket, beq_eq_false_iff_ne.mpr (hne '[' (by decide)), beq_eq_false_iff_ne.mpr (hne ']' (by decide))]
  rfl

theorem mem_before {c d : Char} {t : Text} (h : d ∈ before c t) : d ∈ t ∧ d ≠ c := by
  refine ⟨(List.takeWhile_prefix _).subset h, ?_⟩
  have hne := List.mem_takeWhile_imp h
  exact bne_iff_ne.mp hne

theorem mem_behind {c d : Char} {t u : Text} (h : behind c t = some u) (hd : d ∈ u) : d ∈ t := by
  unfold behind at h
  split at h
  · rw [← Option.some.inj h] at hd
    exact (List.dropWhile_suffix _).subset (List.mem_of_mem_drop hd)
  · exact absurd h.symm (Option.some_ne_none _)

theorem mem_cleaned {c : Char} {inner : Text} (h : c ∈ cleaned inner) : c ∈ before '#' (before '|' inner) := by
  unfold cleaned Text.removeSuffix at h
  split at h
  · exact Text.mem_strip (List.mem_of_mem_take h)
  · exact Text.mem_strip h

theorem bracket_cleaned {inner : Text} (h : ∀ c ∈ inner, isBracket c = false) :
    ∀ c ∈ cleaned inner, isBracket c = false := fun c hc => h c (mem_before (mem_before (mem_cleaned hc)).1).1

theorem bracket_shownText {inner : Text} (h : ∀ c ∈ inner, isBracket c = false) :
    ∀ c ∈ shownText inner, isBracket c = false := by
  intro c hc
  unfold shownText at hc
  cases hb : behind '|' inner with
  | none =>
    rw [hb] at hc
    exact bracket_cleaned h c hc
  | some label =>
    rw [hb] at hc
    exact h c (mem_behind hb (Text.mem_strip hc))

theorem isInner_canonicalInner (hL : Linkable R stems) {inner : Text} (h : IsInner inner) :
    IsInner (canonicalInner R stems inner) := by
  have hstem : ∀ key, ∀ c ∈ (stems.get key).getD [], isBracket c = false := by
    intro key c hc
    cases hk : stems.get key with
    | none =>
      rw [hk] at hc
      exact absurd hc List.not_mem_nil
    | some v =>
      rw [hk] at hc
      exact (not_isBracket_of_safe (hL.safe key v hk c hc)).1
  unfold canonicalInner
  dsimp only
  split
  · exact h
  · refine ⟨List.append_ne_nil_of_right_ne_nil _ (List.cons_ne_nil _ _), ?_⟩
    simp only [List.forall_mem_append, List.forall_mem_cons]
    refine ⟨⟨?_, ?_⟩, rfl, ?_⟩
    · unfold canonicalStem
      split
      · exact hstem _
      · exact hstem _
    · intro c hc
      cases hb : behind '#' (before '|' inner) with
      | none =>
        rw [hb] at hc
        exact absurd hc List.not_mem_nil
      | some anchor =>
        rw [hb] at hc
        rcases List.mem_cons.mp hc with rfl | hc
        · rfl
        · exact h.2 c (mem_before (mem_behind hb hc)).1
    · intro c hc
      cases hb : behind '|' inner with
      | none =>
        rw [hb] at hc
        exact bracket_cleaned h.2 c hc
      | some label =>
        rw [hb] at hc
        exact h.2 c (mem_behind hb hc)

variable (R) (stems) in
/-- what both passes leave of a segment -/
def settled : Segment → List Segment
  | .plain c => [.plain c]
  | .link embed inner =>
    let i := canonicalInner R stems inner
    if Resolves R stems (cleaned i) then [.link embed i] else (shownText i).map .plain

theorem spell_map_plain (t : Text) : spell (t.map .plain) = t := by
  induction t with
  | nil => rfl
  | cons c t ih => exact congrArg (c :: ·) ih

/-- the text outside the links is as it was, and each link is one that resolves, or its text -/
theorem resolved_eq (hL : Linkable R stems) (body : Text) :
    resolvedBody R stems body = spell ((segments body).flatMap (settled R stems)) := by
  have hcanonical : canonicalLinks R stems body =
      spell ((segments body).map (Segment.relabel fun _ inner => canonicalInner R stems inner)) := by
    rw [canonicalLinks, sub_segments, spell, List.flatMap_map]
    refine List.flatMap_congr fun s _ => ?_
    cases s <;> rfl
  have hcut := (cut_segments body).1.relabel (f := fun _ inner => canonicalInner R stems inner)
    fun embed inner hmem => isInner_canonicalInner hL (inner_of_mem hmem)
  rw [resolvedBody, resolveLinks, hcanonical]
  dsimp only
  rw [sub_segments, hcut.segments_spell, List.flatMap_map]
  rw [spell, List.flatMap_assoc]
  refine List.flatMap_congr fun s _ => ?_
  cases s with
  | plain c => rfl
  | link embed inner =>
    show (if Resolves R stems (cleaned (canonicalInner R stems inner)) then _ else _) = _
    unfold settled
    dsimp only
    split
    · exact (List.append_nil _).symm
    · exact (spell_map_plain _).symm

/-! ## brackets that stay apart -/

/-- two brackets open only before a name with the property, up to its anchor, its label or its end -/
inductive Calm (P : Text → Prop) : Text → Prop where
  | nil : Calm P []
  | char {c : Char} {t : Text} (hc : c ≠ '[') (ht : Calm P t) : Calm P (c :: t)
  | loose {t : Text} (hnext : ∀ c, t.head? = some c → c ≠ '[' ∧ c ≠ TICK) (ht : Calm P t) : Calm P ('[' :: t)
  | opening {x t : Text} (hP : P x) (hx : ∀ c ∈ x, isBracket c = false ∧ c ≠ '#' ∧ c ≠ '|' ∧ c ≠ TICK)
      (hnext : t.head? = some '#' ∨ t.head? = some '|' ∨ ∃ u, t = ']' :: ']' :: u) (ht : Calm P t) :
      Calm P ('[' :: '[' :: (x ++ t))

variable {P : Text → Prop}

theorem Calm.append {w t : Text} (hw : ∀ c ∈ w, isBracket c = false) (h : Calm P t) : Calm P (w ++ t) := by
  induction w with
  | nil => exact h
  | cons c w ih =>
    refine .char ?_ (ih fun d hd => hw d (List.mem_cons_of_mem _ hd))
    rintro rfl
    exact absurd (hw '[' List.mem_cons_self) (by decide)

/-- what stands behind a backtick -/
theorem Calm.tail {a t : Text} (h : Calm P (a ++ TICK :: t)) : Calm P t := by
  generalize hs : a ++ TICK :: t = s at h
  induction h generalizing a with
  | nil => exact absurd hs (by simp)
  | char _ ht ih =>
    cases a with
    | nil =>
      rw [(List.cons.inj hs).2]
      exact ht
    | cons d a => exact ih (List.cons.inj hs).2
  | loose _ ht ih =>
    cases a with
    | nil => exact absurd (List.cons.inj hs).1 (by decide)
    | cons d a => exact ih (List.cons.inj hs).2
  | @opening x u _ hx _ _ ih =>
    cases a with
    | nil => exact absurd (List.cons.inj hs).1 (by decide)
    | cons d a =>
      cases a with
      | nil => exact absurd (List.cons.inj (List.cons.inj hs).2).1 (by decide)
      | cons e a =>
        have hrest := (List.cons.inj (List.cons.inj hs).2).2
        rcases List.append_eq_append_iff.mp hrest with ⟨v, hv, hv'⟩ | ⟨v, hv, hv'⟩
        · cases v with
          | nil => exact ih (a := []) hv'
          | cons f v =>
            have hf := (hx f (hv ▸ List.mem_append_right _ List.mem_cons_self)).2.2.2
            exact absurd (List.cons.inj hv').1.symm hf
        · exact ih hv'.symm

/-- a matcher of code: what it takes begins and ends with a backtick, and nothing stands for it -/
def Ticked (m : Text → Option (ℕ × Text)) : Prop := ∀ t n r, m t = some (n, r) →
  r = [] ∧ ∃ mid rest, t = TICK :: (mid ++ TICK :: rest) ∧ n = mid.length + 2

theorem ticked_inlineCode : Ticked inlineCode := by
  intro t n r h
  unfold inlineCode at h
  split at h
  · next t =>
    dsimp only at h
    split at h
    · next hlt =>
      obtain ⟨rfl, rfl⟩ := Prod.mk.inj (Option.some.inj h)
      have hsplit := (List.takeWhile_append_dropWhile (p := fun c => c != TICK) (l := t)).symm
      cases hd : t.dropWhile fun c => c != TICK with
      | nil =>
        rw [hd, List.append_nil] at hsplit
        change (t.takeWhile fun c => c != TICK).length < t.length at hlt
        rw [← hsplit] at hlt
        exact absurd hlt (lt_irrefl _)
      | cons c u =>
        have hc : c = TICK := by
          have hhead := List.head_dropWhile_not (p := fun c => c != TICK) (l := t) (by rw [hd]; exact List.cons_ne_nil c u)
          simp only [hd, List.head_cons, bne_eq_false_iff_eq] at hhead
          exact hhead
        refine ⟨rfl, t.takeWhile fun c => c != TICK, u, ?_, rfl⟩
        conv_lhs => rw [hsplit, hd, hc]
        rfl
    · exact absurd h.symm (Option.some_ne_none _)
  · exact absurd h.symm (Option.some_ne_none _)

theorem ticked_fence : Ticked fence := by
  intro t n r h
  unfold fence at h
  split at h
  · next hopen =>
    obtain ⟨u, rfl⟩ := List.isPrefixOf_iff_prefix.mp hopen
    obtain ⟨⟨a, b⟩, hfind, heq⟩ := Option.map_eq_some_iff.mp h
    obtain ⟨rfl, rfl⟩ := Prod.mk.inj heq
    have hu : u = a ++ [TICK, TICK, TICK] ++ b := Search.find_eq_some hfind
    refine ⟨rfl, TICK :: TICK :: (a ++ [TICK, TICK]), b, ?_, ?_⟩
    · rw [hu]
      simp only [List.cons_append, List.append_assoc, List.nil_append]
      rfl
    · simp only [List.length_cons, List.length_append, List.length_nil]
  · exact absurd h.symm (Option.some_ne_none _)

theorem sub_cons_none {m : Text → Option (ℕ × Text)} {c : Char} {t : Text} (h : m (c :: t) = none) :
    Scan.sub m (c :: t) = c :: Scan.sub m t := by
  rw [Scan.sub, Scan.subFrom, h]
  rfl

theorem Ticked.none {m : Text → Option (ℕ × Text)} (hm : Ticked m) {c : Char} (hc : c ≠ TICK) (t : Text) :
    m (c :: t) = none := by
  cases h : m (c :: t) with
  | none => rfl
  | some e =>
    obtain ⟨-, mid, rest, ht, -⟩ := hm _ e.1 e.2 h
    exact absurd (List.cons.inj ht).1 hc

theorem Ticked.sub_append {m : Text → Option (ℕ × Text)} (hm : Ticked m) {w : Text} (hw : ∀ c ∈ w, c ≠ TICK)
    (t : Text) : Scan.sub m (w ++ t) = w ++ Scan.sub m t := by
  induction w with
  | nil => rfl
  | cons c w ih =>
    rw [List.cons_append, sub_cons_none (hm.none (hw c List.mem_cons_self) _),
      ih fun d hd => hw d (List.mem_cons_of_mem _ hd)]
    rfl

theorem Ticked.sub_match {m : Text → Option (ℕ × Text)} (hm : Ticked m) {t : Text} {e : ℕ × Text} (h : m t = some e) :
    ∃ mid rest, t = TICK :: (mid ++ TICK :: rest) ∧ Scan.sub m t = Scan.sub m rest := by
  obtain ⟨n, r⟩ := e
  obtain ⟨rfl, mid, rest, rfl, rfl⟩ := hm t n r h
  refine ⟨mid, rest, rfl, ?_⟩
  rw [Scan.sub, Scan.subFrom, h]
  show [] ++ Scan.subFrom m (mid.length + 1) (mid ++ TICK :: rest) = Scan.sub m rest
  rw [Scan.subFrom_drop, ← List.drop_drop, List.drop_left]
  rfl

theorem Ticked.sub_nil {m : Text → Option (ℕ × Text)} : Scan.sub m [] = [] := rfl

/-- the first character of a text without code is that of the text -/
theorem Ticked.head?_sub {m : Text → Option (ℕ × Text)} (hm : Ticked m) {t : Text} {c : Char} (hc : c ≠ TICK)
    (h : t.head? = some c) : (Scan.sub m t).head? = some c := by
  obtain ⟨u, rfl⟩ := List.head?_eq_some_iff.mp h
  rw [sub_cons_none (hm.none hc u)]
  rfl

/-- code taken out of a calm text leaves a calm text -/
theorem Calm.sub {m : Text → Option (ℕ × Text)} (hm : Ticked m) {t : Text} (h : Calm P t) : Calm P (Scan.sub m t) := by
  induction hn : t.length using Nat.strong_induction_on generalizing t with
  | _ n ih =>
    have hless : ∀ {u : Text}, Calm P u → u.length < t.length → Calm P (Scan.sub m u) := fun hu hlt =>
      ih _ (hn ▸ hlt) hu rfl
    cases h with
    | nil => exact .nil
    | @char c t hc ht =>
      cases hmatch : m (c :: t) with
      | none =>
        rw [sub_cons_none hmatch]
        exact .char hc (hless ht (Nat.lt_succ_self _))
      | some e =>
        obtain ⟨mid, rest, heq, hsub⟩ := hm.sub_match hmatch
        have hwhole : Calm P ((TICK :: mid) ++ TICK :: rest) := by
          rw [List.cons_append, ← heq]
          exact .char hc ht
        have hcalm : Calm P rest := hwhole.tail
        rw [hsub]
        refine hless hcalm ?_
        rw [heq]
        simp only [List.length_cons, List.length_append]
        omega
    | @loose t hnext ht =>
      rw [sub_cons_none (hm.none (by decide) _)]
      refine .loose ?_ (hless ht (Nat.lt_succ_self _))
      cases t with
      | nil => exact fun c hc => absurd hc.symm (Option.some_ne_none c)
      | cons d t =>
        obtain ⟨hd, htick⟩ := hnext d rfl
        rw [sub_cons_none (hm.none htick _)]
        rintro c hc
        obtain rfl := Option.some.inj hc
        exact ⟨hd, htick⟩
    | @opening x t hP hx hnext ht =>
      have hw : ∀ c ∈ '[' :: '[' :: x, c ≠ TICK := by
        simp only [List.forall_mem_cons]
        exact ⟨by decide, by decide, fun c hc => (hx c hc).2.2.2⟩
      rw [show '[' :: '[' :: (x ++ t) = ('[' :: '[' :: x) ++ t from rfl, hm.sub_append hw]
      refine .opening hP hx ?_ (hless ht ?_)
      · rcases hnext with h | h | ⟨u, rfl⟩
        · exact Or.inl (hm.head?_sub (by decide) h)
        · exact Or.inr (Or.inl (hm.head?_sub (by decide) h))
        · refine Or.inr (Or.inr ⟨Scan.sub m u, ?_⟩)
          rw [sub_cons_none (hm.none (by decide) _), sub_cons_none (hm.none (by decide) _)]
      · simp only [List.length_cons, List.length_append]
        omega

/-- an open pair of brackets in a calm text stands before a name -/
theorem Calm.opens {a inner u : Text} (hinner : IsInner inner) (h : Calm P (a ++ '[' :: '[' :: (inner ++ ']' :: u))) :
    ∃ x w, P x ∧ (∀ c ∈ x, c ≠ '#' ∧ c ≠ '|') ∧ inner = x ++ w ∧ (w = [] ∨ w.head? = some '#' ∨ w.head? = some '|') := by
  generalize hs : a ++ '[' :: '[' :: (inner ++ ']' :: u) = s at h
  induction h generalizing a with
  | nil => exact absurd hs (by simp)
  | char hc _ ih =>
    cases a with
    | nil => exact absurd (List.cons.inj hs).1.symm hc
    | cons d a => exact ih (List.cons.inj hs).2
  | loose hnext _ ih =>
    cases a with
    | nil =>
      have hhead := hnext '[' (by rw [← (List.cons.inj hs).2]; rfl)
      exact absurd rfl hhead.1
    | cons d a => exact ih (List.cons.inj hs).2
  | @opening x t hP hx hnext _ ih =>
    have hnb : ∀ c ∈ x, c ≠ '[' ∧ c ≠ ']' := by
      intro c hc
      have hb := (hx c hc).1
      refine ⟨?_, ?_⟩
      · rintro rfl
        exact absurd hb (by decide)
      · rintro rfl
        exact absurd hb (by decide)
    have hopen : t.head? ≠ some '[' := by
      rcases hnext with h | h | ⟨v, rfl⟩
      · rw [h]
        decide
      · rw [h]
        decide
      · exact fun heq => absurd (Option.some.inj heq) (by decide)
    cases a with
    | nil =>
      have hrest := (List.cons.inj (List.cons.inj hs).2).2
      refine ⟨x, ?_⟩
      rcases List.append_eq_append_iff.mp hrest with ⟨v, hv, hv'⟩ | ⟨v, hv, hv'⟩
      · cases v with
        | nil =>
          rw [List.append_nil] at hv
          exact ⟨[], hP, fun c hc => ⟨(hx c hc).2.1, (hx c hc).2.2.1⟩, by rw [hv, List.append_nil], Or.inl rfl⟩
        | cons c v =>
          have hc := (hnb c (hv ▸ List.mem_append_right _ List.mem_cons_self)).2
          exact absurd (List.cons.inj hv').1.symm hc
      · refine ⟨v, hP, fun c hc => ⟨(hx c hc).2.1, (hx c hc).2.2.1⟩, hv, ?_⟩
        cases v with
        | nil => exact Or.inl rfl
        | cons c v =>
          refine Or.inr ?_
          rcases hnext with h | h | ⟨w, rfl⟩
          · rw [hv'] at h
            exact Or.inl h
          · rw [hv'] at h
            exact Or.inr h
          · have hc := hinner.2 c (hv ▸ List.mem_append_right _ List.mem_cons_self)
            rw [← (List.cons.inj hv').1] at hc
            exact absurd hc (by decide)
    | cons d a =>
      cases a with
      | nil =>
        have hrest := (List.cons.inj (List.cons.inj hs).2).2
        cases x with
        | nil => exact absurd (by rw [← show _ = t from hrest]; rfl) hopen
        | cons c x => exact absurd (List.cons.inj hrest).1.symm (hnb c List.mem_cons_self).1
      | cons e a =>
        have hrest := (List.cons.inj (List.cons.inj hs).2).2
        rcases List.append_eq_append_iff.mp hrest with ⟨v, hv, hv'⟩ | ⟨v, hv, hv'⟩
        · cases v with
          | nil => exact ih (a := []) hv'
          | cons f v =>
            have hf := (hnb f (hv ▸ List.mem_append_right _ List.mem_cons_self)).1
            exact absurd (List.cons.inj hv').1.symm hf
        · exact ih hv'.symm

/-! ## the links of the result -/

theorem split_before (c : Char) (t : Text) : ∃ w, t = before c t ++ w ∧ (w = [] ∨ w.head? = some c) := by
  refine ⟨t.dropWhile (· != c), List.takeWhile_append_dropWhile.symm, ?_⟩
  cases hd : t.dropWhile (· != c) with
  | nil => exact Or.inl rfl
  | cons d u =>
    have hhead := List.head_dropWhile_not (p := (· != c)) (l := t) (by rw [hd]; exact List.cons_ne_nil d u)
    simp only [hd, List.head_cons, bne_eq_false_iff_eq] at hhead
    exact Or.inr (congrArg some hhead)

theorem split_name (inner : Text) : ∃ w, inner = before '#' (before '|' inner) ++ w ∧
    (w = [] ∨ w.head? = some '#' ∨ w.head? = some '|') := by
  obtain ⟨u, hu, hhead⟩ := split_before '|' inner
  obtain ⟨v, hv, hhead'⟩ := split_before '#' (before '|' inner)
  refine ⟨v ++ u, ?_, ?_⟩
  · rw [← List.append_assoc, ← hv]
    exact hu
  · rcases hhead' with rfl | h
    · rcases hhead with rfl | h
      · exact Or.inl rfl
      · exact Or.inr (Or.inr h)
    · refine Or.inr (Or.inl ?_)
      rw [List.head?_append, h]
      rfl

theorem before_append {c : Char} {x w : Text} (hx : ∀ d ∈ x, d ≠ c) : before c (x ++ w) = x ++ before c w :=
  List.takeWhile_append_of_pos fun d hd => bne_iff_ne.mpr (hx d hd)

/-- a link's name is read up to its anchor or its label -/
theorem linkName_append {x w : Text} (hx : ∀ c ∈ x, c ≠ '#' ∧ c ≠ '|')
    (hw : w = [] ∨ w.head? = some '#' ∨ w.head? = some '|') : linkName R (x ++ w) = linkName R x := by
  have hname : before '#' (before '|' (x ++ w)) = before '#' (before '|' x) := by
    have hself : before '#' (before '|' x) = x := by
      have h1 := before_append (w := []) (fun d hd => (hx d hd).2)
      have h2 := before_append (w := []) (fun d hd => (hx d hd).1)
      rw [List.append_nil] at h1 h2
      rw [h1, show before '|' [] = [] from rfl, List.append_nil, h2]
      exact List.append_nil x
    rw [hself, before_append fun d hd => (hx d hd).2, before_append fun d hd => (hx d hd).1]
    rcases hw with rfl | h | h
    · exact List.append_nil x
    · obtain ⟨u, rfl⟩ := List.head?_eq_some_iff.mp h
      rw [show before '|' ('#' :: u) = '#' :: before '|' u from rfl]
      exact List.append_nil x
    · obtain ⟨u, rfl⟩ := List.head?_eq_some_iff.mp h
      exact List.append_nil x
  have hread : ∀ t : Text, linkName R t =
      if Text.endsWith ".md".toList (R.lower (Text.strip (before '#' (before '|' t)))) then
        (Text.strip (before '#' (before '|' t))).take ((Text.strip (before '#' (before '|' t))).length - 3)
      else Text.strip (before '#' (before '|' t)) := fun _ => rfl
  rw [hread, hread, hname]

/-- the index reads the name of a link that resolves as the writer does -/
theorem linkName_of_resolves (hL : Linkable R stems)
    (hlower : ∀ t, Text.endsWith ".md".toList t = true → Text.endsWith ".md".toList (R.lower t) = true)
    {inner : Text} (h : Resolves R stems (cleaned inner)) : linkName R inner = cleaned inner := by
  show (if Text.endsWith ".md".toList (R.lower (Text.strip (before '#' (before '|' inner)))) = true then
      (Text.strip (before '#' (before '|' inner))).take ((Text.strip (before '#' (before '|' inner))).length - 3)
    else Text.strip (before '#' (before '|' inner))) = _
  unfold cleaned Text.removeSuffix at h ⊢
  by_cases hsuffix : ".md".toList.isSuffixOf (Text.strip (before '#' (before '|' inner))) = true
  · rw [if_pos (hlower _ hsuffix), if_pos hsuffix]
    rfl
  · rw [if_neg hsuffix] at h
    rw [if_neg fun hl => hsuffix (hL.suffix _ _ h hl), if_neg hsuffix]

/-- the name of a link that resolves has no code in it -/
theorem not_tick_of_resolves (hL : Linkable R stems) {inner : Text} (h : Resolves R stems (cleaned inner)) :
    ∀ c ∈ before '#' (before '|' inner), c ≠ TICK := by
  rintro c hc rfl
  have hstrip : TICK ∈ Text.strip (before '#' (before '|' inner)) := by
    have hfilter := Text.filter_strip (p := fun c => c == TICK) (t := before '#' (before '|' inner)) fun c hc => by
      rw [beq_eq_false_iff_ne]
      rintro rfl
      exact absurd hc (by decide)
    have hmem : TICK ∈ (Text.strip (before '#' (before '|' inner))).filter fun c => c == TICK := by
      rw [hfilter]
      exact List.mem_filter.mpr ⟨hc, beq_self_eq_true _⟩
    exact List.mem_of_mem_filter hmem
  have hclean : TICK ∈ cleaned inner := by
    unfold cleaned Text.removeSuffix
    split
    · next hs =>
      obtain ⟨u, hu⟩ := List.isSuffixOf_iff_suffix.mp hs
      rw [← hu] at hstrip ⊢
      rw [List.length_append, Nat.add_sub_cancel, List.take_left]
      rcases List.mem_append.mp hstrip with h | h
      · exact h
      · exact absurd h (by decide)
    · exact hstrip
  exact Bool.false_ne_true ((hL.safe _ _ h TICK hclean).symm.trans (by decide))

/-- no opening bracket outside the links stands before another, before code or before a link -/
def Loose (l : List Segment) : Prop := ∀ a b, l = a ++ .plain '[' :: b →
  b = [] ∨ ∃ c k, b = .plain c :: k ∧ c ≠ '[' ∧ c ≠ TICK

theorem Loose.tail {s : Segment} {l : List Segment} (h : Loose (s :: l)) : Loose l := fun a b hl =>
  h (s :: a) b (congrArg (s :: ·) hl)

theorem calm_settled (hL : Linkable R stems)
    (hlower : ∀ t, Text.endsWith ".md".toList t = true → Text.endsWith ".md".toList (R.lower t) = true)
    {l : List Segment} (hin : ∀ embed inner, .link embed inner ∈ l → IsInner inner) (hloose : Loose l) :
    Calm (fun x => Resolves R stems (linkName R x)) (spell (l.flatMap (settled R stems))) := by
  induction l with
  | nil => exact .nil
  | cons s l ih =>
    have ih := ih (fun embed inner hmem => hin embed inner (List.mem_cons_of_mem _ hmem)) hloose.tail
    rw [List.flatMap_cons, spell_append]
    cases s with
    | plain c =>
      show Calm _ (c :: spell (l.flatMap (settled R stems)))
      by_cases hc : c = '['
      · subst hc
        refine .loose ?_ ih
        rcases hloose [] l rfl with rfl | ⟨d, k, rfl, hd⟩
        · exact fun c hc => absurd hc.symm (Option.some_ne_none c)
        · rintro c hc
          obtain rfl := Option.some.inj (show some d = some c from hc)
          exact hd
      · exact .char hc ih
    | link embed inner =>
      have hinner := isInner_canonicalInner hL (hin embed inner List.mem_cons_self)
      unfold settled
      dsimp only
      split
      · next hres =>
        rw [show spell [.link embed (canonicalInner R stems inner)] =
          (Segment.link embed (canonicalInner R stems inner)).spell from List.append_nil _, spell_link]
        obtain ⟨w, hw, hhead⟩ := split_name (canonicalInner R stems inner)
        have hname : ∀ c ∈ before '#' (before '|' (canonicalInner R stems inner)),
            isBracket c = false ∧ c ≠ '#' ∧ c ≠ '|' ∧ c ≠ TICK := by
          intro c hc
          obtain ⟨h1, hne⟩ := mem_before hc
          obtain ⟨h2, hne'⟩ := mem_before h1
          exact ⟨hinner.2 c h2, hne, hne', not_tick_of_resolves hL hres c hc⟩
        have hlink : linkName R (before '#' (before '|' (canonicalInner R stems inner))) =
            cleaned (canonicalInner R stems inner) := by
          rw [← linkName_of_resolves hL hlower hres]
          conv_rhs => rw [hw]
          exact (linkName_append (fun c hc => ⟨(hname c hc).2.1, (hname c hc).2.2.1⟩) hhead).symm
        have hopen : Calm (fun x => Resolves R stems (linkName R x)) ('[' :: '[' ::
            (canonicalInner R stems inner ++ ']' :: ']' :: spell (l.flatMap (settled R stems)))) := by
          conv => rw [hw, List.append_assoc]
          refine .opening (by rw [hlink]; exact hres) hname ?_ ?_
          · rcases hhead with rfl | h | h
            · exact Or.inr (Or.inr ⟨_, rfl⟩)
            · exact Or.inl (by rw [List.head?_append, h]; rfl)
            · exact Or.inr (Or.inl (by rw [List.head?_append, h]; rfl))
          · refine Calm.append (fun c hc => hinner.2 c (by rw [hw]; exact List.mem_append_right _ hc)) ?_
            exact .char (by decide) (.char (by decide) ih)
        cases embed with
        | true => exact .char (by decide) hopen
        | false => exact hopen
      · rw [spell_map_plain]
        exact Calm.append (bracket_shownText hinner.2) ih

variable (R) (stems) in
/-- the links of a body that stay links -/
def keptInner : Segment → Option Text
  | .plain _ => none
  | .link _ inner =>
    let i := canonicalInner R stems inner
    if Resolves R stems (cleaned i) then some i else none

theorem found_settled (hL : Linkable R stems) {l : List Segment}
    (hin : ∀ embed inner, .link embed inner ∈ l → IsInner inner) (hloose : Loose l) :
    Scan.found wikilink (spell (l.flatMap (settled R stems))) = l.filterMap (keptInner R stems) := by
  induction l with
  | nil => rfl
  | cons s l ih =>
    have ih := ih (fun embed inner hmem => hin embed inner (List.mem_cons_of_mem _ hmem)) hloose.tail
    rw [List.flatMap_cons, spell_append]
    cases s with
    | plain c =>
      rw [List.filterMap_cons_none rfl, ← ih]
      by_cases hc : c = '['
      · subst hc
        refine found_apart ?_
        rcases hloose [] l rfl with rfl | ⟨d, k, rfl, hd, -⟩
        · exact fun h => absurd h.symm (Option.some_ne_none _)
        · exact fun h => hd (Option.some.inj h)
      · exact found_char hc _
    | link embed inner =>
      have hinner := isInner_canonicalInner hL (hin embed inner List.mem_cons_self)
      by_cases hres : Resolves R stems (cleaned (canonicalInner R stems inner))
      · have hkept : keptInner R stems (.link embed inner) = some (canonicalInner R stems inner) := if_pos hres
        have hsettled : settled R stems (.link embed inner) = [.link embed (canonicalInner R stems inner)] := if_pos hres
        rw [List.filterMap_cons_some hkept, ← ih, hsettled]
        rw [show spell [.link embed (canonicalInner R stems inner)] =
          (Segment.link embed (canonicalInner R stems inner)).spell from List.append_nil _]
        exact found_link hinner embed _
      · have hkept : keptInner R stems (.link embed inner) = none := if_neg hres
        have hsettled : settled R stems (.link embed inner) = (shownText (canonicalInner R stems inner)).map .plain :=
          if_neg hres
        rw [List.filterMap_cons_none hkept, ← ih, hsettled, spell_map_plain]
        exact found_text (bracket_shownText hinner.2) _

theorem Calm.found {t inner : Text} (h : Calm P t) (hmem : inner ∈ Scan.found wikilink t) :
    ∃ x w, P x ∧ (∀ c ∈ x, c ≠ '#' ∧ c ≠ '|') ∧ inner = x ++ w ∧ (w = [] ∨ w.head? = some '#' ∨ w.head? = some '|') := by
  obtain ⟨s, n, ⟨a, rfl⟩, hm⟩ := Scan.mem_found hmem
  obtain ⟨hinner, embed, rest, rfl, -, -⟩ := wikilink_eq_some.mp hm
  rw [spell_link, ← List.append_assoc] at h
  exact h.opens hinner

theorem stem_pagePath {role : Role} {title path : Text} (h : pagePath R role title = .ok path) :
    stem path = titleStem R title := by
  obtain ⟨-, rfl⟩ := pagePath_eq_ok R h
  have hslash : ∀ c ∈ (titleStem R title ++ ".md".toList).reverse, (c != '/') = true := by
    intro c hc
    rw [bne_iff_ne]
    rintro rfl
    rcases List.mem_append.mp (List.mem_reverse.mp hc) with h | h
    · exact absurd (isUnsafe_titleStem R _ h) (by decide)
    · exact absurd h (by decide)
  have hsplit : (role.folder ++ '/' :: titleStem R title ++ ".md".toList).reverse =
      (titleStem R title ++ ".md".toList).reverse ++ '/' :: role.folder.reverse := by
    simp only [List.reverse_append, List.reverse_cons, List.append_assoc, List.singleton_append]
  unfold stem
  rw [hsplit, List.takeWhile_append_of_pos hslash, List.takeWhile_cons_of_neg (by decide), List.append_nil,
    List.reverse_reverse]
  have hsuffix : ".md".toList.isSuffixOf (titleStem R title ++ ".md".toList) = true :=
    List.isSuffixOf_iff_suffix.mpr (List.suffix_append _ _)
  rw [Text.removeSuffix, if_pos hsuffix, List.length_append, Nat.add_sub_cancel, List.take_left]

theorem get_addName {resolved : Stems} {name : Text × Text} {key v : Text}
    (h : (addName R resolved name).get key = some v) : v = name.2 ∨ resolved.get key = some v := by
  unfold addName at h
  dsimp only at h
  split at h
  · exact Or.inr h
  · by_cases hkey : key = R.casefold name.1
    · rw [hkey, Stems.get, AList.lookup_insert, Option.getD_some] at h
      split at h
      · exact Or.inl (Option.some.inj h).symm
      · exact absurd h.symm (Option.some_ne_none v)
    · rw [Stems.get, AList.lookup_insert_ne hkey] at h
      exact Or.inr h

/-- the stems a link may use are names of files -/
theorem safe_knowledgeLinkStems {pages : List KnowledgePage} (hpages : ∀ p ∈ pages, pagePath R p.role p.title = .ok p.path)
    (mutations : List PageMutation) (context : WriteContext) {key v : Text}
    (h : (knowledgeLinkStems R pages mutations context).get key = some v) : ∀ c ∈ v, isUnsafe c = false := by
  have hfold : ∀ (names : List (Text × Text)) (resolved : Stems), (names.foldl (addName R) resolved).get key = some v →
      (∃ n ∈ names, v = n.2) ∨ resolved.get key = some v := by
    intro names
    induction names with
    | nil => exact fun resolved h => Or.inr h
    | cons n names ih =>
      intro resolved h
      rcases ih _ h with ⟨m, hm, hv⟩ | h
      · exact Or.inl ⟨m, List.mem_cons_of_mem _ hm, hv⟩
      · rcases get_addName h with hv | h
        · exact Or.inl ⟨n, List.mem_cons_self, hv⟩
        · exact Or.inr h
  rcases hfold _ _ h with ⟨n, hn, rfl⟩ | hempty
  · rcases List.mem_append.mp hn with hn | hn
    · obtain ⟨p, hp, hn⟩ := List.mem_flatMap.mp hn
      have hstem : n.2 = stem p.path := by
        rcases List.mem_cons.mp hn with rfl | hn
        · rfl
        · obtain ⟨a, -, rfl⟩ := List.mem_map.mp hn
          rfl
      rw [hstem, stem_pagePath (hpages p (List.mem_of_mem_filter hp))]
      exact isUnsafe_titleStem R
    · obtain ⟨m, -, hn⟩ := List.mem_flatMap.mp hn
      split at hn
      · exact absurd hn List.not_mem_nil
      · next role hrole =>
        split at hn
        · exact absurd hn List.not_mem_nil
        · next path hpath =>
          have hstem : n.2 = stem path := by
            rcases List.mem_cons.mp hn with rfl | hn
            · rfl
            · obtain ⟨a, -, rfl⟩ := List.mem_map.mp hn
              rfl
          rw [hstem, stem_pagePath hpath]
          exact isUnsafe_titleStem R
  · exact absurd hempty.symm (Option.some_ne_none v)

end

/-! ## a plan with one page to link to -/

def alphaStems : Stems := (∅ : Stems).insert "alpha".toList (some "Alpha".toList)

theorem get_alphaStems {key v : Text} (h : alphaStems.get key = some v) : v = "Alpha".toList := by
  by_cases hkey : key = "alpha".toList
  · rw [hkey, Stems.get, alphaStems, AList.lookup_insert, Option.getD_some] at h
    exact (Option.some.inj h).symm
  · rw [Stems.get, alphaStems, AList.lookup_insert_ne hkey] at h
    exact absurd h.symm (Option.some_ne_none v)

theorem linkable_alphaStems : Linkable ascii alphaStems where
  safe := fun key v h => by
    rw [get_alphaStems h]
    decide
  suffix := fun key v h => by
    rw [get_alphaStems h]
    exact fun hend => absurd hend (by decide)

theorem endsWith_lower_ascii (t : Text) (h : Text.endsWith ".md".toList t = true) :
    Text.endsWith ".md".toList (ascii.lower t) = true := by
  obtain ⟨u, rfl⟩ := List.isSuffixOf_iff_suffix.mp h
  refine List.isSuffixOf_iff_suffix.mpr ⟨u.map Ascii.lowerChar, ?_⟩
  show _ = (u ++ ".md".toList).map Ascii.lowerChar
  rw [List.map_append]
  rfl

end Resolve
