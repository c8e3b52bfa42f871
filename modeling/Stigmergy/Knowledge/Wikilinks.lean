import Stigmergy.Index.Corpus

/-!
# A text cut at its wikilinks

* `segments`        the characters and the wikilinks of a text, in order;
* `spell_segments`  they make up the text;
* `rewrite`         every wikilink replaced by a text, `re.sub`;
* `found_char`      what stands outside the brackets changes no link;
* `Cut.alike`       other links in the same places cut the text in the same places.
-/

set_option linter.unusedSectionVars false

namespace Wikilinks
open Corpus

inductive Segment where
  | plain (c : Char)
  /-- a wikilink, or with `!` an embed, and the text between its brackets -/
  | link (embed : Bool) (inner : Text)
deriving DecidableEq

def Segment.spell : Segment → Text
  | .plain c => [c]
  | .link true inner => '!' :: '[' :: '[' :: (inner ++ [']', ']'])
  | .link false inner => '[' :: '[' :: (inner ++ [']', ']'])

def spell (l : List Segment) : Text := l.flatMap Segment.spell

/-- the segments of a text behind the characters of a link still to come -/
def segmentsFrom : ℕ → Text → List Segment
  | _, [] => []
  | k + 1, _ :: t => segmentsFrom k t
  | 0, c :: t =>
    match wikilink (c :: t) with
    | some (n + 1, inner) => .link (c == '!') inner :: segmentsFrom n t
    | _ => .plain c :: segmentsFrom 0 t

def segments (t : Text) : List Segment := segmentsFrom 0 t

/-- `_WIKILINK_RE.sub`: a link by its embed mark and the text between its brackets -/
def rewrite (f : Bool → Text → Text) (t : Text) : Text :=
  Scan.sub (fun t => (wikilink t).map fun e => (e.1, f (t.head? == some '!') e.2)) t

/-- no bracket, and not empty -/
def IsInner (t : Text) : Prop := t ≠ [] ∧ ∀ c ∈ t, isBracket c = false

/-! ## one link -/

theorem takeWhile_inner {inner : Text} (h : ∀ c ∈ inner, isBracket c = false) (t : Text) :
    (inner ++ ']' :: t).takeWhile (fun c => !isBracket c) = inner := by
  rw [List.takeWhile_append_of_pos fun c hc => by rw [h c hc]; rfl, List.takeWhile_cons_of_neg (by decide),
    List.append_nil]

/-- what stands between the brackets of a link without its mark -/
def bare (u : Text) : Option Text :=
  if Text.startsWith "[[".toList u then
    let inner := (u.drop 2).takeWhile fun c => !isBracket c
    if !inner.isEmpty && Text.startsWith "]]".toList (u.drop (2 + inner.length)) then some inner else none
  else none

theorem wikilink_bang (u : Text) : wikilink ('!' :: u) = (bare u).map fun i => (1 + i.length + 4, i) := by
  unfold bare
  dsimp only
  rw [apply_ite (Option.map _), apply_ite (Option.map _)]
  rfl

theorem wikilink_plain {t : Text} (h : t.head? ≠ some '!') : wikilink t = (bare t).map fun i => (i.length + 4, i) := by
  unfold wikilink bare
  dsimp only
  rw [apply_ite (Option.map _), apply_ite (Option.map _)]
  split
  · exact absurd rfl h
  · simp only [List.drop_zero, Nat.zero_add]
    rfl

theorem bare_eq_some {u inner : Text} :
    bare u = some inner ↔ IsInner inner ∧ ∃ rest, u = '[' :: '[' :: (inner ++ ']' :: ']' :: rest) := by
  have hcut : ∀ v w : Text, ("[[".toList ++ (v ++ w)).drop (2 + v.length) = w := by
    intro v w
    rw [← List.drop_drop]
    exact List.drop_left
  unfold bare
  constructor
  · intro h
    split at h
    · next hopen =>
      obtain ⟨v, rfl⟩ := List.isPrefixOf_iff_prefix.mp hopen
      dsimp only at h
      rw [show ("[[".toList ++ v).drop 2 = v from rfl] at h
      split at h
      · next hc =>
        obtain rfl := Option.some.inj h
        obtain ⟨hne, hclose⟩ := Bool.and_eq_true _ _ ▸ hc
        have hsplit := (List.takeWhile_append_dropWhile (p := fun c => !isBracket c) (l := v)).symm
        have hdrop := hcut (v.takeWhile fun c => !isBracket c) (v.dropWhile fun c => !isBracket c)
        rw [← hsplit] at hdrop
        rw [hdrop] at hclose
        obtain ⟨rest, hrest⟩ := List.isPrefixOf_iff_prefix.mp hclose
        refine ⟨⟨fun hnil => ?_, fun c hc => ?_⟩, rest, ?_⟩
        · rw [hnil] at hne
          exact Bool.false_ne_true hne
        · have hnot := List.mem_takeWhile_imp hc
          rwa [Bool.not_eq_true'] at hnot
        · conv_lhs => rw [hsplit, ← hrest]
          rfl
      · exact absurd h.symm (Option.some_ne_none _)
    · exact absurd h.symm (Option.some_ne_none _)
  · rintro ⟨⟨hne, hinner⟩, rest, rfl⟩
    rw [if_pos (by rfl)]
    dsimp only
    rw [show ('[' :: '[' :: (inner ++ ']' :: ']' :: rest)).drop 2 = inner ++ ']' :: ']' :: rest from rfl,
      takeWhile_inner hinner, List.isEmpty_eq_false_iff.mpr hne]
    rw [show ('[' :: '[' :: (inner ++ ']' :: ']' :: rest)).drop (2 + inner.length) = ']' :: ']' :: rest from
      hcut inner (']' :: ']' :: rest), if_pos (by rfl)]

theorem spell_link (embed : Bool) (inner t : Text) : (Segment.link embed inner).spell ++ t =
    (if embed then ['!'] else []) ++ '[' :: '[' :: (inner ++ ']' :: ']' :: t) := by
  cases embed <;> simp only [Segment.spell, List.cons_append, List.append_assoc, List.nil_append, if_true,
    Bool.false_eq_true, if_false]

/-- a match is the link it reads -/
theorem wikilink_eq_some {t inner : Text} {n : ℕ} :
    wikilink t = some (n, inner) ↔ IsInner inner ∧ ∃ embed rest, t = (Segment.link embed inner).spell ++ rest ∧
      n = (Segment.link embed inner).spell.length ∧ (t.head? == some '!') = embed := by
  have hlen : ∀ embed, (Segment.link embed inner).spell.length = (if embed then 1 else 0) + inner.length + 4 := by
    intro embed
    cases embed <;> simp only [Segment.spell, List.length_cons, List.length_append, List.length_nil, if_true,
      Bool.false_eq_true, if_false] <;> omega
  by_cases hbang : t.head? = some '!'
  · obtain ⟨u, rfl⟩ : ∃ u, t = '!' :: u := List.head?_eq_some_iff.mp hbang
    rw [wikilink_bang, Option.map_eq_some_iff]
    constructor
    · rintro ⟨i, hi, heq⟩
      obtain ⟨rfl, rfl⟩ := Prod.mk.inj heq
      obtain ⟨hinner, rest, rfl⟩ := bare_eq_some.mp hi
      exact ⟨hinner, true, rest, (spell_link true i rest).symm, (hlen true).symm, rfl⟩
    · rintro ⟨hinner, embed, rest, ht, rfl, rfl⟩
      rw [spell_link] at ht
      exact ⟨inner, bare_eq_some.mpr ⟨hinner, rest, (List.cons.inj ht).2⟩, Prod.ext (hlen true).symm rfl⟩
  · have hfalse : (t.head? == some '!') = false := beq_eq_false_iff_ne.mpr hbang
    rw [wikilink_plain hbang, Option.map_eq_some_iff, hfalse]
    constructor
    · rintro ⟨i, hi, heq⟩
      obtain ⟨rfl, rfl⟩ := Prod.mk.inj heq
      obtain ⟨hinner, rest, rfl⟩ := bare_eq_some.mp hi
      refine ⟨hinner, false, rest, (spell_link false i rest).symm, ?_, rfl⟩
      rw [hlen]
      simp only [Bool.false_eq_true, if_false, Nat.zero_add]
    · rintro ⟨hinner, embed, rest, ht, rfl, rfl⟩
      rw [spell_link] at ht
      refine ⟨inner, bare_eq_some.mpr ⟨hinner, rest, ht⟩, Prod.ext ?_ rfl⟩
      rw [hlen]
      simp only [Bool.false_eq_true, if_false, Nat.zero_add]

/-! ## the cut -/

theorem segmentsFrom_drop {k : ℕ} {t : Text} : segmentsFrom k t = segmentsFrom 0 (t.drop k) := by
  induction k generalizing t with
  | zero => rfl
  | succ k ih =>
    cases t with
    | nil => rfl
    | cons c t => exact ih

theorem spell_cons (s : Segment) (l : List Segment) : spell (s :: l) = s.spell ++ spell l := List.flatMap_cons

theorem spell_append (l k : List Segment) : spell (l ++ k) = spell l ++ spell k := List.flatMap_append

/-- how a list of segments cuts what it spells -/
inductive Cut : List Segment → Prop where
  | nil : Cut []
  | plain {c : Char} {l : List Segment} (h : wikilink (c :: spell l) = none) (hl : Cut l) : Cut (.plain c :: l)
  | link {embed : Bool} {inner : Text} {l : List Segment} (h : IsInner inner) (hl : Cut l) : Cut (.link embed inner :: l)

theorem segments_link {embed : Bool} {inner : Text} (h : IsInner inner) (t : Text) :
    segments ((Segment.link embed inner).spell ++ t) = .link embed inner :: segments t := by
  have hm := (wikilink_eq_some (t := (Segment.link embed inner).spell ++ t)).mpr
    ⟨h, embed, t, rfl, rfl, by cases embed <;> rfl⟩
  obtain ⟨c, u, hu⟩ : ∃ c u, (Segment.link embed inner).spell = c :: u := by cases embed <;> exact ⟨_, _, rfl⟩
  have hc : (c == '!') = embed := by cases embed <;> cases hu <;> rfl
  rw [hu, List.cons_append] at hm ⊢
  rw [segments, segmentsFrom, hm]
  show Segment.link (c == '!') inner :: segmentsFrom u.length (u ++ t) = _
  rw [hc, segmentsFrom_drop, List.drop_left]
  rfl

theorem segments_plain {c : Char} {t : Text} (h : wikilink (c :: t) = none) :
    segments (c :: t) = .plain c :: segments t := by
  rw [segments, segmentsFrom, h]
  rfl

/-- a text is cut into what spells it -/
theorem cut_segments (t : Text) : Cut (segments t) ∧ spell (segments t) = t := by
  induction hn : t.length using Nat.strong_induction_on generalizing t with
  | _ n ih =>
    cases t with
    | nil => exact ⟨.nil, rfl⟩
    | cons c t =>
      cases hm : wikilink (c :: t) with
      | none =>
        obtain ⟨hcut, hspell⟩ := ih t.length (by rw [← hn]; exact Nat.lt_succ_self _) t rfl
        rw [segments_plain hm]
        refine ⟨.plain (by rwa [hspell]) hcut, ?_⟩
        rw [spell_cons, hspell]
        rfl
      | some e =>
        obtain ⟨hinner, embed, rest, ht, -, -⟩ := wikilink_eq_some.mp hm
        have hlen : rest.length < n := by
          rw [← hn, ht, List.length_append]
          cases embed <;> simp only [Segment.spell, List.length_cons] <;> omega
        obtain ⟨hcut, hspell⟩ := ih rest.length hlen rest rfl
        rw [ht, segments_link hinner]
        exact ⟨.link hinner hcut, by rw [spell_cons, hspell]⟩

theorem spell_segments (t : Text) : spell (segments t) = t := (cut_segments t).2

theorem Cut.segments_spell {l : List Segment} (h : Cut l) : segments (spell l) = l := by
  induction h with
  | nil => rfl
  | @plain c l h _ ih =>
    show segments (c :: spell l) = _
    rw [segments_plain h, ih]
  | link h _ ih => rw [spell_cons, segments_link h, ih]

theorem inner_of_mem {t inner : Text} {embed : Bool} (h : .link embed inner ∈ segments t) : IsInner inner := by
  have hcut := (cut_segments t).1
  generalize segments t = l at *
  induction hcut with
  | nil => exact absurd h List.not_mem_nil
  | plain _ _ ih => exact ih ((List.mem_cons.mp h).resolve_left fun heq => nomatch heq)
  | link hin _ ih =>
    rcases List.mem_cons.mp h with heq | h
    · cases heq
      exact hin
    · exact ih h

/-! ## links replaced -/

/-- what stands for a segment -/
def Segment.replaced (f : Bool → Text → Text) : Segment → Text
  | .plain c => [c]
  | .link embed inner => f embed inner

theorem sub_segments (f : Bool → Text → Text) (t : Text) :
    rewrite f t = (segments t).flatMap (Segment.replaced f) := by
  unfold rewrite Scan.sub
  obtain ⟨hcut, hspell⟩ := cut_segments t
  generalize segments t = l at hcut hspell
  subst hspell
  induction hcut with
  | nil => rfl
  | @plain c l h _ ih =>
    rw [List.flatMap_cons, ← ih]
    show Scan.subFrom _ 0 (c :: spell l) = _
    rw [Scan.subFrom, h]
    rfl
  | @link embed inner l h _ ih =>
    rw [spell_cons, List.flatMap_cons]
    have hm := (wikilink_eq_some (t := (Segment.link embed inner).spell ++ spell l)).mpr
      ⟨h, embed, spell l, rfl, rfl, by cases embed <;> rfl⟩
    have hhead : (((Segment.link embed inner).spell ++ spell l).head? == some '!') = embed := by cases embed <;> rfl
    obtain ⟨c, u, hu⟩ : ∃ c u, (Segment.link embed inner).spell = c :: u := by cases embed <;> exact ⟨_, _, rfl⟩
    rw [hu, List.cons_append] at hm hhead ⊢
    rw [Scan.subFrom, hm, Option.map_some, hhead]
    show f embed inner ++ Scan.subFrom _ u.length (u ++ spell l) = _
    rw [Scan.subFrom_drop, List.drop_left, ih]
    rfl

/-! ## links found -/

theorem found_none {c : Char} {t : Text} (h : wikilink (c :: t) = none) :
    Scan.found wikilink (c :: t) = Scan.found wikilink t := by
  rw [Scan.found, Scan.foundFrom, h]
  rfl

theorem found_link {inner : Text} (h : IsInner inner) (embed : Bool) (t : Text) :
    Scan.found wikilink ((Segment.link embed inner).spell ++ t) = inner :: Scan.found wikilink t := by
  have hm := (wikilink_eq_some (t := (Segment.link embed inner).spell ++ t)).mpr
    ⟨h, embed, t, rfl, rfl, by cases embed <;> rfl⟩
  obtain ⟨c, u, hu⟩ : ∃ c u, (Segment.link embed inner).spell = c :: u := by cases embed <;> exact ⟨_, _, rfl⟩
  rw [hu, List.cons_append] at hm ⊢
  rw [Scan.found, Scan.foundFrom, hm]
  show inner :: Scan.foundFrom wikilink u.length (u ++ t) = _
  rw [Scan.foundFrom_drop, List.drop_left]
  rfl

/-- a character that is no opening bracket changes no link -/
theorem found_char {c : Char} (hc : c ≠ '[') (t : Text) : Scan.found wikilink (c :: t) = Scan.found wikilink t := by
  by_cases hbang : c = '!'
  · subst hbang
    cases hb : bare t with
    | none => exact found_none (by rw [wikilink_bang, hb]; rfl)
    | some inner =>
      obtain ⟨hinner, rest, rfl⟩ := bare_eq_some.mp hb
      have hembed := found_link hinner true rest
      have hlink := found_link hinner false rest
      rw [spell_link] at hembed hlink
      exact hembed.trans hlink.symm
  · have hbare : bare (c :: t) = none := by
      rw [Option.eq_none_iff_forall_ne_some]
      intro inner hb
      obtain ⟨-, rest, hrest⟩ := bare_eq_some.mp hb
      exact hc (List.cons.inj hrest).1
    have hhead : (c :: t).head? ≠ some '!' := fun heq => hbang (Option.some.inj heq)
    refine found_none ?_
    rw [wikilink_plain hhead, hbare]
    rfl

theorem found_text {w : Text} (hw : ∀ c ∈ w, isBracket c = false) (t : Text) :
    Scan.found wikilink (w ++ t) = Scan.found wikilink t := by
  induction w with
  | nil => rfl
  | cons c w ih =>
    have hc : c ≠ '[' := by
      rintro rfl
      exact absurd (hw '[' List.mem_cons_self) (by decide)
    rw [List.cons_append, found_char hc, ih fun d hd => hw d (List.mem_cons_of_mem _ hd)]

/-- nor does an opening bracket that stands alone -/
theorem found_apart {t : Text} (h : t.head? ≠ some '[') : Scan.found wikilink ('[' :: t) = Scan.found wikilink t := by
  have hbare : bare ('[' :: t) = none := by
    rw [Option.eq_none_iff_forall_ne_some]
    intro inner hb
    obtain ⟨-, rest, hrest⟩ := bare_eq_some.mp hb
    exact h (by rw [(List.cons.inj hrest).2]; rfl)
  have hhead : ('[' :: t).head? ≠ some '!' := fun heq => absurd (Option.some.inj heq) (by decide)
  refine found_none ?_
  rw [wikilink_plain hhead, hbare]
  rfl

/-! ## links in the same places -/

def Segment.relabel (f : Bool → Text → Text) : Segment → Segment
  | .plain c => .plain c
  | .link embed inner => .link embed (f embed inner)

section
variable {f : Bool → Text → Text}

theorem head?_relabel (l : List Segment) : (spell (l.map (Segment.relabel f))).head? = (spell l).head? := by
  cases l with
  | nil => rfl
  | cons s l =>
    cases s with
    | plain c => rfl
    | link embed inner => cases embed <;> rfl

theorem spell_eq_bracket {l : List Segment} {c : Char} {t : Text} (hc : c ≠ '!')
    (h : spell (l.map (Segment.relabel f)) = c :: t) :
    (∃ k, l = .plain c :: k ∧ spell (k.map (Segment.relabel f)) = t) ∨
      (∃ inner k, l = .link false inner :: k ∧ c = '[' ∧ ∃ u, t = '[' :: u) := by
  cases l with
  | nil => exact absurd h.symm (List.cons_ne_nil c t)
  | cons s l =>
    cases s with
    | plain d =>
      obtain ⟨rfl, ht⟩ := List.cons.inj (show d :: spell (l.map (Segment.relabel f)) = c :: t from h)
      exact Or.inl ⟨l, rfl, ht⟩
    | link embed inner =>
      cases embed with
      | true => exact absurd (List.cons.inj h).1.symm hc
      | false =>
        obtain ⟨hc, ht⟩ := List.cons.inj h
        exact Or.inr ⟨inner, l, rfl, hc.symm, _, ht.symm⟩

/-- where a link would close does not depend on the other links -/
theorem closes_relabel {l : List Segment} {inner rest : Text} (hinner : ∀ c ∈ inner, isBracket c = false)
    (h : spell (l.map (Segment.relabel f)) = inner ++ ']' :: ']' :: rest) :
    ∃ rest', spell l = inner ++ ']' :: ']' :: rest' := by
  induction inner generalizing l with
  | nil =>
    rcases spell_eq_bracket (by decide) h with ⟨k, rfl, hk⟩ | ⟨_, _, _, hc, _⟩
    · have hhead := head?_relabel (f := f) k
      rw [hk] at hhead
      obtain ⟨rest', hrest⟩ := List.head?_eq_some_iff.mp hhead.symm
      exact ⟨rest', congrArg (']' :: ·) hrest⟩
    · exact absurd hc (by decide)
  | cons d inner ih =>
    have hd : isBracket d = false := hinner d List.mem_cons_self
    have htail : ∀ c ∈ inner, isBracket c = false := fun c hc => hinner c (List.mem_cons_of_mem _ hc)
    cases l with
    | nil => exact absurd h.symm (List.cons_ne_nil _ _)
    | cons s l =>
      cases s with
      | plain e =>
        obtain ⟨rfl, ht⟩ := List.cons.inj (show e :: spell (l.map (Segment.relabel f)) = d :: _ from h)
        obtain ⟨rest', hrest⟩ := ih htail ht
        exact ⟨rest', congrArg (e :: ·) hrest⟩
      | link embed i =>
        cases embed with
        | false =>
          rw [← (List.cons.inj h).1] at hd
          exact absurd hd (by decide)
        | true =>
          -- an embed mark before a bracket
          have ht := (List.cons.inj h).2
          cases inner with
          | nil => exact absurd (List.cons.inj ht).1 (by decide)
          | cons e inner =>
            have he : isBracket e = false := htail e List.mem_cons_self
            rw [← (List.cons.inj ht).1] at he
            exact absurd he (by decide)

theorem bare_relabel {l : List Segment} {inner : Text}
    (h : bare (spell (l.map (Segment.relabel f))) = some inner) : (bare (spell l)).isSome = true ∨
      ∃ i k, l = .link false i :: k := by
  obtain ⟨hinner, rest, ht⟩ := bare_eq_some.mp h
  rcases spell_eq_bracket (by decide) ht with ⟨k, rfl, hk⟩ | ⟨i, k, rfl, -, -⟩
  · rcases spell_eq_bracket (by decide) hk with ⟨j, rfl, hj⟩ | ⟨_, _, _, _, u, hu⟩
    · obtain ⟨rest', hrest⟩ := closes_relabel hinner.2 hj
      have hbare : bare (spell (.plain '[' :: .plain '[' :: j)) = some inner :=
        bare_eq_some.mpr ⟨hinner, rest', congrArg (fun t => '[' :: '[' :: t) hrest⟩
      exact Or.inl (by rw [hbare]; rfl)
    · obtain ⟨c, i, hci⟩ := List.exists_cons_of_ne_nil hinner.1
      rw [hci] at hu
      have hc := hinner.2 c (hci ▸ List.mem_cons_self)
      rw [(List.cons.inj hu).1] at hc
      exact absurd hc (by decide)
  · exact Or.inr ⟨i, k, rfl⟩

/-- other links in the same places cut a text in the same places -/
theorem Cut.relabel {l : List Segment} (h : Cut l)
    (hf : ∀ embed inner, .link embed inner ∈ l → IsInner (f embed inner)) : Cut (l.map (Segment.relabel f)) := by
  induction h with
  | nil => exact .nil
  | @plain c l h hl ih =>
    refine .plain ?_ (ih fun embed inner hmem => hf embed inner (List.mem_cons_of_mem _ hmem))
    cases hm : wikilink (c :: spell (l.map (Segment.relabel f))) with
    | none => rfl
    | some e =>
      exfalso
      by_cases hc : c = '!'
      · subst hc
        rw [wikilink_bang] at h hm
        obtain ⟨inner, hinner, -⟩ := Option.map_eq_some_iff.mp hm
        rcases bare_relabel hinner with hsome | ⟨i, k, rfl⟩
        · rw [Option.map_eq_none_iff.mp h] at hsome
          exact Bool.false_ne_true hsome
        · cases hl with
          | link hi _ =>
            have hbare : bare (spell (.link false i :: k)) = some i := by
              refine bare_eq_some.mpr ⟨hi, spell k, ?_⟩
              rw [spell_cons, spell_link]
              rfl
            rw [Option.map_eq_none_iff.mp h] at hbare
            exact Option.some_ne_none _ hbare.symm
      · have hhead : ∀ t : Text, (c :: t).head? ≠ some '!' := fun t heq => hc (Option.some.inj heq)
        rw [wikilink_plain (hhead _)] at h hm
        obtain ⟨inner, hinner, -⟩ := Option.map_eq_some_iff.mp hm
        rcases bare_relabel (l := .plain c :: l) hinner with hsome | ⟨i, k, hik⟩
        · rw [show spell (.plain c :: l) = c :: spell l from rfl, Option.map_eq_none_iff.mp h] at hsome
          exact Bool.false_ne_true hsome
        · exact nomatch hik
  | link _ _ ih =>
    exact .link (hf _ _ List.mem_cons_self) (ih fun embed inner hmem => hf embed inner (List.mem_cons_of_mem _ hmem))

end

end Wikilinks
