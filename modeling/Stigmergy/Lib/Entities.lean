import Stigmergy.Lib.Scan

/-!
# Escaped text and tokens

`&`, `<` and `>` are written as entities, so that `<…>` can only be a token that was put in on purpose.

* `Escaped`        no `<` and no `>`, and every `&` begins an entity;
* `escaped_cuts`   substitutions that match outside entities keep it;
* `tokens`, `openFrom`   the tokens of a text, and whether it ends inside one;
* `Mixed ws t`     escaped text with the tokens `ws`;
* `Mixed.take`     a text that is cut ends inside a token, or in part of an entity behind fewer tokens.
-/

set_option linter.unusedSectionVars false

namespace Entities

/-- what follows the `&` of an entity -/
def tails : List Text := ["amp;".toList, "lt;".toList, "gt;".toList]

structure Escaped (t : Text) : Prop where
  lower : '<' ∉ t
  upper : '>' ∉ t
  entity : ∀ v, '&' :: v <:+ t → ∃ e ∈ tails, e <+: v

/-- in no entity behind its `&` -/
def Stop (c : Char) : Prop := ∀ e ∈ tails, c ∉ e

instance (c : Char) : Decidable (Stop c) := inferInstanceAs (Decidable (∀ e ∈ tails, c ∉ e))

theorem tails_prefix {e e' : Text} (h : e ∈ tails) (h' : e' ∈ tails) (hp : e' <+: e) : e' = e := by
  have hall : ∀ e ∈ tails, ∀ e' ∈ tails, e'.isPrefixOf e = true → e' = e := by decide
  exact hall e h e' h' (List.isPrefixOf_iff_prefix.mpr hp)

theorem tails_plain {e : Text} (h : e ∈ tails) {c : Char} (hc : c ∈ e) : c ≠ '&' ∧ c ≠ '<' ∧ c ≠ '>' := by
  have hall : ∀ e ∈ tails, ∀ c ∈ e, c ≠ '&' ∧ c ≠ '<' ∧ c ≠ '>' := by decide
  exact hall e h c hc

theorem Escaped.of_plain {t : Text} (h : ∀ c ∈ t, c ≠ '&' ∧ c ≠ '<' ∧ c ≠ '>') : Escaped t where
  lower := fun hm => (h _ hm).2.1 rfl
  upper := fun hm => (h _ hm).2.2 rfl
  entity := fun _ hv => absurd rfl (h _ (hv.subset List.mem_cons_self)).1

theorem escaped_nil : Escaped [] := .of_plain fun _ hc => absurd hc List.not_mem_nil

theorem escaped_entity {e : Text} (h : e ∈ tails) : Escaped ('&' :: e) where
  lower := fun hm => (List.mem_cons.mp hm).elim (by decide) fun hm => (tails_plain h hm).2.1 rfl
  upper := fun hm => (List.mem_cons.mp hm).elim (by decide) fun hm => (tails_plain h hm).2.2 rfl
  entity := fun v hv => by
    rcases List.suffix_cons_iff.mp hv with heq | hv
    · obtain ⟨-, rfl⟩ := List.cons.inj heq
      exact ⟨v, h, List.prefix_rfl⟩
    · exact absurd rfl (tails_plain h (hv.subset List.mem_cons_self)).1

theorem Escaped.suffix {s t : Text} (h : Escaped t) (hs : s <:+ t) : Escaped s where
  lower := fun hm => h.lower (hs.subset hm)
  upper := fun hm => h.upper (hs.subset hm)
  entity := fun v hv => h.entity v (hv.trans hs)

theorem Escaped.append {s t : Text} (hs : Escaped s) (ht : Escaped t) : Escaped (s ++ t) where
  lower := fun hm => (List.mem_append.mp hm).elim hs.lower ht.lower
  upper := fun hm => (List.mem_append.mp hm).elim hs.upper ht.upper
  entity := fun v hv => by
    induction s with
    | nil => exact ht.entity v hv
    | cons c s ih =>
      rcases List.suffix_cons_iff.mp hv with heq | hv
      · obtain ⟨rfl, rfl⟩ := List.cons.inj heq
        obtain ⟨e, he, hprefix⟩ := hs.entity s List.suffix_rfl
        exact ⟨e, he, hprefix.trans (List.prefix_append s t)⟩
      · exact ih (hs.suffix (List.suffix_cons c s)) hv

/-- what an entity may begin is not cut in front of a stop -/
theorem prefix_of_stop {e v t : Text} {c : Char} (hc : c ∉ e) (h : e <+: v ++ c :: t) : e <+: v := by
  obtain ⟨w, hw⟩ := h
  rcases List.append_eq_append_iff.mp hw with ⟨x, hx, -⟩ | ⟨x, hx, hrest⟩
  · exact ⟨x, hx.symm⟩
  · cases x with
    | nil => exact ⟨[], by rw [hx, List.append_nil, List.append_nil]⟩
    | cons d x =>
      obtain ⟨rfl, -⟩ := List.cons.inj hrest
      exact absurd (by rw [hx]; exact List.mem_append_right v List.mem_cons_self) hc

theorem escaped_cuts : Scan.Cuts Stop Escaped where
  nil := escaped_nil
  append := Escaped.append
  behind := fun h => h.suffix (List.suffix_append _ _)
  front := fun {c s t} hc h =>
    { lower := fun hm => h.lower (List.mem_append_left _ hm)
      upper := fun hm => h.upper (List.mem_append_left _ hm)
      entity := fun v hv => by
        obtain ⟨u, rfl⟩ := hv
        obtain ⟨e, he, hprefix⟩ := h.entity (v ++ c :: t) ⟨u, by rw [List.append_assoc]; rfl⟩
        exact ⟨e, he, prefix_of_stop (hc e he) hprefix⟩ }

theorem Escaped.before {s t : Text} {c : Char} (h : Escaped (s ++ c :: t)) (hc : Stop c) : Escaped s :=
  escaped_cuts.front hc h

theorem Escaped.takeWhile {t : Text} (h : Escaped t) {p : Char → Bool} (hp : ∀ c, p c = false → Stop c) :
    Escaped (t.takeWhile p) := by
  have hcut := List.takeWhile_append_dropWhile (p := p) (l := t)
  cases hd : t.dropWhile p with
  | nil =>
    rw [hd, List.append_nil] at hcut
    rwa [hcut]
  | cons c u =>
    have hc : p c = false := by
      have hhead := List.head?_dropWhile_not p t
      rw [hd] at hhead
      exact hhead
    rw [← hcut, hd] at h
    exact h.before (hp c hc)

theorem Escaped.dropWhile {t : Text} (h : Escaped t) (p : Char → Bool) : Escaped (t.dropWhile p) :=
  h.suffix (List.dropWhile_suffix p)

/-! ## parts of entities -/

/-- an entity that is not finished -/
def Half (p : Text) : Prop := ∃ e ∈ tails, ∃ u v, e = u ++ v ∧ v ≠ [] ∧ p = '&' :: u

/-- an escaped text has no part of an entity in front of a stop or at its end -/
theorem Escaped.not_half {p x : Text} (h : Escaped (p ++ x)) (hx : ∀ c, x.head? = some c → Stop c) : ¬ Half p := by
  rintro ⟨e, he, u, v, rfl, hv, rfl⟩
  obtain ⟨e', he', hprefix⟩ := h.entity (u ++ x) List.suffix_rfl
  have hu : e' <+: u := by
    cases x with
    | nil => rwa [List.append_nil] at hprefix
    | cons c x => exact prefix_of_stop (hx c rfl e' he') hprefix
  obtain rfl := tails_prefix he he' (hu.trans (List.prefix_append u v))
  have hlen := hu.length_le
  rw [List.length_append] at hlen
  have := List.length_pos_iff.mpr hv
  omega

/-- an escaped text that is cut -/
theorem Escaped.take {t : Text} (h : Escaped t) (n : ℕ) :
    ∃ r p, t.take n = r ++ p ∧ Escaped r ∧ (p = [] ∨ Half p) := by
  induction hn : t.length using Nat.strongRecOn generalizing t n with
  | ind k ih =>
    subst hn
    cases n with
    | zero => exact ⟨[], [], rfl, escaped_nil, Or.inl rfl⟩
    | succ n =>
      cases t with
      | nil => exact ⟨[], [], rfl, escaped_nil, Or.inl rfl⟩
      | cons c t =>
        by_cases hc : c = '&'
        · subst hc
          obtain ⟨e, he, u, rfl⟩ := h.entity t List.suffix_rfl
          by_cases hlen : n < e.length
          · refine ⟨[], '&' :: e.take n, ?_, escaped_nil, Or.inr ⟨e, he, e.take n, e.drop n, ?_, ?_, rfl⟩⟩
            · rw [List.take_succ_cons, List.take_append_of_le_length hlen.le]
              rfl
            · exact (List.take_append_drop n e).symm
            · exact List.ne_nil_of_length_pos (by rw [List.length_drop]; omega)
          · obtain ⟨r, p, hcut, hr, hp⟩ := ih u.length (by rw [List.length_cons, List.length_append]; omega)
              (h.suffix ⟨'&' :: e, rfl⟩) (n - e.length) rfl
            refine ⟨'&' :: e ++ r, p, ?_, (escaped_entity he).append hr, hp⟩
            rw [List.take_succ_cons, List.take_append, List.take_of_length_le (Nat.le_of_not_lt hlen), hcut]
            simp
        · obtain ⟨r, p, hcut, hr, hp⟩ := ih t.length (Nat.lt_succ_self _) (h.suffix (List.suffix_cons c t)) n rfl
          refine ⟨c :: r, p, by rw [List.take_succ_cons, hcut]; rfl, ?_, hp⟩
          have hplain : Escaped [c] := .of_plain fun d hd => by
            obtain rfl := List.mem_singleton.mp hd
            exact ⟨hc, fun h' => h.lower (h' ▸ List.mem_cons_self), fun h' => h.upper (h' ▸ List.mem_cons_self)⟩
          exact hplain.append hr

/-! ## tokens -/

/-- a token at the front -/
def angle (t : Text) : Option (ℕ × Text) :=
  match t with
  | '<' :: u => (Text.find ">".toList u).map fun found => (found.1.length + 2, found.1)
  | _ => none

/-- what stands between `<` and the next `>` -/
def tokens (t : Text) : List Text := Scan.found angle t

/-- whether a text ends between `<` and `>` -/
def openFrom : Bool → Text → Bool
  | inside, [] => inside
  | inside, c :: t => openFrom (if c = '<' then true else if c = '>' then false else inside) t

theorem openFrom_append (inside : Bool) (s t : Text) : openFrom inside (s ++ t) = openFrom (openFrom inside s) t := by
  induction s generalizing inside with
  | nil => rfl
  | cons c s ih => exact ih _

theorem openFrom_of_notMem {s : Text} (hl : '<' ∉ s) (hu : '>' ∉ s) (inside : Bool) : openFrom inside s = inside := by
  induction s generalizing inside with
  | nil => rfl
  | cons c s ih =>
    have hcl : c ≠ '<' := fun h => hl (h ▸ List.mem_cons_self)
    have hcu : c ≠ '>' := fun h => hu (h ▸ List.mem_cons_self)
    rw [openFrom, if_neg hcl, if_neg hcu]
    exact ih (fun hm => hl (List.mem_cons_of_mem c hm)) (fun hm => hu (List.mem_cons_of_mem c hm)) inside

theorem openFrom_true {s : Text} (hu : '>' ∉ s) : openFrom true s = true := by
  induction s with
  | nil => rfl
  | cons c s ih =>
    have hcu : c ≠ '>' := fun h => hu (h ▸ List.mem_cons_self)
    rw [openFrom, if_neg hcu, ite_self]
    exact ih fun hm => hu (List.mem_cons_of_mem c hm)

/-- a text that ends inside a token has a `<` without a `>` behind it -/
theorem openFrom_iff {t : Text} : openFrom false t = true ↔ ∃ u v, t = u ++ '<' :: v ∧ '>' ∉ v := by
  constructor
  · have hall : ∀ inside, openFrom inside t = true →
        (inside = true ∧ '>' ∉ t) ∨ ∃ u v, t = u ++ '<' :: v ∧ '>' ∉ v := by
      induction t with
      | nil => exact fun _ h => Or.inl ⟨h, List.not_mem_nil⟩
      | cons c t ih =>
        intro inside h
        rcases ih _ h with ⟨hin, ht⟩ | ⟨u, v, rfl, hv⟩
        · by_cases hc : c = '<'
          · exact Or.inr ⟨[], t, by rw [hc]; rfl, ht⟩
          · rw [if_neg hc] at hin
            split at hin
            · exact nomatch hin
            · next hcu => exact Or.inl ⟨hin, fun hm => (List.mem_cons.mp hm).elim (fun h => hcu h.symm) ht⟩
        · exact Or.inr ⟨c :: u, v, rfl, hv⟩
    exact fun h => (hall false h).resolve_left fun hin => Bool.false_ne_true hin.1
  · rintro ⟨u, v, rfl, hv⟩
    rw [openFrom_append]
    exact openFrom_true hv

theorem angle_of_ne {t : Text} (h : t.head? ≠ some '<') : angle t = none := by
  unfold angle
  split
  · exact absurd rfl h
  · rfl

theorem find_close {w : Text} (hw : '>' ∉ w) (t : Text) : Text.find ">".toList (w ++ '>' :: t) = some (w, t) := by
  induction w with
  | nil => rfl
  | cons c w ih =>
    have hne : ('>' == c) = false := beq_false_of_ne fun h => hw (h ▸ List.mem_cons_self)
    have hfront : (">".toList).isPrefixOf (c :: (w ++ '>' :: t)) = false := by
      show (('>' == c) && _) = false
      rw [hne]
      rfl
    rw [List.cons_append, Text.find, hfront, ih fun hm => hw (List.mem_cons_of_mem c hm)]
    rfl

theorem tokens_gap {s : Text} (hs : '<' ∉ s) (t : Text) : tokens (s ++ t) = tokens t := by
  refine Scan.found_gap fun r hr hne => angle_of_ne ?_
  obtain ⟨c, r, rfl⟩ := List.exists_cons_of_ne_nil hne
  intro heq
  obtain rfl := Option.some.inj heq
  exact hs (hr.subset List.mem_cons_self)

theorem tokens_token {w : Text} (hw : '>' ∉ w) (t : Text) : tokens ('<' :: (w ++ '>' :: t)) = w :: tokens t := by
  have hcut : '<' :: (w ++ '>' :: t) = ('<' :: w ++ ['>']) ++ t := by simp
  have hmatch : angle (('<' :: w ++ ['>']) ++ t) = some (('<' :: w ++ ['>']).length, w) := by
    rw [← hcut]
    show (Text.find _ (w ++ '>' :: t)).map _ = _
    rw [find_close hw]
    simp
  unfold tokens
  rw [hcut, Scan.found_match (List.append_ne_nil_of_right_ne_nil _ (List.cons_ne_nil _ _)) hmatch]

/-- escaped text with tokens in it -/
inductive Mixed : List Text → Text → Prop where
  | text {s : Text} (hs : Escaped s) : Mixed [] s
  | token {s w t : Text} {ws : List Text} (hs : Escaped s) (hl : '<' ∉ w) (hu : '>' ∉ w) (h : Mixed ws t) :
      Mixed (w :: ws) (s ++ '<' :: (w ++ '>' :: t))

theorem Mixed.tokens_eq {ws : List Text} {t : Text} (h : Mixed ws t) : tokens t = ws := by
  induction h with
  | @text s hs =>
    have hgap := tokens_gap hs.lower []
    rw [List.append_nil] at hgap
    exact hgap
  | token hs _ hu _ ih => rw [tokens_gap hs.lower, tokens_token hu, ih]

theorem openFrom_token {w : Text} (hl : '<' ∉ w) (hu : '>' ∉ w) (inside : Bool) (t : Text) :
    openFrom inside ('<' :: (w ++ '>' :: t)) = openFrom false t := by
  show openFrom true (w ++ '>' :: t) = _
  rw [openFrom_append, openFrom_of_notMem hl hu]
  rfl

theorem Mixed.closed {ws : List Text} {t : Text} (h : Mixed ws t) : openFrom false t = false := by
  induction h with
  | text hs => exact openFrom_of_notMem hs.lower hs.upper false
  | token hs hl hu _ ih => rw [openFrom_append, openFrom_of_notMem hs.lower hs.upper, openFrom_token hl hu, ih]

theorem Mixed.text_append {s t : Text} {ws : List Text} (hs : Escaped s) (h : Mixed ws t) : Mixed ws (s ++ t) := by
  cases h with
  | text ht => exact .text (hs.append ht)
  | token ht hl hu h =>
    rw [← List.append_assoc]
    exact .token (hs.append ht) hl hu h

theorem Mixed.append {s t : Text} {us ws : List Text} (hs : Mixed us s) (ht : Mixed ws t) :
    Mixed (us ++ ws) (s ++ t) := by
  induction hs with
  | text hs => exact ht.text_append hs
  | token hs hl hu _ ih =>
    have hcut : ∀ (a b c d : Text), a ++ '<' :: (b ++ '>' :: c) ++ d = a ++ '<' :: (b ++ '>' :: (c ++ d)) := by simp
    rw [hcut]
    exact .token hs hl hu ih

theorem Mixed.append_text {s t : Text} {ws : List Text} (h : Mixed ws s) (ht : Escaped t) : Mixed ws (s ++ t) := by
  have happ := h.append (.text ht)
  rwa [List.append_nil] at happ

/-- what stands behind the last token -/
theorem Mixed.suffix {ws : List Text} {t s : Text} (h : Mixed ws t) (hs : s <:+ t) (hu : '>' ∉ s) : Escaped s := by
  induction h with
  | text ht => exact ht.suffix hs
  | @token a w t ws _ _ _ _ ih =>
    refine ih ?_
    have hcut : a ++ '<' :: (w ++ '>' :: t) = (a ++ '<' :: w) ++ '>' :: t := by simp
    rw [hcut] at hs
    obtain ⟨x, hx⟩ := hs
    rcases List.append_eq_append_iff.mp hx with ⟨y, -, hy⟩ | ⟨y, -, hy⟩
    · exact absurd (by rw [hy]; exact List.mem_append_right y List.mem_cons_self) hu
    · cases y with
      | nil => exact absurd (by rw [← (show '>' :: t = s from hy)]; exact List.mem_cons_self) hu
      | cons d y => exact ⟨y, (List.cons.inj hy).2.symm⟩

/-- a text with tokens that is cut -/
theorem Mixed.take {ws : List Text} {t : Text} (h : Mixed ws t) (n : ℕ) :
    openFrom false (t.take n) = true ∨
      ∃ us r p, us <+: ws ∧ t.take n = r ++ p ∧ Mixed us r ∧ (p = [] ∨ Half p) := by
  induction h generalizing n with
  | text hs =>
    obtain ⟨r, p, hcut, hr, hp⟩ := hs.take n
    exact Or.inr ⟨[], r, p, List.prefix_rfl, hcut, .text hr, hp⟩
  | @token s w t ws hs hl hu _ ih =>
    rcases Nat.lt_or_ge s.length n with hn | hn
    · obtain ⟨k, rfl⟩ : ∃ k, n = s.length + 1 + k := ⟨n - s.length - 1, by omega⟩
      have hfront : (s ++ '<' :: (w ++ '>' :: t)).take (s.length + 1 + k) = s ++ '<' :: (w ++ '>' :: t).take k := by
        rw [Nat.add_assoc, List.take_length_add_append, Nat.add_comm 1 k, List.take_succ_cons]
      rw [hfront]
      rcases Nat.lt_or_ge w.length k with hk | hk
      · obtain ⟨j, rfl⟩ : ∃ j, k = w.length + 1 + j := ⟨k - w.length - 1, by omega⟩
        have hback : (w ++ '>' :: t).take (w.length + 1 + j) = w ++ '>' :: t.take j := by
          rw [Nat.add_assoc, List.take_length_add_append, Nat.add_comm 1 j, List.take_succ_cons]
        rw [hback]
        rcases ih j with hopen | ⟨us, r, p, hus, hcut, hr, hp⟩
        · refine Or.inl ?_
          rw [openFrom_append, openFrom_of_notMem hs.lower hs.upper, openFrom_token hl hu, hopen]
        · refine Or.inr ⟨w :: us, s ++ '<' :: (w ++ '>' :: r), p, List.cons_prefix_cons.mpr ⟨rfl, hus⟩, ?_,
            .token hs hl hu hr, hp⟩
          rw [hcut]
          simp
      · refine Or.inl ?_
        have hword : (w ++ '>' :: t).take k <+: w := by
          rw [List.take_append_of_le_length hk]
          exact List.take_prefix k w
        rw [openFrom_append, openFrom_of_notMem hs.lower hs.upper]
        exact openFrom_of_notMem (fun hm => hl (hword.subset hm)) (fun hm => hu (hword.subset hm)) true
    · obtain ⟨r, p, hcut, hr, hp⟩ := hs.take n
      refine Or.inr ⟨[], r, p, List.nil_prefix, ?_, .text hr, hp⟩
      rw [List.take_append_of_le_length hn, hcut]

/-- escaped text with tokens of one kind -/
def Clear (good : Text → Prop) (t : Text) : Prop := ∃ ws, Mixed ws t ∧ ∀ w ∈ ws, good w

section
variable {good : Text → Prop}

theorem Clear.text {s : Text} (hs : Escaped s) : Clear good s := ⟨[], .text hs, fun _ hw => absurd hw List.not_mem_nil⟩

theorem Clear.append {s t : Text} (hs : Clear good s) (ht : Clear good t) : Clear good (s ++ t) := by
  obtain ⟨us, hus, hu⟩ := hs
  obtain ⟨ws, hws, hw⟩ := ht
  exact ⟨us ++ ws, hus.append hws, fun w h => (List.mem_append.mp h).elim (hu w) (hw w)⟩

theorem Clear.unlines {ls : List Text} (h : ∀ l ∈ ls, Clear good l) : Clear good (Text.unlines ls) := by
  induction ls with
  | nil => exact .text escaped_nil
  | cons l ls ih =>
    have hl := h l List.mem_cons_self
    have ih := ih fun r hr => h r (List.mem_cons_of_mem l hr)
    cases ls with
    | nil =>
      rw [show Text.unlines [l] = l from List.intercalate_singleton]
      exact hl
    | cons r ls =>
      have hbreak : Escaped ['\n'] := .of_plain (by decide)
      have hcut : Text.unlines (l :: r :: ls) = l ++ (['\n'] ++ Text.unlines (r :: ls)) := by
        unfold Text.unlines
        rw [List.intercalate_cons_cons, List.append_assoc]
      rw [hcut]
      exact hl.append ((Clear.text hbreak).append ih)

end

end Entities
