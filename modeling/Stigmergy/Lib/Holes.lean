import Mathlib.Data.List.Rotate
import Stigmergy.Lib.Scan

/-!
# Texts with holes

A character that no other use is made of marks the holes of a text.  `fill` puts a block into each of
them.  A substitution that takes no notice of the blocks does the same to the filled text as to the text
with its holes.

* `fill_append`     a text in two parts;
* `fill_split`      a character outside the blocks, in the filled text and in the text with holes;
* `takeWhile_fill`, `dropWhile_fill`, `startsWith_fill`, `find_fill`   what is read of a filled text;
* `Blind`           a matcher that takes no notice of the blocks, but may turn them around in a match;
* `subBehind_fill`  its substitution in a filled text;
* `carved_fill`     matches cut out of a filled text, and numbered blocks put in their place.
-/

set_option linter.unusedSectionVars false

namespace Holes

section
variable (hole : Char) {β : Type*}

/-- a block for each hole -/
def fill : List Text → Text → Text
  | _, [] => []
  | bs, c :: t => if c = hole then bs.headD [] ++ fill bs.tail t else c :: fill bs t

theorem fill_nil (bs : List Text) : fill hole bs [] = [] := rfl

theorem fill_hole (b : Text) (bs : List Text) (t : Text) : fill hole (b :: bs) (hole :: t) = b ++ fill hole bs t :=
  if_pos rfl

theorem fill_char {c : Char} (hc : c ≠ hole) (bs : List Text) (t : Text) :
    fill hole bs (c :: t) = c :: fill hole bs t :=
  if_neg hc

/-- a text in two parts -/
theorem fill_append {xs : List Text} {s : Text} (h : xs.length = List.count hole s) (ys : List Text) (t : Text) :
    fill hole (xs ++ ys) (s ++ t) = fill hole xs s ++ fill hole ys t := by
  induction s generalizing xs with
  | nil =>
    rw [List.count_nil] at h
    rw [List.length_eq_zero_iff.mp h]
    rfl
  | cons c s ih =>
    by_cases hc : c = hole
    · subst hc
      rw [List.count_cons_self] at h
      cases xs with
      | nil => exact absurd h.symm (Nat.succ_ne_zero _)
      | cons x xs =>
        rw [List.cons_append, List.cons_append, fill_hole, fill_hole, ih (Nat.succ.inj h), List.append_assoc]
    · rw [List.count_cons_of_ne hc] at h
      rw [List.cons_append, fill_char hole hc, fill_char hole hc, ih h, List.cons_append]

theorem fill_of_notMem (bs : List Text) {t : Text} (h : hole ∉ t) : fill hole bs t = t := by
  induction t with
  | nil => rfl
  | cons c t ih =>
    rw [fill_char hole (fun hc => h (hc ▸ List.mem_cons_self)), ih fun hm => h (List.mem_cons_of_mem c hm)]

theorem mem_fill {bs : List Text} {t : Text} {c : Char} (h : c ∈ fill hole bs t) :
    (c ∈ t ∧ c ≠ hole) ∨ ∃ b ∈ bs, c ∈ b := by
  induction t generalizing bs with
  | nil => exact absurd h List.not_mem_nil
  | cons d t ih =>
    by_cases hd : d = hole
    · subst hd
      cases bs with
      | nil =>
        have hrest : c ∈ fill d [] t := by
          rwa [show fill d [] (d :: t) = [] ++ fill d [] t from if_pos rfl, List.nil_append] at h
        rcases ih hrest with ⟨hc, hne⟩ | ⟨b, hb, hc⟩
        · exact Or.inl ⟨List.mem_cons_of_mem d hc, hne⟩
        · exact Or.inr ⟨b, hb, hc⟩
      | cons b bs =>
        rw [fill_hole] at h
        rcases List.mem_append.mp h with h | h
        · exact Or.inr ⟨b, List.mem_cons_self, h⟩
        · rcases ih h with ⟨hc, hne⟩ | ⟨b', hb, hc⟩
          · exact Or.inl ⟨List.mem_cons_of_mem d hc, hne⟩
          · exact Or.inr ⟨b', List.mem_cons_of_mem b hb, hc⟩
    · rw [fill_char hole hd] at h
      rcases List.mem_cons.mp h with rfl | h
      · exact Or.inl ⟨List.mem_cons_self, hd⟩
      · rcases ih h with ⟨hc, hne⟩ | hb
        · exact Or.inl ⟨List.mem_cons_of_mem d hc, hne⟩
        · exact Or.inr hb

theorem mem_fill_of_mem {bs : List Text} {t : Text} {c : Char} (hc : c ∈ t) (hne : c ≠ hole) : c ∈ fill hole bs t := by
  induction t generalizing bs with
  | nil => exact absurd hc List.not_mem_nil
  | cons d t ih =>
    by_cases hd : d = hole
    · have hct : c ∈ t := (List.mem_cons.mp hc).resolve_left fun h => hne (h.trans hd)
      have hfill : fill hole bs (d :: t) = bs.headD [] ++ fill hole bs.tail t := if_pos hd
      rw [hfill]
      exact List.mem_append_right _ (ih hct)
    · rw [fill_char hole hd]
      rcases List.mem_cons.mp hc with rfl | hc
      · exact List.mem_cons_self
      · exact List.mem_cons_of_mem d (ih hc)

/-- what follows each hole, up to the next -/
def behind : Text → List Text
  | [] => []
  | c :: t => if c = hole then t.takeWhile (· != hole) :: behind t else behind t

theorem length_behind (t : Text) : (behind hole t).length = List.count hole t := by
  induction t with
  | nil => rfl
  | cons c t ih =>
    by_cases hc : c = hole
    · subst hc
      rw [behind, if_pos rfl, List.length_cons, ih, List.count_cons_self]
    · rw [behind, if_neg hc, ih, List.count_cons_of_ne hc]

theorem notMem_takeWhile (t : Text) : hole ∉ t.takeWhile (· != hole) := by
  intro h
  exact bne_iff_ne.mp (List.mem_takeWhile_imp (p := (· != hole)) h) rfl

theorem notMem_behind {t s : Text} (h : s ∈ behind hole t) : hole ∉ s := by
  induction t with
  | nil => exact absurd h List.not_mem_nil
  | cons c t ih =>
    rw [behind] at h
    split at h
    · rcases List.mem_cons.mp h with rfl | h
      · exact notMem_takeWhile hole t
      · exact ih h
    · exact ih h

/-- a filled text, cut at its blocks -/
theorem fill_behind {bs : List Text} {t : Text} (h : bs.length = List.count hole t) :
    fill hole bs t = t.takeWhile (· != hole) ++ (bs.zip (behind hole t)).flatMap fun e => e.1 ++ e.2 := by
  induction t generalizing bs with
  | nil =>
    rw [List.length_eq_zero_iff.mp h]
    rfl
  | cons c t ih =>
    by_cases hc : c = hole
    · subst hc
      rw [List.count_cons_self] at h
      cases bs with
      | nil => exact absurd h.symm (Nat.succ_ne_zero _)
      | cons b bs =>
        have hstop : (c :: t).takeWhile (· != c) = [] := List.takeWhile_cons_of_neg (by simp)
        rw [fill_hole, ih (Nat.succ.inj h), behind, if_pos rfl, hstop, List.zip_cons_cons, List.flatMap_cons,
          List.append_assoc]
        rfl
    · rw [List.count_cons_of_ne hc] at h
      have hgo : (c :: t).takeWhile (· != hole) = c :: t.takeWhile (· != hole) :=
        List.takeWhile_cons_of_pos (bne_iff_ne.mpr hc)
      rw [fill_char hole hc, ih h, behind, if_neg hc, hgo, List.cons_append]

/-- texts of which none is the beginning of another -/
def PrefixFree (P : Text → Prop) : Prop := ∀ s t s' t', P s → P s' → s ++ t = s' ++ t' → s = s'

/-- such texts are told apart by what they fill -/
theorem PrefixFree.fill_inj {P : Text → Prop} (hP : PrefixFree P) {xs ys : List Text} {t : Text} (hx : ∀ s ∈ xs, P s)
    (hy : ∀ s ∈ ys, P s) (hxs : xs.length = List.count hole t) (hys : ys.length = List.count hole t)
    (h : fill hole xs t = fill hole ys t) : xs = ys := by
  induction t generalizing xs ys with
  | nil =>
    rw [List.length_eq_zero_iff.mp hxs, List.length_eq_zero_iff.mp hys]
  | cons c t ih =>
    by_cases hc : c = hole
    · subst hc
      rw [List.count_cons_self] at hxs hys
      cases xs with
      | nil => exact absurd hxs.symm (Nat.succ_ne_zero _)
      | cons x xs =>
        cases ys with
        | nil => exact absurd hys.symm (Nat.succ_ne_zero _)
        | cons y ys =>
          rw [fill_hole, fill_hole] at h
          obtain rfl := hP x _ y _ (hx x List.mem_cons_self) (hy y List.mem_cons_self) h
          have hrest := ih (fun s hs => hx s (List.mem_cons_of_mem x hs)) (fun s hs => hy s (List.mem_cons_of_mem x hs))
            (Nat.succ.inj hxs) (Nat.succ.inj hys) (List.append_cancel_left h)
          rw [hrest]
    · rw [List.count_cons_of_ne hc] at hxs hys
      rw [fill_char hole hc, fill_char hole hc] at h
      exact ih hx hy hxs hys (List.cons.inj h).2

/-! ## blocks -/

variable (inert : Char → Prop)

/-- a block begins and ends as the hole, and is made of inert characters -/
structure Block (b : Text) : Prop where
  head : b.head? = some hole
  last : b.getLast? = some hole
  inert : ∀ c ∈ b, inert c

/-- a block for each hole of a text -/
structure Filled (bs : List Text) (t : Text) : Prop where
  length : bs.length = List.count hole t
  block : ∀ b ∈ bs, Block hole inert b

variable {hole inert}

theorem Block.cons {b : Text} (h : Block hole inert b) : ∃ u, b = hole :: u := List.head?_eq_some_iff.mp h.head

theorem Filled.nil : Filled hole inert [] [] := ⟨rfl, fun _ hb => absurd hb List.not_mem_nil⟩

theorem Filled.of_notMem {t : Text} (h : hole ∉ t) : Filled hole inert [] t :=
  ⟨(List.count_eq_zero.mpr h).symm, fun _ hb => absurd hb List.not_mem_nil⟩

theorem Filled.cons {b : Text} {bs : List Text} {t : Text} (hb : Block hole inert b) (h : Filled hole inert bs t) :
    Filled hole inert (b :: bs) (hole :: t) := by
  refine ⟨?_, fun a ha => ?_⟩
  · rw [List.length_cons, List.count_cons_self, h.length]
  · rcases List.mem_cons.mp ha with rfl | ha
    · exact hb
    · exact h.block a ha

theorem Filled.char {c : Char} (hc : c ≠ hole) {bs : List Text} {t : Text} (h : Filled hole inert bs t) :
    Filled hole inert bs (c :: t) :=
  ⟨by rw [List.count_cons_of_ne hc, h.length], h.block⟩

theorem Filled.append {xs ys : List Text} {s t : Text} (hx : Filled hole inert xs s) (hy : Filled hole inert ys t) :
    Filled hole inert (xs ++ ys) (s ++ t) := by
  refine ⟨by rw [List.length_append, List.count_append, hx.length, hy.length], fun b hb => ?_⟩
  rcases List.mem_append.mp hb with hb | hb
  · exact hx.block b hb
  · exact hy.block b hb

/-- the blocks of a text in two parts -/
theorem Filled.split {bs : List Text} {s t : Text} (h : Filled hole inert bs (s ++ t)) :
    ∃ xs ys, bs = xs ++ ys ∧ Filled hole inert xs s ∧ Filled hole inert ys t := by
  have hlen := h.length
  rw [List.count_append] at hlen
  refine ⟨bs.take (List.count hole s), bs.drop (List.count hole s), (List.take_append_drop _ _).symm,
    ⟨?_, fun b hb => h.block b (List.mem_of_mem_take hb)⟩, ⟨?_, fun b hb => h.block b (List.mem_of_mem_drop hb)⟩⟩
  · rw [List.length_take]
    omega
  · rw [List.length_drop]
    omega

/-- the first character of a text with a block at its front, or without -/
theorem Filled.cases {bs : List Text} {c : Char} {t : Text} (h : Filled hole inert bs (c :: t)) :
    (c = hole ∧ ∃ b ys, bs = b :: ys ∧ Block hole inert b ∧ Filled hole inert ys t) ∨
      (c ≠ hole ∧ Filled hole inert bs t) := by
  have hlen := h.length
  by_cases hc : c = hole
  · subst hc
    rw [List.count_cons_self] at hlen
    cases bs with
    | nil => exact absurd hlen.symm (Nat.succ_ne_zero _)
    | cons b ys =>
      exact Or.inl ⟨rfl, b, ys, rfl, h.block b List.mem_cons_self, Nat.succ.inj hlen,
        fun a ha => h.block a (List.mem_cons_of_mem b ha)⟩
  · rw [List.count_cons_of_ne hc] at hlen
    exact Or.inr ⟨hc, hlen, h.block⟩

theorem Filled.fill_append {xs : List Text} {s : Text} (h : Filled hole inert xs s) (ys : List Text) (t : Text) :
    fill hole (xs ++ ys) (s ++ t) = fill hole xs s ++ fill hole ys t := Holes.fill_append hole h.length ys t

/-- a text without blocks is empty with them only if it is empty without -/
theorem Filled.eq_nil {bs : List Text} {t : Text} (h : Filled hole inert bs t) (hnil : fill hole bs t = []) :
    t = [] := by
  cases t with
  | nil => rfl
  | cons c t =>
    rcases h.cases with ⟨rfl, b, ys, rfl, hb, -⟩ | ⟨hc, -⟩
    · obtain ⟨u, rfl⟩ := hb.cons
      rw [fill_hole] at hnil
      exact absurd hnil (List.cons_ne_nil _ _)
    · rw [fill_char hole hc] at hnil
      exact absurd hnil (List.cons_ne_nil _ _)

theorem Filled.head? {bs : List Text} {t : Text} (h : Filled hole inert bs t) : (fill hole bs t).head? = t.head? := by
  cases t with
  | nil => rfl
  | cons c t =>
    rcases h.cases with ⟨rfl, b, ys, rfl, hb, -⟩ | ⟨hc, -⟩
    · obtain ⟨u, rfl⟩ := hb.cons
      rw [fill_hole]
      rfl
    · rw [fill_char hole hc]
      rfl

theorem Filled.getLast? {bs : List Text} {t : Text} (h : Filled hole inert bs t) :
    (fill hole bs t).getLast? = t.getLast? := by
  induction t generalizing bs with
  | nil => rfl
  | cons c t ih =>
    have hrest : ∀ {xs : List Text} {ys : List Text} (_ : Filled hole inert ys t) {u : Text} (_ : u.getLast? = some c),
        (u ++ fill hole ys t).getLast? = (c :: t).getLast? := by
      intro _ ys hys u hu
      rw [List.getLast?_append, ih hys, hu, List.getLast?_cons]
      cases t.getLast? <;> rfl
    rcases h.cases with ⟨rfl, b, ys, rfl, hb, hys⟩ | ⟨hc, hbs⟩
    · rw [fill_hole]
      exact @hrest [] ys hys b hb.last
    · rw [fill_char hole hc]
      exact @hrest [] bs hbs [c] rfl

/-! ## what is read of a filled text -/

/-- a character outside the blocks -/
theorem fill_split {bs : List Text} {t u v : Text} {c : Char} (h : Filled hole inert bs t) (hc : c ≠ hole)
    (hinert : ¬ inert c) (heq : fill hole bs t = u ++ c :: v) :
    ∃ s r xs ys, t = s ++ c :: r ∧ bs = xs ++ ys ∧ Filled hole inert xs s ∧ Filled hole inert ys r ∧
      fill hole xs s = u ∧ fill hole ys r = v := by
  induction t generalizing bs u with
  | nil => exact absurd heq.symm (List.append_ne_nil_of_right_ne_nil u (List.cons_ne_nil c v))
  | cons d t ih =>
    rcases h.cases with ⟨rfl, b, ys, rfl, hb, hys⟩ | ⟨hd, hbs⟩
    · rw [fill_hole] at heq
      -- the block lies in front of the character
      have hpre : ∃ w, u = b ++ w ∧ fill d ys t = w ++ c :: v := by
        rcases List.append_eq_append_iff.mp heq with ⟨w, hu, hw⟩ | ⟨w, hbw, hw⟩
        · exact ⟨w, hu, hw⟩
        · cases w with
          | nil => exact ⟨[], by rw [hbw, List.append_nil, List.append_nil], hw.symm⟩
          | cons e w =>
            obtain ⟨rfl, -⟩ := List.cons.inj hw
            exact absurd (hb.inert c (by rw [hbw]; exact List.mem_append_right _ List.mem_cons_self)) hinert
      obtain ⟨w, rfl, hw⟩ := hpre
      obtain ⟨s, r, xs, zs, rfl, rfl, hxs, hzs, hs, hr⟩ := ih hys hw
      exact ⟨d :: s, r, b :: xs, zs, rfl, rfl, hxs.cons hb, hzs, by rw [fill_hole, hs], hr⟩
    · rw [fill_char hole hd] at heq
      cases u with
      | nil =>
        obtain ⟨rfl, hv⟩ := List.cons.inj heq
        exact ⟨[], t, [], bs, rfl, rfl, Filled.nil, hbs, rfl, hv⟩
      | cons e u =>
        obtain ⟨rfl, hu⟩ := List.cons.inj heq
        obtain ⟨s, r, xs, zs, rfl, rfl, hxs, hzs, hs, hr⟩ := ih hbs hu
        exact ⟨d :: s, r, xs, zs, rfl, rfl, hxs.char hd, hzs, by rw [fill_char hole hd, hs], hr⟩

/-- the same at the front -/
theorem fill_cons {bs : List Text} {t v : Text} {c : Char} (h : Filled hole inert bs t) (hc : c ≠ hole)
    (hinert : ¬ inert c) (heq : fill hole bs t = c :: v) :
    ∃ r, t = c :: r ∧ Filled hole inert bs r ∧ fill hole bs r = v := by
  obtain ⟨s, r, xs, ys, rfl, rfl, hxs, hys, hs, hr⟩ := fill_split h hc hinert (heq.trans (List.nil_append _).symm)
  obtain rfl := hxs.eq_nil hs
  have hnil : xs = [] := List.length_eq_zero_iff.mp hxs.length
  subst hnil
  exact ⟨r, rfl, hys, hr⟩

/-- a run of characters that the blocks go on with -/
theorem Filled.span {bs : List Text} {t : Text} (h : Filled hole inert bs t) {p : Char → Bool}
    (hp : ∀ c, inert c → p c = true) (hhole : p hole = true) :
    ∃ xs ys, bs = xs ++ ys ∧ Filled hole inert xs (t.takeWhile p) ∧ Filled hole inert ys (t.dropWhile p) ∧
      (fill hole bs t).takeWhile p = fill hole xs (t.takeWhile p) ∧
      (fill hole bs t).dropWhile p = fill hole ys (t.dropWhile p) := by
  induction t generalizing bs with
  | nil => exact ⟨[], bs, rfl, Filled.nil, h, rfl, rfl⟩
  | cons c t ih =>
    rcases h.cases with ⟨rfl, b, zs, rfl, hb, hzs⟩ | ⟨hc, hbs⟩
    · obtain ⟨xs, ys, rfl, hxs, hys, htake, hdrop⟩ := ih hzs
      have hall : ∀ a ∈ b, p a = true := fun a ha => hp a (hb.inert a ha)
      refine ⟨b :: xs, ys, rfl, ?_, ?_, ?_, ?_⟩
      · rw [List.takeWhile_cons_of_pos hhole]
        exact hxs.cons hb
      · rw [List.dropWhile_cons_of_pos hhole]
        exact hys
      · rw [fill_hole, List.takeWhile_append_of_pos hall, htake, List.takeWhile_cons_of_pos hhole, fill_hole]
      · rw [fill_hole, List.dropWhile_append_of_pos hall, hdrop, List.dropWhile_cons_of_pos hhole]
    · by_cases hpc : p c = true
      · obtain ⟨xs, ys, rfl, hxs, hys, htake, hdrop⟩ := ih hbs
        refine ⟨xs, ys, rfl, ?_, ?_, ?_, ?_⟩
        · rw [List.takeWhile_cons_of_pos hpc]
          exact hxs.char hc
        · rw [List.dropWhile_cons_of_pos hpc]
          exact hys
        · rw [fill_char hole hc, List.takeWhile_cons_of_pos hpc, htake, List.takeWhile_cons_of_pos hpc,
            fill_char hole hc]
        · rw [fill_char hole hc, List.dropWhile_cons_of_pos hpc, hdrop, List.dropWhile_cons_of_pos hpc]
      · refine ⟨[], bs, rfl, ?_, ?_, ?_, ?_⟩
        · rw [List.takeWhile_cons_of_neg hpc]
          exact Filled.nil
        · rw [List.dropWhile_cons_of_neg hpc]
          exact h
        · rw [fill_char hole hc, List.takeWhile_cons_of_neg hpc, List.takeWhile_cons_of_neg hpc]
          rfl
        · rw [fill_char hole hc, List.dropWhile_cons_of_neg hpc, List.dropWhile_cons_of_neg hpc, fill_char hole hc]

/-- a run of characters that stops at a block -/
theorem Filled.run {bs : List Text} {t : Text} (h : Filled hole inert bs t) {p : Char → Bool} (hhole : p hole = false) :
    Filled hole inert bs (t.dropWhile p) ∧ (fill hole bs t).takeWhile p = t.takeWhile p ∧
      (fill hole bs t).dropWhile p = fill hole bs (t.dropWhile p) := by
  induction t generalizing bs with
  | nil => exact ⟨h, rfl, rfl⟩
  | cons c t ih =>
    rcases h.cases with ⟨rfl, b, zs, rfl, hb, hzs⟩ | ⟨hc, hbs⟩
    · have hneg : ¬ p c = true := by
        rw [hhole]
        exact Bool.false_ne_true
      obtain ⟨u, rfl⟩ := hb.cons
      rw [fill_hole, List.cons_append, List.takeWhile_cons_of_neg hneg, List.dropWhile_cons_of_neg hneg,
        List.takeWhile_cons_of_neg hneg, List.dropWhile_cons_of_neg hneg, fill_hole]
      exact ⟨h, rfl, rfl⟩
    · by_cases hpc : p c = true
      · rw [fill_char hole hc, List.takeWhile_cons_of_pos hpc, List.dropWhile_cons_of_pos hpc,
          List.takeWhile_cons_of_pos hpc, List.dropWhile_cons_of_pos hpc]
        obtain ⟨hfilled, htake, hdrop⟩ := ih hbs
        exact ⟨hfilled, congrArg (c :: ·) htake, hdrop⟩
      · rw [fill_char hole hc, List.takeWhile_cons_of_neg hpc, List.dropWhile_cons_of_neg hpc,
          List.takeWhile_cons_of_neg hpc, List.dropWhile_cons_of_neg hpc, fill_char hole hc]
        exact ⟨h, rfl, rfl⟩

/-- characters no block has -/
def Foreign (hole : Char) (inert : Char → Prop) (p : Text) : Prop := ∀ c ∈ p, c ≠ hole ∧ ¬ inert c

theorem Filled.startsWith {bs : List Text} {t p : Text} (h : Filled hole inert bs t) (hp : Foreign hole inert p) :
    Text.startsWith p (fill hole bs t) = Text.startsWith p t := by
  induction p generalizing bs t with
  | nil => rfl
  | cons d p ih =>
    have hd := hp d List.mem_cons_self
    cases t with
    | nil => rfl
    | cons c t =>
      rcases h.cases with ⟨rfl, b, zs, rfl, hb, hzs⟩ | ⟨hc, hbs⟩
      · obtain ⟨u, rfl⟩ := hb.cons
        have hne : (d == c) = false := beq_false_of_ne hd.1
        rw [fill_hole]
        show ((d == c) && _) = ((d == c) && _)
        rw [hne]
        rfl
      · rw [fill_char hole hc]
        exact congrArg ((d == c) && ·) (ih hbs fun a ha => hp a (List.mem_cons_of_mem d ha))

theorem startsWith_inert {p : Text} (hp : Foreign hole inert p) (hne : p ≠ []) {c : Char} (hc : inert c) (u : Text) :
    Text.startsWith p (c :: u) = false := by
  obtain ⟨d, p, rfl⟩ := List.exists_cons_of_ne_nil hne
  have hdc : (d == c) = false := beq_false_of_ne fun h => (hp d List.mem_cons_self).2 (h ▸ hc)
  show ((d == c) && _) = false
  rw [hdc]
  rfl

theorem find_front {p : Text} {c : Char} {t : Text} (h : Text.startsWith p (c :: t) = true) :
    Text.find p (c :: t) = some ([], (c :: t).drop p.length) := if_pos h

theorem find_step {p : Text} {c : Char} {t : Text} (h : Text.startsWith p (c :: t) = false) :
    Text.find p (c :: t) = (Text.find p t).map fun r => (c :: r.1, r.2) := if_neg (Bool.eq_false_iff.mp h)

theorem find_block {b p : Text} (hb : ∀ c ∈ b, inert c) (hp : Foreign hole inert p) (hne : p ≠ []) (u : Text) :
    Text.find p (b ++ u) = (Text.find p u).map fun r => (b ++ r.1, r.2) := by
  induction b with
  | nil => exact Option.map_id'.symm
  | cons c b ih =>
    rw [List.cons_append, find_step (startsWith_inert hp hne (hb c List.mem_cons_self) (b ++ u)),
      ih fun d hd => hb d (List.mem_cons_of_mem c hd), Option.map_map]
    rfl

/-- the first place of a text that no block has a character of -/
theorem Filled.find {bs : List Text} {t p : Text} (h : Filled hole inert bs t) (hp : Foreign hole inert p)
    (hne : p ≠ []) :
    (Text.find p t = none ∧ Text.find p (fill hole bs t) = none) ∨
      ∃ x y xs ys, bs = xs ++ ys ∧ Filled hole inert xs x ∧ Filled hole inert ys y ∧ Text.find p t = some (x, y) ∧
        Text.find p (fill hole bs t) = some (fill hole xs x, fill hole ys y) := by
  induction t generalizing bs with
  | nil =>
    have hnone : Text.find p [] = none := if_neg (by rw [List.isEmpty_iff]; exact hne)
    exact Or.inl ⟨hnone, hnone⟩
  | cons c t ih =>
    have hstart := h.startsWith hp
    rcases h.cases with ⟨rfl, b, zs, rfl, hb, hzs⟩ | ⟨hc, hbs⟩
    · have hinert : inert c := hb.inert c (List.mem_of_mem_head? hb.head)
      rw [fill_hole, find_block hb.inert hp hne, find_step (startsWith_inert hp hne hinert t)]
      rcases ih hzs with ⟨hnone, hfill⟩ | ⟨x, y, xs, ys, rfl, hxs, hys, hsome, hfill⟩
      · rw [hnone, hfill]
        exact Or.inl ⟨rfl, rfl⟩
      · rw [hsome, hfill]
        exact Or.inr ⟨c :: x, y, b :: xs, ys, rfl, hxs.cons hb, hys, rfl, by rw [fill_hole]; rfl⟩
    · rw [fill_char hole hc] at hstart ⊢
      by_cases hfront : Text.startsWith p (c :: t) = true
      · have hfill := hstart.trans hfront
        obtain ⟨r, hr⟩ := List.isPrefixOf_iff_prefix.mp hfront
        have hrest : Filled hole inert bs r := by
          obtain ⟨xs, ys, rfl, hxs, hys⟩ := (hr ▸ h : Filled hole inert bs (p ++ r)).split
          have hnil : xs = [] := List.length_eq_zero_iff.mp
            (hxs.length.trans (List.count_eq_zero.mpr fun hm => (hp hole hm).1 rfl))
          rw [hnil]
          exact hys
        have hdrop : (c :: fill hole bs t).drop p.length = fill hole bs r := by
          have hall : fill hole bs (p ++ r) = p ++ fill hole bs r := by
            have hclean : hole ∉ p := fun hm => (hp hole hm).1 rfl
            have happ := (Filled.of_notMem hclean : Filled hole inert [] p).fill_append bs r
            rwa [List.nil_append, fill_of_notMem hole [] hclean] at happ
          rw [← fill_char hole hc, ← hr, hall, List.drop_left]
        rw [find_front hfront, find_front hfill, hdrop, ← hr, List.drop_left]
        exact Or.inr ⟨[], r, [], bs, rfl, Filled.nil, hrest, rfl, rfl⟩
      · have hfront : Text.startsWith p (c :: t) = false := Bool.eq_false_iff.mpr hfront
        rw [find_step hfront, find_step (hstart.trans hfront)]
        rcases ih hbs with ⟨hnone, hfill⟩ | ⟨x, y, xs, ys, rfl, hxs, hys, hsome, hfill⟩
        · rw [hnone, hfill]
          exact Or.inl ⟨rfl, rfl⟩
        · rw [hsome, hfill]
          exact Or.inr ⟨c :: x, y, xs, ys, rfl, hxs.char hc, hys, rfl, by rw [fill_char hole hc]; rfl⟩

/-! ## substitutions -/

variable (hole inert)

/-- a matcher that takes no notice of the blocks: `shift` turns those of a match around in its value -/
structure Blind (m : Option Char → Text → Option (ℕ × Text)) (shift : Text → ℕ) : Prop where
  read : ∀ prev bs t, Filled hole inert bs t →
    (m prev t = none ∧ m prev (fill hole bs t) = none) ∨
      ∃ s u xs ys v, t = s ++ u ∧ bs = xs ++ ys ∧ s ≠ [] ∧ Filled hole inert xs s ∧ Filled hole inert ys u ∧
        m prev t = some (s.length, v) ∧ (xs.rotate (shift s)).length = List.count hole v ∧
        m prev (fill hole bs t) = some ((fill hole xs s).length, fill hole (xs.rotate (shift s)) v)
  quiet : ∀ prev c t, inert c → m prev (c :: t) = none

/-- the blocks of a text where a substitution leaves them -/
def turnedFrom (m : Option Char → Text → Option (ℕ × Text)) (shift : Text → ℕ) :
    Option Char → ℕ → Text → List β → List β
  | _, _, [], bs => bs
  | _, k + 1, c :: t, bs => turnedFrom m shift (some c) k t bs
  | prev, 0, c :: t, bs =>
    match m prev (c :: t) with
    | some (n + 1, _) =>
      let s := (c :: t).take (n + 1)
      (bs.take (List.count hole s)).rotate (shift s) ++
        turnedFrom m shift (some c) n t (bs.drop (List.count hole s))
    | _ =>
      if c = hole then bs.take 1 ++ turnedFrom m shift (some c) 0 t (bs.drop 1)
      else turnedFrom m shift (some c) 0 t bs

variable {hole inert} {m : Option Char → Text → Option (ℕ × Text)} {shift : Text → ℕ}

theorem turnedFrom_skip (prev : Option Char) (s t : Text) (bs : List β) :
    turnedFrom hole m shift prev s.length (s ++ t) bs = turnedFrom hole m shift (s.getLast?.or prev) 0 t bs := by
  induction s generalizing prev with
  | nil => rfl
  | cons c s ih =>
    rw [Scan.getLast?_cons_or, ← ih (some c)]
    rfl

theorem turnedFrom_match {prev : Option Char} {s t v : Text} (hs : s ≠ []) (h : m prev (s ++ t) = some (s.length, v))
    {xs : List β} (hx : xs.length = List.count hole s) (ys : List β) :
    turnedFrom hole m shift prev 0 (s ++ t) (xs ++ ys) =
      xs.rotate (shift s) ++ turnedFrom hole m shift (s.getLast?.or prev) 0 t ys := by
  obtain ⟨c, s, rfl⟩ := List.exists_cons_of_ne_nil hs
  rw [List.cons_append, List.length_cons] at h
  rw [List.cons_append, turnedFrom, h]
  dsimp only
  have hfront : (c :: (s ++ t)).take (s.length + 1) = c :: s := by
    rw [List.take_succ_cons, List.take_left]
  rw [hfront, ← hx, List.take_left, List.drop_left, turnedFrom_skip, Scan.getLast?_cons_or]

theorem turnedFrom_hole {prev : Option Char} {t : Text} (h : m prev (hole :: t) = none) (b : β) (bs : List β) :
    turnedFrom hole m shift prev 0 (hole :: t) (b :: bs) = b :: turnedFrom hole m shift (some hole) 0 t bs := by
  rw [turnedFrom, h]
  exact if_pos rfl

theorem turnedFrom_char {prev : Option Char} {c : Char} {t : Text} (hc : c ≠ hole) (h : m prev (c :: t) = none)
    (bs : List β) : turnedFrom hole m shift prev 0 (c :: t) bs = turnedFrom hole m shift (some c) 0 t bs := by
  rw [turnedFrom, h]
  exact if_neg hc

theorem subBehindFrom_none {prev : Option Char} {c : Char} {t : Text} (h : m prev (c :: t) = none) :
    Scan.subBehindFrom m prev 0 (c :: t) = c :: Scan.subBehindFrom m (some c) 0 t := by
  rw [Scan.subBehindFrom, h]

theorem Blind.block (hm : Blind hole inert m shift) {b : Text} (hb : ∀ c ∈ b, inert c) (prev : Option Char) (u : Text) :
    Scan.subBehindFrom m prev 0 (b ++ u) = b ++ Scan.subBehindFrom m (b.getLast?.or prev) 0 u := by
  induction b generalizing prev with
  | nil => rfl
  | cons c b ih =>
    rw [List.cons_append, subBehindFrom_none (hm.quiet prev c _ (hb c List.mem_cons_self)),
      ih fun d hd => hb d (List.mem_cons_of_mem c hd), Scan.getLast?_cons_or, List.cons_append]

/-- a substitution does the same to a filled text -/
theorem subBehindFrom_fill (hm : Blind hole inert m shift) (hhole : inert hole) (prev : Option Char) {bs : List Text}
    {t : Text} (h : Filled hole inert bs t) :
    Filled hole inert (turnedFrom hole m shift prev 0 t bs) (Scan.subBehindFrom m prev 0 t) ∧
      Scan.subBehindFrom m prev 0 (fill hole bs t) =
        fill hole (turnedFrom hole m shift prev 0 t bs) (Scan.subBehindFrom m prev 0 t) := by
  induction hn : t.length using Nat.strongRecOn generalizing prev bs t with
  | ind n ih =>
    subst hn
    rcases hm.read prev bs t h with ⟨hnone, hmiss⟩ | ⟨s, u, xs, ys, v, rfl, rfl, hs, hxs, hys, hmatch, hlen, hhit⟩
    · cases t with
      | nil => exact ⟨h, rfl⟩
      | cons c t =>
        rw [subBehindFrom_none hnone]
        rcases h.cases with ⟨rfl, b, ys, rfl, hb, hys⟩ | ⟨hc, hbs⟩
        · obtain ⟨hfilled, hsub⟩ := @ih t.length (Nat.lt_succ_self _) (some c) ys t hys rfl
          rw [turnedFrom_hole hnone, fill_hole, hm.block hb.inert, hb.last, Option.some_or, hsub, fill_hole]
          exact ⟨hfilled.cons hb, rfl⟩
        · obtain ⟨hfilled, hsub⟩ := @ih t.length (Nat.lt_succ_self _) (some c) bs t hbs rfl
          rw [fill_char hole hc] at hmiss ⊢
          rw [turnedFrom_char hc hnone, subBehindFrom_none hmiss, hsub, fill_char hole hc]
          exact ⟨hfilled.char hc, rfl⟩
    · have hshort : u.length < (s ++ u).length := by
        rw [List.length_append]
        have := List.length_pos_iff.mpr hs
        omega
      obtain ⟨hfilled, hsub⟩ := @ih u.length hshort (s.getLast?.or prev) ys u hys rfl
      have hrotate : Filled hole inert (xs.rotate (shift s)) v :=
        ⟨hlen, fun b hb => hxs.block b (List.mem_rotate.mp hb)⟩
      have hfill : fill hole xs s ≠ [] := fun hnil => hs (hxs.eq_nil hnil)
      rw [hxs.fill_append] at hhit ⊢
      rw [turnedFrom_match hs hmatch hxs.length, Scan.subBehindFrom_match hs hmatch,
        Scan.subBehindFrom_match hfill hhit, hxs.getLast?, hsub, hrotate.fill_append]
      exact ⟨hrotate.append hfilled, rfl⟩

theorem turnedFrom_zero {prev : Option Char} {k : ℕ} {t : Text} (bs : List β) :
    turnedFrom hole m (fun _ => 0) prev k t bs = bs := by
  induction t generalizing prev k bs with
  | nil => cases k <;> rfl
  | cons c t ih =>
    cases k with
    | succ k => exact ih bs
    | zero =>
      rw [turnedFrom]
      split
      · dsimp only
        rw [ih, List.rotate_zero, List.take_append_drop]
      · split
        · rw [ih, List.take_append_drop]
        · exact ih bs

theorem map_turnedFrom {γ : Type*} (f : β → γ) {prev : Option Char} {k : ℕ} {t : Text} (bs : List β) :
    (turnedFrom hole m shift prev k t bs).map f = turnedFrom hole m shift prev k t (bs.map f) := by
  induction t generalizing prev k bs with
  | nil => cases k <;> rfl
  | cons c t ih =>
    cases k with
    | succ k => exact ih bs
    | zero =>
      rw [turnedFrom, turnedFrom]
      split
      · dsimp only
        rw [List.map_append, List.map_rotate, List.map_take, ih, List.map_drop]
      · split
        · rw [List.map_append, List.map_take, ih, List.map_drop]
        · exact ih bs

theorem turnedFrom_perm {prev : Option Char} {k : ℕ} {t : Text} (bs : List β) :
    (turnedFrom hole m shift prev k t bs).Perm bs := by
  induction t generalizing prev k bs with
  | nil =>
    cases k <;> exact List.Perm.refl bs
  | cons c t ih =>
    cases k with
    | succ k => exact ih bs
    | zero =>
      rw [turnedFrom]
      split
      · exact ((List.rotate_perm _ _).append (ih _)).trans (List.Perm.of_eq (List.take_append_drop _ bs))
      · split
        · exact ((List.Perm.refl _).append (ih _)).trans (List.Perm.of_eq (List.take_append_drop _ bs))
        · exact ih bs

/-! ## matches cut out -/

section
variable {α : Type*}

/-- every match replaced by a block of its own, numbered from left to right -/
def carvedFrom (block : ℕ → Text) (m : Text → Option (ℕ × α)) : ℕ → ℕ → Text → Text
  | _, _, [] => []
  | k + 1, n, _ :: t => carvedFrom block m k n t
  | 0, n, c :: t =>
    match m (c :: t) with
    | some (l + 1, _) => block n ++ carvedFrom block m l (n + 1) t
    | _ => c :: carvedFrom block m 0 n t

def carved (block : ℕ → Text) (m : Text → Option (ℕ × α)) (n : ℕ) (t : Text) : Text := carvedFrom block m 0 n t

/-- every match replaced by a hole -/
def hollow (hole : Char) (m : Text → Option (ℕ × α)) (t : Text) : Text :=
  Scan.sub (fun s => (m s).map fun e => (e.1, [hole])) t

/-- of `bs` for the holes and `ns` for the matches of a text, those that are left when the matches are cut out -/
def weaveFrom (hole : Char) (m : Text → Option (ℕ × α)) : ℕ → Text → List β → List β → List β
  | _, [], _, _ => []
  | k + 1, _ :: t, bs, ns => weaveFrom hole m k t bs ns
  | 0, c :: t, bs, ns =>
    match m (c :: t) with
    | some (l + 1, _) =>
      ns.take 1 ++ weaveFrom hole m l t (bs.drop (List.count hole ((c :: t).take (l + 1)))) (ns.drop 1)
    | _ =>
      if c = hole then bs.take 1 ++ weaveFrom hole m 0 t (bs.drop 1) ns else weaveFrom hole m 0 t bs ns

def weave (hole : Char) (m : Text → Option (ℕ × α)) (t : Text) (bs ns : List β) : List β := weaveFrom hole m 0 t bs ns

variable {block : ℕ → Text} {m : Text → Option (ℕ × α)}

theorem carvedFrom_drop {k n : ℕ} {t : Text} : carvedFrom block m k n t = carved block m n (t.drop k) := by
  induction k generalizing t with
  | zero => rfl
  | succ k ih =>
    cases t with
    | nil => rfl
    | cons c t => exact ih

theorem weaveFrom_drop {k : ℕ} {t : Text} (bs ns : List β) :
    weaveFrom hole m k t bs ns = weave hole m (t.drop k) bs ns := by
  induction k generalizing t with
  | zero => rfl
  | succ k ih =>
    cases t with
    | nil => rfl
    | cons c t => exact ih

theorem carved_none {c : Char} {t : Text} (h : m (c :: t) = none) (n : ℕ) :
    carved block m n (c :: t) = c :: carved block m n t := by
  unfold carved
  rw [carvedFrom, h]

theorem carved_match {s t : Text} {a : α} (hs : s ≠ []) (h : m (s ++ t) = some (s.length, a)) (n : ℕ) :
    carved block m n (s ++ t) = block n ++ carved block m (n + 1) t := by
  obtain ⟨c, s, rfl⟩ := List.exists_cons_of_ne_nil hs
  rw [List.cons_append, List.length_cons] at h
  rw [carved, List.cons_append, carvedFrom, h]
  dsimp only
  rw [carvedFrom_drop, List.drop_left]

/-- what is kept by cuts in front of the matches is kept when they are cut out -/
theorem carvedFrom_keeps {stop : Char → Prop} {P : Text → Prop} (h : Scan.Cuts stop P) (hblock : ∀ n, P (block n))
    (hm : ∀ c t l a, m (c :: t) = some (l, a) → stop c) {k n : ℕ} {pre t : Text}
    (ht : k = 0 ∧ P (pre ++ t) ∨ P pre ∧ P t) : P (pre ++ carvedFrom block m k n t) := by
  induction t generalizing k n pre with
  | nil =>
    have hend : carvedFrom block m k n [] = [] := by cases k <;> rfl
    rw [hend]
    rcases ht with ⟨-, ht⟩ | ⟨hpre, -⟩
    · exact ht
    · exact h.append hpre h.nil
  | cons c t ih =>
    cases k with
    | succ k =>
      obtain ⟨hpre, ht⟩ := ht.resolve_left fun hk => Nat.succ_ne_zero k hk.1
      exact ih (Or.inr ⟨hpre, h.tail ht⟩)
    | zero =>
      have hall : P (pre ++ c :: t) := by
        rcases ht with ⟨-, ht⟩ | ⟨hpre, ht⟩
        · exact ht
        · exact h.append hpre ht
      rw [carvedFrom]
      split
      · next l a hmatch =>
        rw [← List.append_assoc]
        exact ih (Or.inr ⟨h.append (h.front (hm c t _ a hmatch) hall) (hblock n), h.tail (h.behind hall)⟩)
      · rw [List.append_cons]
        refine ih (Or.inl ⟨rfl, ?_⟩)
        rwa [← List.append_cons]

theorem hollow_none {c : Char} {t : Text} (h : m (c :: t) = none) : hollow hole m (c :: t) = c :: hollow hole m t :=
  Scan.sub_none (by rw [h]; rfl)

theorem hollow_match {s t : Text} {a : α} (hs : s ≠ []) (h : m (s ++ t) = some (s.length, a)) :
    hollow hole m (s ++ t) = hole :: hollow hole m t := by
  have hmatch : (m (s ++ t)).map (fun e => (e.1, [hole])) = some (s.length, [hole]) := by
    rw [h]
    rfl
  unfold hollow
  rw [@Scan.sub_match (fun u => (m u).map fun e => (e.1, [hole])) s t [hole] hs hmatch]
  rfl

theorem weave_match {s t : Text} {a : α} (hs : s ≠ []) (h : m (s ++ t) = some (s.length, a)) {xs : List β}
    (hx : xs.length = List.count hole s) (ys : List β) (b : β) (ns : List β) :
    weave hole m (s ++ t) (xs ++ ys) (b :: ns) = b :: weave hole m t ys ns := by
  obtain ⟨c, s, rfl⟩ := List.exists_cons_of_ne_nil hs
  rw [List.cons_append, List.length_cons] at h
  rw [weave, List.cons_append, weaveFrom, h]
  dsimp only
  have hfront : (c :: (s ++ t)).take (s.length + 1) = c :: s := by
    rw [List.take_succ_cons, List.take_left]
  rw [hfront, ← hx, List.drop_left, weaveFrom_drop, List.drop_left]
  rfl

theorem weave_hole {t : Text} (h : m (hole :: t) = none) (b : β) (bs ns : List β) :
    weave hole m (hole :: t) (b :: bs) ns = b :: weave hole m t bs ns := by
  rw [weave, weaveFrom, h]
  exact if_pos rfl

theorem weave_char {c : Char} {t : Text} (hc : c ≠ hole) (h : m (c :: t) = none) (bs ns : List β) :
    weave hole m (c :: t) bs ns = weave hole m t bs ns := by
  rw [weave, weaveFrom, h]
  exact if_neg hc

theorem map_weaveFrom {γ : Type*} (f : β → γ) {k : ℕ} {t : Text} (bs ns : List β) :
    (weaveFrom hole m k t bs ns).map f = weaveFrom hole m k t (bs.map f) (ns.map f) := by
  induction t generalizing k bs ns with
  | nil => cases k <;> rfl
  | cons c t ih =>
    cases k with
    | succ k => exact ih bs ns
    | zero =>
      rw [weaveFrom, weaveFrom]
      split
      · rw [List.map_append, List.map_take, ih, List.map_drop, List.map_drop]
      · split
        · rw [List.map_append, List.map_take, ih, List.map_drop]
        · exact ih bs ns

theorem mem_weaveFrom {k : ℕ} {t : Text} {bs ns : List β} {x : β} (h : x ∈ weaveFrom hole m k t bs ns) :
    x ∈ bs ∨ x ∈ ns := by
  induction t generalizing k bs ns with
  | nil =>
    cases k <;> exact absurd h List.not_mem_nil
  | cons c t ih =>
    cases k with
    | succ k => exact ih h
    | zero =>
      rw [weaveFrom] at h
      split at h
      · rcases List.mem_append.mp h with h | h
        · exact Or.inr (List.mem_of_mem_take h)
        · exact (ih h).imp List.mem_of_mem_drop List.mem_of_mem_drop
      · split at h
        · rcases List.mem_append.mp h with h | h
          · exact Or.inl (List.mem_of_mem_take h)
          · exact (ih h).imp List.mem_of_mem_drop id
        · exact ih h

theorem subset_weaveFrom {k : ℕ} {t : Text} {bs ns : List β} (h : ns.length ≤ (Scan.foundFrom m k t).length) :
    ns ⊆ weaveFrom hole m k t bs ns := by
  induction t generalizing k bs ns with
  | nil =>
    have hnil : ns = [] := List.length_eq_zero_iff.mp (Nat.le_zero.mp (by cases k <;> exact h))
    rw [hnil]
    exact List.nil_subset _
  | cons c t ih =>
    cases k with
    | succ k => exact ih h
    | zero =>
      rw [Scan.foundFrom] at h
      rw [weaveFrom]
      split
      · next l a hm =>
        rw [hm] at h
        cases ns with
        | nil => exact List.nil_subset _
        | cons n ns => exact List.cons_subset_cons n (ih (Nat.le_of_succ_le_succ h))
      · next hm =>
        have hlen : ns.length ≤ (Scan.foundFrom m 0 t).length := by
          split at h
          · next l a hm' => exact absurd hm' (hm l a)
          · exact h
        split
        · exact List.Subset.trans (ih hlen) (List.subset_append_right _ _)
        · exact ih hlen

/-- a text without holes -/
theorem carved_of_notMem {t : Text} (h : hole ∉ t) (n : ℕ) :
    (Scan.found m t).length = List.count hole (hollow hole m t) ∧
      carved block m n t = fill hole ((List.range' n (Scan.found m t).length).map block) (hollow hole m t) := by
  have hall : ∀ k, (Scan.foundFrom m k t).length = List.count hole
        (Scan.subFrom (fun s => (m s).map fun e => (e.1, [hole])) k t) ∧
      carvedFrom block m k n t = fill hole ((List.range' n (Scan.foundFrom m k t).length).map block)
        (Scan.subFrom (fun s => (m s).map fun e => (e.1, [hole])) k t) := by
    induction t generalizing n with
    | nil =>
      intro k
      cases k <;> exact ⟨rfl, rfl⟩
    | cons c t ih =>
      have hc : c ≠ hole := fun hc => h (hc ▸ List.mem_cons_self)
      have ht : hole ∉ t := fun hm => h (List.mem_cons_of_mem c hm)
      intro k
      cases k with
      | succ k => exact ih ht n k
      | zero =>
        rw [Scan.foundFrom, Scan.subFrom, carvedFrom]
        cases hm : m (c :: t) with
        | none =>
          obtain ⟨hlen, hcarved⟩ := ih ht n 0
          refine ⟨?_, ?_⟩
          · dsimp only [Option.map_none]
            rw [List.count_cons_of_ne hc, hlen]
          · dsimp only [Option.map_none]
            rw [fill_char hole hc, hcarved]
        | some e =>
          obtain ⟨l, a⟩ := e
          cases l with
          | zero =>
            obtain ⟨hlen, hcarved⟩ := ih ht n 0
            refine ⟨?_, ?_⟩
            · dsimp only [Option.map_some]
              rw [List.count_cons_of_ne hc, hlen]
            · dsimp only [Option.map_some]
              rw [fill_char hole hc, hcarved]
          | succ l =>
            obtain ⟨hlen, hcarved⟩ := ih ht (n + 1) l
            refine ⟨?_, ?_⟩
            · dsimp only [Option.map_some]
              rw [List.length_cons, List.singleton_append, List.count_cons_self, hlen]
            · dsimp only [Option.map_some]
              rw [List.length_cons, List.range'_succ, List.map_cons, List.singleton_append, fill_hole, hcarved]
  exact hall 0

theorem Blind.carved_block {m : Text → Option (ℕ × Text)} (hm : Blind hole inert (fun _ => m) fun _ => 0) {u : Text}
    (hu : ∀ c ∈ u, inert c) (n : ℕ) (v : Text) :
    carved block m n (u ++ v) = u ++ carved block m n v ∧ Scan.found m (u ++ v) = Scan.found m v := by
  induction u with
  | nil => exact ⟨rfl, rfl⟩
  | cons d u ih =>
    have hnone := hm.quiet none d (u ++ v) (hu d List.mem_cons_self)
    obtain ⟨hcut, hsame⟩ := ih fun e he => hu e (List.mem_cons_of_mem d he)
    rw [List.cons_append, carved_none hnone, Scan.found_none hnone, hcut, hsame]
    exact ⟨rfl, rfl⟩

/-- matches cut out of a filled text -/
theorem carved_fill {m : Text → Option (ℕ × Text)} (hm : Blind hole inert (fun _ => m) fun _ => 0) (hhole : inert hole)
    (hblock : ∀ n, Block hole inert (block n)) {bs : List Text} {t : Text} (h : Filled hole inert bs t) (n : ℕ) :
    Filled hole inert (weave hole m t bs ((List.range' n (Scan.found m t).length).map block)) (hollow hole m t) ∧
      carved block m n (fill hole bs t) =
        fill hole (weave hole m t bs ((List.range' n (Scan.found m t).length).map block)) (hollow hole m t) ∧
      List.Forall₂ (fun s v => ∃ xs, xs ⊆ bs ∧ Filled hole inert xs v ∧ s = fill hole xs v)
        (Scan.found m (fill hole bs t)) (Scan.found m t) := by
  induction hn : t.length using Nat.strongRecOn generalizing bs t n with
  | ind k ih =>
    subst hn
    rcases hm.read none bs t h with ⟨hnone, hmiss⟩ | ⟨s, u, xs, ys, v, rfl, rfl, hs, hxs, hys, hmatch, hlen, hhit⟩
    · cases t with
      | nil =>
        have hnil : bs = [] := List.length_eq_zero_iff.mp h.length
        subst hnil
        exact ⟨h, rfl, List.Forall₂.nil⟩
      | cons c t =>
        rw [hollow_none hnone, Scan.found_none hnone]
        rcases h.cases with ⟨rfl, b, ys, rfl, hb, hys⟩ | ⟨hc, hbs⟩
        · obtain ⟨hfilled, hcarved, hfound⟩ := ih t.length (Nat.lt_succ_self _) hys n rfl
          obtain ⟨hcut, hsame⟩ := hm.carved_block hb.inert n (fill c ys t)
          rw [weave_hole hnone, fill_hole, hcut, hsame, fill_hole, hcarved]
          refine ⟨hfilled.cons hb, rfl, hfound.imp fun s v hv => ?_⟩
          obtain ⟨xs, hxs, hrest⟩ := hv
          exact ⟨xs, List.Subset.trans hxs (List.subset_cons_self b ys), hrest⟩
        · obtain ⟨hfilled, hcarved, hfound⟩ := ih t.length (Nat.lt_succ_self _) hbs n rfl
          rw [fill_char hole hc] at hmiss ⊢
          rw [weave_char hc hnone, carved_none hmiss, Scan.found_none hmiss, hcarved, fill_char hole hc]
          exact ⟨hfilled.char hc, rfl, hfound⟩
    · rw [List.rotate_zero] at hlen hhit
      have hshort : u.length < (s ++ u).length := by
        rw [List.length_append]
        have := List.length_pos_iff.mpr hs
        omega
      obtain ⟨hfilled, hcarved, hfound⟩ := ih u.length hshort hys (n + 1) rfl
      have hfill : fill hole xs s ≠ [] := fun hnil => hs (hxs.eq_nil hnil)
      rw [hxs.fill_append] at hhit ⊢
      rw [hollow_match hs hmatch, Scan.found_match hs hmatch, List.length_cons, List.range'_succ, List.map_cons,
        weave_match hs hmatch hxs.length, carved_match hfill hhit, Scan.found_match hfill hhit, fill_hole, hcarved]
      refine ⟨hfilled.cons (hblock n), rfl, List.Forall₂.cons ?_ (hfound.imp fun s v hv => ?_)⟩
      · exact ⟨xs, List.subset_append_left xs ys, ⟨hlen, hxs.block⟩, rfl⟩
      · obtain ⟨zs, hzs, hrest⟩ := hv
        exact ⟨zs, List.Subset.trans hzs (List.subset_append_right xs ys), hrest⟩

end

end

end Holes
