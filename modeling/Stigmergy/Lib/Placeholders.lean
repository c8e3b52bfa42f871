import Mathlib.Data.List.GetD
import Stigmergy.Lib.Scan

/-!
# Numbered placeholders

A placeholder is a number between two marks.  Texts are put in the place of the placeholders `0`, `1`, …
one number after the other, each time wherever the placeholder is found in what there is by then.

* `Live`           a text in which every mark belongs to a placeholder that is still to come;
* `Live.replace`   a text that is not live does not become so;
* `Forged`         a number between two placeholders that reads as a placeholder of its own;
* `step_spec`      one number;
* `spliced_iff`    all placeholders are replaced, and nothing else is, unless a number is forged or a text
                   holds a mark.
-/

set_option linter.unusedSectionVars false

namespace Placeholders

section
variable (mark : Char) (label : ℕ → Text)

def placeholder (n : ℕ) : Text := mark :: (label n ++ [mark])

/-- `str.replace` -/
def replace (p r t : Text) : Text := Scan.sub (fun u => if Text.startsWith p u then some (p.length, r) else none) t

/-- the texts of a list in the place of the placeholders from `n` on -/
def splicedFrom : ℕ → List Text → Text → Text
  | _, [], t => t
  | n, s :: store, t => splicedFrom (n + 1) store (replace (placeholder mark label n) s t)

def spliced (store : List Text) (t : Text) : Text := splicedFrom mark label 0 store t

theorem placeholder_append (n : ℕ) (t : Text) :
    placeholder mark label n ++ t = mark :: (label n ++ mark :: t) := by
  unfold placeholder
  rw [List.cons_append, List.append_assoc]
  rfl

theorem replace_match {p : Text} (hp : p ≠ []) (r t : Text) : replace p r (p ++ t) = r ++ replace p r t := by
  refine Scan.sub_match hp ?_
  have hstart : Text.startsWith p (p ++ t) = true := List.isPrefixOf_iff_prefix.mpr (List.prefix_append p t)
  rw [if_pos hstart]

theorem replace_none {p : Text} {c : Char} {t : Text} (h : Text.startsWith p (c :: t) = false) (r : Text) :
    replace p r (c :: t) = c :: replace p r t := by
  refine Scan.sub_none ?_
  rw [if_neg (Bool.eq_false_iff.mp h)]

/-- a character that is not replaced -/
theorem replace_outer {p : Text} (hp : p ≠ []) {c : Char} (hc : c ∉ p) (r s t : Text) :
    replace p r (s ++ c :: t) = replace p r s ++ c :: replace p r t := by
  induction hn : s.length using Nat.strongRecOn generalizing s with
  | ind n ih =>
    subst hn
    by_cases hs : Text.startsWith p (s ++ c :: t) = true
    · have hprefix : p <+: s := by
        obtain ⟨v, hv⟩ := List.isPrefixOf_iff_prefix.mp hs
        rcases List.append_eq_append_iff.mp hv with ⟨w, hw, -⟩ | ⟨w, hw, hrest⟩
        · exact ⟨w, hw.symm⟩
        · cases w with
          | nil => exact ⟨[], by rw [hw, List.append_nil, List.append_nil]⟩
          | cons d w =>
            obtain ⟨rfl, -⟩ := List.cons.inj hrest
            exact absurd (by rw [hw]; exact List.mem_append_right s List.mem_cons_self) hc
      obtain ⟨u, rfl⟩ := hprefix
      have hshort : u.length < (p ++ u).length := by
        rw [List.length_append]
        have := List.length_pos_iff.mpr hp
        omega
      rw [List.append_assoc, replace_match hp, replace_match hp, ih u.length hshort u rfl, List.append_assoc]
    · have hs : Text.startsWith p (s ++ c :: t) = false := Bool.eq_false_iff.mpr hs
      cases s with
      | nil =>
        rw [List.nil_append] at hs ⊢
        rw [replace_none hs]
        rfl
      | cons d s =>
        have hfront : Text.startsWith p (d :: s) = false := Bool.eq_false_iff.mpr fun h =>
          Bool.eq_false_iff.mp hs (List.isPrefixOf_iff_prefix.mpr
            ((List.isPrefixOf_iff_prefix.mp h).trans (List.prefix_append _ _)))
        rw [List.cons_append] at hs ⊢
        rw [replace_none hs, replace_none hfront, ih s.length (Nat.lt_succ_self _) s rfl, List.cons_append]

theorem splicedFrom_outer {c : Char} (hc : ∀ n, c ∉ placeholder mark label n) {n : ℕ} (store : List Text) (s t : Text) :
    splicedFrom mark label n store (s ++ c :: t) =
      splicedFrom mark label n store s ++ c :: splicedFrom mark label n store t := by
  induction store generalizing n s t with
  | nil => rfl
  | cons r store ih =>
    have hcut := @replace_outer (placeholder mark label n) (List.cons_ne_nil _ _) c (hc n) r s t
    rw [splicedFrom, hcut, ih]
    rfl

/-- what is kept by cuts in front of marks is kept when texts are put back -/
theorem splicedFrom_keeps {stop : Char → Prop} {P : Text → Prop} (h : Scan.Cuts stop P) (hmark : stop mark) {n : ℕ}
    {store : List Text} (hstore : ∀ s ∈ store, P s) {t : Text} (ht : P t) : P (splicedFrom mark label n store t) := by
  induction store generalizing n t with
  | nil => exact ht
  | cons r store ih =>
    refine ih (fun s hs => hstore s (List.mem_cons_of_mem r hs)) (h.keeps (fun c t n v _ hmatch => ?_) ht)
    split at hmatch
    · next hstart =>
      obtain ⟨-, rfl⟩ := Prod.mk.inj (Option.some.inj hmatch)
      obtain ⟨rfl, -⟩ := List.cons_prefix_cons.mp (List.isPrefixOf_iff_prefix.mp hstart)
      exact ⟨hmark, hstore r List.mem_cons_self⟩
    · exact nomatch hmatch

/-! ## marks that belong to placeholders -/

/-- every mark belongs to a placeholder from `m` on -/
inductive Live (m : ℕ) : Text → Prop where
  | nil : Live m []
  | char {c : Char} {t : Text} (hc : c ≠ mark) (h : Live m t) : Live m (c :: t)
  | placeholder {n : ℕ} {t : Text} (hn : m ≤ n) (h : Live m t) : Live m (placeholder mark label n ++ t)

variable {mark label} {word : Char → Bool}

theorem Live.of_notMem {m : ℕ} {t : Text} (h : mark ∉ t) : Live mark label m t := by
  induction t with
  | nil => exact .nil
  | cons c t ih => exact .char (fun hc => h (hc ▸ List.mem_cons_self)) (ih fun hm => h (List.mem_cons_of_mem c hm))

theorem Live.tail {m : ℕ} {c : Char} {t : Text} (h : Live mark label m (c :: t)) (hc : c ≠ mark) :
    Live mark label m t := by
  generalize heq : c :: t = u at h
  cases h with
  | nil => exact absurd heq (List.cons_ne_nil c t)
  | char _ h =>
    obtain ⟨-, rfl⟩ := List.cons.inj heq
    exact h
  | placeholder _ _ => exact absurd (List.cons.inj heq).1 hc

theorem Live.drop {m : ℕ} {s t : Text} (h : Live mark label m (s ++ t)) (hs : mark ∉ s) : Live mark label m t := by
  induction s with
  | nil => exact h
  | cons c s ih =>
    exact ih (Live.tail h fun hc => hs (hc ▸ List.mem_cons_self)) fun hm => hs (List.mem_cons_of_mem c hm)

/-- labels that hold no mark, and one each -/
structure Labels (mark : Char) (label : ℕ → Text) (word : Char → Bool) : Prop where
  inj : Function.Injective label
  inner : ∀ n, ∀ c ∈ label n, word c = true
  outer : word mark = false

theorem Labels.notMem (hl : Labels mark label word) (n : ℕ) : mark ∉ label n := by
  intro h
  have hw := hl.inner n mark h
  rw [hl.outer] at hw
  exact nomatch hw

theorem eq_of_append_cons {c : Char} {a b u v : Text} (ha : c ∉ a) (hb : c ∉ b) (h : a ++ c :: u = b ++ c :: v) :
    a = b ∧ u = v := by
  induction a generalizing b with
  | nil =>
    cases b with
    | nil => exact ⟨rfl, (List.cons.inj h).2⟩
    | cons d b =>
      obtain ⟨rfl, -⟩ := List.cons.inj h
      exact absurd List.mem_cons_self hb
  | cons d a ih =>
    cases b with
    | nil =>
      obtain ⟨rfl, -⟩ := List.cons.inj h
      exact absurd List.mem_cons_self ha
    | cons e b =>
      obtain ⟨rfl, hrest⟩ := List.cons.inj h
      obtain ⟨rfl, rfl⟩ := ih (fun hm => ha (List.mem_cons_of_mem d hm)) (fun hm => hb (List.mem_cons_of_mem d hm))
        hrest
      exact ⟨rfl, rfl⟩

theorem Labels.placeholder_inj (hl : Labels mark label word) {k n : ℕ} {t u : Text}
    (h : placeholder mark label k ++ t = placeholder mark label n ++ u) : k = n ∧ t = u := by
  rw [placeholder_append, placeholder_append] at h
  obtain ⟨hlabel, hrest⟩ := eq_of_append_cons (hl.notMem k) (hl.notMem n) (List.cons.inj h).2
  exact ⟨hl.inj hlabel, hrest⟩

theorem Labels.live_placeholder (hl : Labels mark label word) {m n : ℕ} {t : Text}
    (h : Live mark label m (placeholder mark label n ++ t)) : m ≤ n ∧ Live mark label m t := by
  generalize heq : placeholder mark label n ++ t = u at h
  cases h with
  | nil => exact absurd heq (List.cons_ne_nil _ _)
  | char hc _ => exact absurd (List.cons.inj heq).1.symm hc
  | placeholder hk h =>
    obtain ⟨rfl, rfl⟩ := hl.placeholder_inj heq
    exact ⟨hk, h⟩

/-- no mark, and in no label -/
def Outer (mark : Char) (word : Char → Bool) (c : Char) : Prop := word c = false ∧ c ≠ mark

theorem Labels.outer_notMem (hl : Labels mark label word) {c : Char} (hc : Outer mark word c) (n : ℕ) :
    c ∉ placeholder mark label n := by
  intro h
  rcases List.mem_cons.mp h with h | h
  · exact hc.2 h
  · rcases List.mem_append.mp h with h | h
    · have hw := hl.inner n c h
      rw [hc.1] at hw
      exact nomatch hw
    · exact hc.2 (List.mem_singleton.mp h)

/-- what lies behind a character outside the placeholders -/
theorem Labels.live_behind (hl : Labels mark label word) {m : ℕ} {u t : Text} {c : Char} (hc : Outer mark word c)
    (h : Live mark label m (u ++ c :: t)) : Live mark label m t := by
  generalize heq : u ++ c :: t = v at h
  induction h generalizing u with
  | nil => exact absurd heq (List.append_ne_nil_of_right_ne_nil u (List.cons_ne_nil c t))
  | @char d v hd hv ih =>
    cases u with
    | nil =>
      obtain ⟨-, rfl⟩ := List.cons.inj heq
      exact hv
    | cons e u => exact ih (List.cons.inj heq).2
  | @placeholder k v hk hv ih =>
    rcases List.append_eq_append_iff.mp heq with ⟨w, hu, hw⟩ | ⟨w, hu, hw⟩
    · -- the placeholder would hold the character
      cases w with
      | nil => exact ih (u := []) hw
      | cons e w =>
        obtain ⟨rfl, -⟩ := List.cons.inj hw
        exact absurd (by rw [hu]; exact List.mem_append_right _ List.mem_cons_self) (hl.outer_notMem hc k)
    · exact ih hw.symm

/-- a text that can be put in the place of a placeholder -/
structure Bounded (mark : Char) (word : Char → Bool) (r : Text) : Prop where
  head : ∃ c u, r = c :: u ∧ Outer mark word c
  last : ∃ u c, r = u ++ [c] ∧ Outer mark word c

theorem Labels.live_bounded (hl : Labels mark label word) {m : ℕ} {r t : Text} (hr : Bounded mark word r)
    (h : Live mark label m (r ++ t)) : Live mark label m t := by
  obtain ⟨u, c, rfl, hc⟩ := hr.last
  rw [List.append_assoc] at h
  exact hl.live_behind hc h

/-- a label and a mark are not a label and something else -/
theorem Labels.label_outer (hl : Labels mark label word) {n : ℕ} {s t u : Text} {c : Char} (hs : mark ∉ s)
    (hc : Outer mark word c) (h : label n ++ mark :: t = s ++ c :: u) : False := by
  rcases List.append_eq_append_iff.mp h with ⟨w, hw, hrest⟩ | ⟨w, hw, hrest⟩
  · cases w with
    | nil => exact hc.2 (List.cons.inj hrest).1.symm
    | cons d w =>
      obtain ⟨rfl, -⟩ := List.cons.inj hrest
      exact hs (by rw [hw]; exact List.mem_append_right _ List.mem_cons_self)
  · cases w with
    | nil => exact hc.2 (List.cons.inj hrest).1
    | cons d w =>
      obtain ⟨rfl, -⟩ := List.cons.inj hrest
      have hword := hl.inner n c (by rw [hw]; exact List.mem_append_right _ List.mem_cons_self)
      rw [hc.1] at hword
      exact nomatch hword

theorem placeholder_ne_nil (n : ℕ) : placeholder mark label n ≠ [] := List.cons_ne_nil _ _

theorem startsWith_of_ne {p t : Text} {c : Char} (h : c ≠ mark) :
    Text.startsWith (mark :: p) (c :: t) = false := by
  show ((mark == c) && _) = false
  rw [beq_false_of_ne h.symm]
  rfl

theorem replace_drop (n : ℕ) (r : Text) {s : Text} (hs : mark ∉ s) (t : Text) :
    replace (placeholder mark label n) r (s ++ t) = s ++ replace (placeholder mark label n) r t := by
  induction s with
  | nil => rfl
  | cons c s ih =>
    have hc : c ≠ mark := fun hc => hs (hc ▸ List.mem_cons_self)
    have hnone : Text.startsWith (placeholder mark label n) (c :: (s ++ t)) = false := startsWith_of_ne hc
    rw [List.cons_append, replace_none hnone, ih fun hm => hs (List.mem_cons_of_mem c hm), List.cons_append]

/-- what is put in the place of a placeholder does not read as a label -/
theorem replace_label {p r v t Y : Text} (hp : p ≠ []) (hr : Bounded mark word r) (hv : ∀ c ∈ v, word c = true)
    (hnot : mark ∉ v) (h : replace p r t = v ++ mark :: Y) :
    ∃ u, t = v ++ mark :: u ∧ Text.startsWith p (mark :: u) = false ∧ replace p r u = Y := by
  obtain ⟨d, x, hd, hout⟩ := hr.head
  induction v generalizing t with
  | nil =>
    cases t with
    | nil => exact absurd h.symm (List.cons_ne_nil _ _)
    | cons c t =>
      by_cases hs : Text.startsWith p (c :: t) = true
      · obtain ⟨w, hw⟩ := List.isPrefixOf_iff_prefix.mp hs
        rw [← hw, replace_match hp, hd] at h
        exact absurd (List.cons.inj h).1 hout.2
      · have hs : Text.startsWith p (c :: t) = false := Bool.eq_false_iff.mpr hs
        rw [replace_none hs] at h
        obtain ⟨rfl, hY⟩ := List.cons.inj h
        exact ⟨t, rfl, hs, hY⟩
  | cons a v ih =>
    cases t with
    | nil => exact absurd h.symm (List.cons_ne_nil _ _)
    | cons c t =>
      by_cases hs : Text.startsWith p (c :: t) = true
      · obtain ⟨w, hw⟩ := List.isPrefixOf_iff_prefix.mp hs
        rw [← hw, replace_match hp, hd] at h
        have hword := hv a List.mem_cons_self
        rw [← (List.cons.inj h).1, hout.1] at hword
        exact nomatch hword
      · rw [replace_none (Bool.eq_false_iff.mpr hs)] at h
        obtain ⟨rfl, hrest⟩ := List.cons.inj h
        obtain ⟨u, rfl, hstart, hY⟩ := ih (fun b hb => hv b (List.mem_cons_of_mem c hb))
          (fun hm => hnot (List.mem_cons_of_mem c hm)) hrest
        exact ⟨u, rfl, hstart, hY⟩

/-- a text that is not live does not become so -/
theorem Labels.live_replace (hl : Labels mark label word) {m : ℕ} {r t : Text} (hr : Bounded mark word r)
    (h : Live mark label (m + 1) (replace (placeholder mark label m) r t)) : Live mark label m t := by
  induction hn : t.length using Nat.strongRecOn generalizing t with
  | ind k ih =>
    subst hn
    cases t with
    | nil => exact .nil
    | cons c t =>
      by_cases hs : Text.startsWith (placeholder mark label m) (c :: t) = true
      · obtain ⟨u, hu⟩ := List.isPrefixOf_iff_prefix.mp hs
        rw [← hu] at h ⊢
        rw [replace_match (placeholder_ne_nil m)] at h
        refine .placeholder le_rfl (ih u.length ?_ (hl.live_bounded hr h) rfl)
        rw [← hu, List.length_append]
        have := List.length_pos_iff.mpr (@placeholder_ne_nil mark label m)
        omega
      · have hs : Text.startsWith (placeholder mark label m) (c :: t) = false := Bool.eq_false_iff.mpr hs
        rw [replace_none hs] at h
        by_cases hc : c = mark
        · subst hc
          generalize heq : c :: replace (placeholder c label m) r t = v at h
          cases h with
          | nil => exact absurd heq (List.cons_ne_nil _ _)
          | char hc _ => exact absurd (List.cons.inj heq).1.symm hc
          | @placeholder k Y hk hY =>
            rw [placeholder_append] at heq
            obtain ⟨u, rfl, -, rfl⟩ := replace_label (placeholder_ne_nil m) hr (hl.inner k) (hl.notMem k)
              (List.cons.inj heq).2
            rw [← placeholder_append]
            refine .placeholder (by omega) (ih u.length ?_ hY rfl)
            rw [List.length_cons, List.length_append, List.length_cons]
            omega
        · exact .char hc (ih t.length (Nat.lt_succ_self _) (h.tail hc) rfl)

/-! ## one number -/

variable (mark label)

/-- the text of a number that is done, the placeholder of one to come -/
def stage (store : List Text) (i j : ℕ) : Text := if j < i then store.getD j [] else placeholder mark label j

/-- numbers, each with what follows it -/
def written (store : List Text) (i : ℕ) (l : List (ℕ × Text)) : Text :=
  l.flatMap fun e => stage mark label store i e.1 ++ e.2

/-- between two numbers stands a lower one, which reads as a placeholder with the mark behind the first and the mark
before the second -/
def Forged (l : List (ℕ × Text)) (i : ℕ) : Prop :=
  ∃ l₁ j j' s l₂, l = l₁ ++ (j, label i) :: (j', s) :: l₂ ∧ i < j ∧ i ≤ j'

variable {mark label}

theorem written_cons (store : List Text) (i j : ℕ) (s : Text) (l : List (ℕ × Text)) :
    written mark label store i ((j, s) :: l) = stage mark label store i j ++ (s ++ written mark label store i l) := by
  unfold written
  rw [List.flatMap_cons, List.append_assoc]

theorem forged_cons {j : ℕ} {s : Text} {l : List (ℕ × Text)} {i : ℕ} : Forged label ((j, s) :: l) i ↔
    (s = label i ∧ i < j ∧ ∃ j' s' l', l = (j', s') :: l' ∧ i ≤ j') ∨ Forged label l i := by
  constructor
  · rintro ⟨l₁, k, k', r, l₂, heq, hk, hk'⟩
    cases l₁ with
    | nil =>
      obtain ⟨hhead, rfl⟩ := List.cons.inj heq
      obtain ⟨rfl, rfl⟩ := Prod.mk.inj hhead
      exact Or.inl ⟨rfl, hk, k', r, l₂, rfl, hk'⟩
    | cons e l₁ =>
      obtain ⟨-, rfl⟩ := List.cons.inj heq
      exact Or.inr ⟨l₁, k, k', r, l₂, rfl, hk, hk'⟩
  · rintro (⟨rfl, hk, j', s', l', rfl, hk'⟩ | ⟨l₁, k, k', r, l₂, rfl, hk, hk'⟩)
    · exact ⟨[], j, j', s', l', rfl, hk, hk'⟩
    · exact ⟨(j, s) :: l₁, k, k', r, l₂, rfl, hk, hk'⟩

/-- where a placeholder is found behind another one -/
theorem Labels.startsWith_written (hl : Labels mark label word) {store : List Text}
    (hstore : ∀ s ∈ store, Bounded mark word s) {i : ℕ} (hi : i ≤ store.length) {s : Text} (hs : mark ∉ s)
    (l : List (ℕ × Text)) (hmarks : ∀ e ∈ l, mark ∉ e.2) :
    Text.startsWith (placeholder mark label i) (mark :: (s ++ written mark label store i l)) = true ↔
      s = label i ∧ ∃ j' s' l', l = (j', s') :: l' ∧ i ≤ j' := by
  constructor
  · intro h
    obtain ⟨u, hu⟩ := List.isPrefixOf_iff_prefix.mp h
    rw [placeholder_append] at hu
    have htail := (List.cons.inj hu).2
    cases l with
    | nil =>
      have hmem : mark ∈ s ++ written mark label store i [] := by
        rw [← htail]
        exact List.mem_append_right _ List.mem_cons_self
      rw [show written mark label store i [] = [] from rfl, List.append_nil] at hmem
      exact absurd hmem hs
    | cons e l =>
      obtain ⟨j', s'⟩ := e
      rw [written_cons] at htail
      by_cases hj : j' < i
      · have hbounded : Bounded mark word (store.getD j' []) := by
          rw [List.getD_eq_getElem _ _ (by omega)]
          exact hstore _ (List.getElem_mem _)
        obtain ⟨c, v, hc, hout⟩ := hbounded.head
        unfold stage at htail
        rw [if_pos hj, hc, List.cons_append] at htail
        exact (hl.label_outer hs hout htail).elim
      · unfold stage at htail
        rw [if_neg hj, placeholder_append] at htail
        obtain ⟨hlabel, -⟩ := eq_of_append_cons (hl.notMem i) hs htail
        exact ⟨hlabel.symm, j', s', l, rfl, by omega⟩
  · rintro ⟨rfl, j', s', l', rfl, hj⟩
    refine List.isPrefixOf_iff_prefix.mpr ?_
    unfold placeholder
    rw [written_cons]
    unfold stage
    rw [if_neg (by omega), placeholder_append]
    exact ⟨label j' ++ mark :: (s' ++ written mark label store i l'), by simp⟩

/-- what comes of the placeholders of one number: they are replaced, or a mark is left for good -/
def Stepped (mark : Char) (label : ℕ → Text) (store : List Text) (l : List (ℕ × Text)) (i : ℕ) : Prop :=
  (¬ Forged label l i → replace (placeholder mark label i) (store.getD i []) (written mark label store i l) =
      written mark label store (i + 1) l) ∧
    (Forged label l i → ¬ Live mark label (i + 1)
      (replace (placeholder mark label i) (store.getD i []) (written mark label store i l)))

/-- where nothing is forged behind the first number, the others decide -/
theorem Stepped.cons {store : List Text} {l : List (ℕ × Text)} {i j : ℕ} {s : Text}
    (h : Stepped mark label store l i) (hs : mark ∉ s)
    (hnot : ¬ (s = label i ∧ i < j ∧ ∃ j' s' l', l = (j', s') :: l' ∧ i ≤ j'))
    (hreplace : replace (placeholder mark label i) (store.getD i [])
        (stage mark label store i j ++ (s ++ written mark label store i l)) =
      stage mark label store (i + 1) j ++
        (s ++ replace (placeholder mark label i) (store.getD i []) (written mark label store i l)))
    (hstrip : ∀ t, Live mark label (i + 1) (stage mark label store (i + 1) j ++ t) → Live mark label (i + 1) t) :
    Stepped mark label store ((j, s) :: l) i := by
  have hcons : Forged label ((j, s) :: l) i ↔ Forged label l i := by
    rw [forged_cons]
    exact ⟨fun h => h.resolve_left hnot, Or.inr⟩
  unfold Stepped
  rw [hcons, written_cons, written_cons, hreplace]
  refine ⟨fun hf => by rw [h.1 hf], fun hf hlive => h.2 hf ?_⟩
  exact (hstrip _ hlive).drop hs

theorem bounded_getD {store : List Text} (hstore : ∀ s ∈ store, Bounded mark word s) {i : ℕ} (hi : i < store.length) :
    Bounded mark word (store.getD i []) := by
  rw [List.getD_eq_getElem _ _ hi]
  exact hstore _ (List.getElem_mem _)

theorem Labels.replace_other (hl : Labels mark label word) {i j : ℕ} (hij : i ≠ j) (r t : Text) :
    replace (placeholder mark label i) r (placeholder mark label j ++ t) =
      mark :: (label j ++ replace (placeholder mark label i) r (mark :: t)) := by
  have hnone : Text.startsWith (placeholder mark label i) (mark :: (label j ++ mark :: t)) = false := by
    refine Bool.eq_false_iff.mpr fun hstart => ?_
    obtain ⟨u, hu⟩ := List.isPrefixOf_iff_prefix.mp hstart
    rw [← placeholder_append] at hu
    exact hij (hl.placeholder_inj hu).1
  rw [placeholder_append, replace_none hnone, replace_drop i _ (hl.notMem j)]

/-- a number that reads as a placeholder takes the mark of the one before it -/
theorem Labels.not_live_forged (hl : Labels mark label word) {m j : ℕ} {r t : Text} (hr : Bounded mark word r) :
    ¬ Live mark label m (mark :: (label j ++ (r ++ t))) := by
  intro hlive
  obtain ⟨c, v, rfl, hout⟩ := hr.head
  generalize heq : mark :: (label j ++ (c :: v ++ t)) = w at hlive
  cases hlive with
  | nil => exact List.cons_ne_nil _ _ heq
  | char hne _ => exact hne (List.cons.inj heq).1.symm
  | placeholder _ _ =>
    rw [placeholder_append] at heq
    exact hl.label_outer (hl.notMem j) hout (List.cons.inj heq).2.symm

theorem Labels.step_spec (hl : Labels mark label word) {store : List Text} (hstore : ∀ s ∈ store, Bounded mark word s)
    {i : ℕ} (hi : i < store.length) {l : List (ℕ × Text)} (hmarks : ∀ e ∈ l, mark ∉ e.2)
    (hdone : ∀ e ∈ l, e.1 < i → mark ∉ store.getD e.1 []) : Stepped mark label store l i := by
  induction l with
  | nil =>
    refine ⟨fun _ => rfl, ?_⟩
    rintro ⟨l₁, j, j', s, l₂, heq, -⟩
    exact absurd heq.symm (List.append_ne_nil_of_right_ne_nil l₁ (List.cons_ne_nil _ _))
  | cons e l ih =>
    obtain ⟨j, s⟩ := e
    have hs : mark ∉ s := hmarks (j, s) List.mem_cons_self
    have hrest : ∀ e ∈ l, mark ∉ e.2 := fun e he => hmarks e (List.mem_cons_of_mem _ he)
    have ih := ih hrest fun e he => hdone e (List.mem_cons_of_mem _ he)
    rcases Nat.lt_trichotomy j i with hj | rfl | hj
    · have hfree := hdone (j, s) List.mem_cons_self hj
      have hstage : stage mark label store i j = store.getD j [] := if_pos hj
      have hnext : stage mark label store (i + 1) j = store.getD j [] := if_pos (Nat.lt_succ_of_lt hj)
      refine ih.cons hs (fun h => absurd h.2.1 (Nat.lt_asymm hj)) ?_ fun t ht => ?_
      · rw [hstage, hnext, replace_drop i _ hfree, replace_drop i _ hs]
      · rw [hnext] at ht
        exact ht.drop hfree
    · have hstage : stage mark label store j j = placeholder mark label j := if_neg (Nat.lt_irrefl j)
      have hnext : stage mark label store (j + 1) j = store.getD j [] := if_pos (Nat.lt_succ_self j)
      refine ih.cons hs (fun h => Nat.lt_irrefl j h.2.1) ?_ fun t ht => ?_
      · rw [hstage, hnext, replace_match (placeholder_ne_nil j), replace_drop j _ hs]
      · rw [hnext] at ht
        exact hl.live_bounded (bounded_getD hstore hi) ht
    · have hstage : stage mark label store i j = placeholder mark label j := if_neg (Nat.lt_asymm hj)
      have hnext : stage mark label store (i + 1) j = placeholder mark label j := if_neg (by omega)
      have hstart := hl.startsWith_written hstore hi.le hs l hrest
      by_cases hforged : s = label i ∧ ∃ j' s' l', l = (j', s') :: l' ∧ i ≤ j'
      · have hyes : Forged label ((j, s) :: l) i := forged_cons.mpr (Or.inl ⟨hforged.1, hj, hforged.2⟩)
        refine ⟨fun h => absurd hyes h, fun _ => ?_⟩
        obtain ⟨u, hu⟩ := List.isPrefixOf_iff_prefix.mp (hstart.mpr hforged)
        rw [written_cons, hstage, hl.replace_other hj.ne, ← hu, replace_match (placeholder_ne_nil i)]
        exact hl.not_live_forged (bounded_getD hstore hi)
      · have hnone : Text.startsWith (placeholder mark label i) (mark :: (s ++ written mark label store i l)) = false :=
          Bool.eq_false_iff.mpr fun h => hforged (hstart.mp h)
        refine ih.cons hs (fun h => hforged ⟨h.1, h.2.2⟩) ?_ fun t ht => ?_
        · rw [hstage, hnext, hl.replace_other hj.ne, replace_none hnone, replace_drop i _ hs, placeholder_append]
        · rw [hnext] at ht
          exact (hl.live_placeholder ht).2

/-! ## all numbers -/

theorem Labels.mem_of_not_live (hl : Labels mark label word) {n : ℕ} {store : List Text}
    (hstore : ∀ s ∈ store, Bounded mark word s) {t : Text} (h : ¬ Live mark label n t) :
    mark ∈ splicedFrom mark label n store t := by
  induction store generalizing n t with
  | nil =>
    by_contra hmem
    exact h (Live.of_notMem hmem)
  | cons s store ih =>
    refine ih (fun r hr => hstore r (List.mem_cons_of_mem s hr)) fun hlive => h ?_
    exact hl.live_replace (hstore s List.mem_cons_self) hlive

/-- a text that holds marks holds a placeholder of a number before its own -/
def Kept (mark : Char) (label : ℕ → Text) (store : List Text) : Prop :=
  ∀ i < store.length, mark ∈ store.getD i [] →
    ∃ u k v, store.getD i [] = u ++ (placeholder mark label k ++ v) ∧ mark ∉ u ∧ k < i

theorem Labels.not_live_kept (hl : Labels mark label word) {store : List Text}
    (hstore : ∀ s ∈ store, Bounded mark word s) (hkept : Kept mark label store) {i : ℕ} (hi : i < store.length)
    {l : List (ℕ × Text)} (hmarks : ∀ e ∈ l, mark ∉ e.2) (hmem : i ∈ l.map Prod.fst) (hmark : mark ∈ store.getD i []) :
    ¬ Live mark label (i + 1) (written mark label store (i + 1) l) := by
  induction l with
  | nil => exact absurd hmem List.not_mem_nil
  | cons e l ih =>
    obtain ⟨j, s⟩ := e
    intro hlive
    rw [written_cons] at hlive
    by_cases hj : j = i
    · subst hj
      obtain ⟨u, k, v, heq, hu, hk⟩ := hkept j hi hmark
      have hstage : stage mark label store (j + 1) j = store.getD j [] := if_pos (Nat.lt_succ_self j)
      rw [hstage, heq, List.append_assoc, List.append_assoc] at hlive
      have hle := (hl.live_placeholder (hlive.drop hu)).1
      omega
    · have hrest : i ∈ l.map Prod.fst := (List.mem_cons.mp hmem).resolve_left (Ne.symm hj)
      refine ih (fun e he => hmarks e (List.mem_cons_of_mem _ he)) hrest ?_
      have hs : mark ∉ s := hmarks (j, s) List.mem_cons_self
      refine Live.drop ?_ hs
      unfold stage at hlive
      split at hlive
      · next hlt => exact hl.live_bounded (bounded_getD hstore (by omega)) hlive
      · exact (hl.live_placeholder hlive).2

/-- what keeps placeholders from being replaced by their texts, and only by these -/
def Fails (mark : Char) (label : ℕ → Text) (store : List Text) (l : List (ℕ × Text)) (i : ℕ) : Prop :=
  Forged label l i ∨ i ∈ l.map Prod.fst ∧ mark ∈ store.getD i []

theorem Labels.splicedFrom_spec (hl : Labels mark label word) {store : List Text}
    (hstore : ∀ s ∈ store, Bounded mark word s) (hkept : Kept mark label store) {s : Text} (hs : mark ∉ s)
    {l : List (ℕ × Text)} (hmarks : ∀ e ∈ l, mark ∉ e.2) {before rest : List Text} (hsplit : store = before ++ rest)
    (hbefore : ∀ i < before.length, ¬ Fails mark label store l i) :
    ((∃ i < store.length, Fails mark label store l i) →
        mark ∈ splicedFrom mark label before.length rest (s ++ written mark label store before.length l)) ∧
      ((∀ i < store.length, ¬ Fails mark label store l i) →
        splicedFrom mark label before.length rest (s ++ written mark label store before.length l) =
          s ++ written mark label store store.length l) := by
  induction rest generalizing before with
  | nil =>
    rw [List.append_nil] at hsplit
    subst hsplit
    refine ⟨?_, fun _ => rfl⟩
    rintro ⟨i, hi, hfails⟩
    exact absurd hfails (hbefore i hi)
  | cons r rest ih =>
    have hi : before.length < store.length := by
      rw [hsplit, List.length_append, List.length_cons]
      omega
    have hget : store.getD before.length [] = r := by
      rw [hsplit, List.getD_append_right _ _ _ _ le_rfl, Nat.sub_self]
      rfl
    have hrest : ∀ t ∈ rest, Bounded mark word t := fun t ht =>
      hstore t (by rw [hsplit]; exact List.mem_append_right _ (List.mem_cons_of_mem r ht))
    have hdone : ∀ e ∈ l, e.1 < before.length → mark ∉ store.getD e.1 [] := fun e he hlt hm =>
      hbefore e.1 hlt (Or.inr ⟨List.mem_map_of_mem he, hm⟩)
    obtain ⟨hsame, hdead⟩ := hl.step_spec hstore hi hmarks hdone
    rw [hget] at hsame hdead
    rw [splicedFrom, replace_drop _ _ hs]
    have hlost : ¬ Live mark label (before.length + 1)
        (replace (placeholder mark label before.length) r (written mark label store before.length l)) →
        mark ∈ splicedFrom mark label (before.length + 1) rest
          (s ++ replace (placeholder mark label before.length) r (written mark label store before.length l)) :=
      fun h => hl.mem_of_not_live hrest fun hlive => h (hlive.drop hs)
    by_cases hforged : Forged label l before.length
    · exact ⟨fun _ => hlost (hdead hforged), fun h => absurd (Or.inl hforged) (h _ hi)⟩
    · by_cases hmark : before.length ∈ l.map Prod.fst ∧ mark ∈ store.getD before.length []
      · refine ⟨fun _ => hlost ?_, fun h => absurd (Or.inr hmark) (h _ hi)⟩
        rw [hsame hforged]
        exact hl.not_live_kept hstore hkept hi hmarks hmark.1 hmark.2
      · have hlen : before.length + 1 = (before ++ [r]).length := by
          rw [List.length_append]
          rfl
        rw [hsame hforged, hlen]
        refine ih (by rw [hsplit, List.append_assoc]; rfl) fun i hlt => ?_
        rw [← hlen] at hlt
        rcases Nat.lt_succ_iff_lt_or_eq.mp hlt with hlt | rfl
        · exact hbefore i hlt
        · rintro (h | h)
          · exact hforged h
          · exact hmark h

/-- all placeholders are replaced by their texts exactly when no mark is left -/
theorem Labels.spliced_iff (hl : Labels mark label word) {store : List Text}
    (hstore : ∀ s ∈ store, Bounded mark word s) (hkept : Kept mark label store) {s : Text} (hs : mark ∉ s)
    {l : List (ℕ × Text)} (hmarks : ∀ e ∈ l, mark ∉ e.2) (hbound : ∀ e ∈ l, e.1 < store.length) :
    (mark ∉ spliced mark label store (s ++ l.flatMap fun e => placeholder mark label e.1 ++ e.2) ↔
        (∀ i, ¬ Forged label l i) ∧ ∀ e ∈ l, mark ∉ store.getD e.1 []) ∧
      (mark ∉ spliced mark label store (s ++ l.flatMap fun e => placeholder mark label e.1 ++ e.2) →
        spliced mark label store (s ++ l.flatMap fun e => placeholder mark label e.1 ++ e.2) =
          s ++ l.flatMap fun e => store.getD e.1 [] ++ e.2) := by
  obtain ⟨hlost, hdone⟩ := hl.splicedFrom_spec hstore hkept hs hmarks (List.nil_append store).symm
    fun i hi => absurd hi (Nat.not_lt_zero i)
  have hstart : written mark label store 0 l = l.flatMap fun e => placeholder mark label e.1 ++ e.2 := rfl
  have hend : written mark label store store.length l = l.flatMap fun e => store.getD e.1 [] ++ e.2 := by
    unfold written
    refine List.flatMap_congr fun e he => ?_
    exact congrArg (· ++ e.2) (if_pos (hbound e he))
  rw [List.length_nil, hstart] at hlost hdone
  rw [hend] at hdone
  have hnone : mark ∉ spliced mark label store (s ++ l.flatMap fun e => placeholder mark label e.1 ++ e.2) →
      ∀ i < store.length, ¬ Fails mark label store l i := fun h i hi hf => h (hlost ⟨i, hi, hf⟩)
  refine ⟨⟨fun h => ⟨fun i hf => ?_, fun e he hm => ?_⟩, ?_⟩, fun h => hdone (hnone h)⟩
  · have hf' := hf
    obtain ⟨l₁, j, j', r, l₂, heq, hij, -⟩ := hf'
    have hj := hbound (j, label i) (by rw [heq]; exact List.mem_append_right _ List.mem_cons_self)
    exact hnone h i (by omega) (Or.inl hf)
  · exact hnone h e.1 (hbound e he) (Or.inr ⟨List.mem_map_of_mem he, hm⟩)
  · rintro ⟨hforged, hfree⟩
    have hall : ∀ i < store.length, ¬ Fails mark label store l i := by
      rintro i - (hf | ⟨hmem, hm⟩)
      · exact hforged i hf
      · obtain ⟨e, he, rfl⟩ := List.mem_map.mp hmem
        exact hfree e he hm
    have hspliced := hdone hall
    unfold spliced
    rw [hspliced]
    intro hm
    rcases List.mem_append.mp hm with hm | hm
    · exact hs hm
    · obtain ⟨e, he, hm⟩ := List.mem_flatMap.mp hm
      rcases List.mem_append.mp hm with hm | hm
      · exact hfree e he hm
      · exact hmarks e he hm

end

end Placeholders
