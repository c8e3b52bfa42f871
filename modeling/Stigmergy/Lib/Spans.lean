import Mathlib.Data.List.Basic
import Mathlib.Algebra.Order.Group.Nat

/-!
# Spans

Half-open spans of a sequence, from any type that has a start and a stop.

* `Tiles`        spans one after the other;
* `Laps`         spans that overlap or touch, each past the one before at both ends;
* `Laps.append`  a row of spans, and one that starts where it ends;
* `Laps.map`     spans of places, as spans of what the places hold;
* `Laps.exists_mem`   nothing is left out;
* `Tiles.place`       where tiles meet, `Tiles.laps` what laps over each of them, together.
-/

set_option linter.unusedSectionVars false

section
variable {α β : Type*}

/-- from `a` to `b` without a gap, an overlap or an empty span -/
def Tiles (start stop : α → ℕ) : ℕ → ℕ → List α → Prop
  | a, b, [] => a = b
  | a, b, x :: xs => start x = a ∧ a < stop x ∧ Tiles start stop (stop x) b xs

/-- from a first span to `b`, each span past the one before at both ends, and no gap -/
def Laps (start stop : α → ℕ) (b : ℕ) : α → List α → Prop
  | x, [] => start x < stop x ∧ stop x = b
  | x, y :: ys => start x < stop x ∧ (start x < start y ∧ stop x < stop y ∧ start y ≤ stop x) ∧ Laps start stop b y ys

variable {start stop : α → ℕ}

/-! ## tiles -/

theorem Tiles.append {a b c : ℕ} {xs ys : List α} (hx : Tiles start stop a b xs) (hy : Tiles start stop b c ys) :
    Tiles start stop a c (xs ++ ys) := by
  induction xs generalizing a with
  | nil =>
    obtain rfl := hx
    exact hy
  | cons x xs ih => exact ⟨hx.1, hx.2.1, ih hx.2.2⟩

/-- where the first of two rows ends -/
theorem Tiles.split {a c : ℕ} {xs ys : List α} (h : Tiles start stop a c (xs ++ ys)) :
    ∃ b, Tiles start stop a b xs ∧ Tiles start stop b c ys := by
  induction xs generalizing a with
  | nil => exact ⟨a, rfl, h⟩
  | cons x xs ih =>
    obtain ⟨b, hx, hy⟩ := ih h.2.2
    exact ⟨b, ⟨h.1, h.2.1, hx⟩, hy⟩

theorem Tiles.le {a b : ℕ} {xs : List α} (h : Tiles start stop a b xs) : a ≤ b := by
  induction xs generalizing a with
  | nil => exact le_of_eq h
  | cons x xs ih => exact h.2.1.le.trans (ih h.2.2)

theorem Tiles.mem {a b : ℕ} {xs : List α} (h : Tiles start stop a b xs) {x : α} (hx : x ∈ xs) :
    a ≤ start x ∧ start x < stop x ∧ stop x ≤ b := by
  induction xs generalizing a with
  | nil => exact nomatch hx
  | cons y xs ih =>
    rcases List.mem_cons.mp hx with rfl | hx
    · exact ⟨h.1.ge, h.1.symm ▸ h.2.1, h.2.2.le⟩
    · obtain ⟨hstart, hlt, hstop⟩ := ih h.2.2 hx
      exact ⟨h.2.1.le.trans hstart, hlt, hstop⟩

/-- where the spans meet -/
theorem Tiles.place {a b : ℕ} {xs : List α} (h : Tiles start stop a b xs) :
    ∃ place : ℕ → ℕ, place 0 = a ∧ place xs.length = b ∧ (∀ i j, i < j → j ≤ xs.length → place i < place j) ∧
      ∀ i (hi : i < xs.length), start xs[i] = place i ∧ stop xs[i] = place (i + 1) := by
  induction xs generalizing a with
  | nil => exact ⟨fun _ => a, rfl, h, fun i j hij hj => absurd hj (Nat.not_le_of_lt (Nat.zero_lt_of_lt hij)),
      fun i hi => absurd hi (Nat.not_lt_zero i)⟩
  | cons x xs ih =>
    obtain ⟨place, hzero, hlast, hlt, hmeet⟩ := ih h.2.2
    refine ⟨fun k => k.casesOn a place, rfl, hlast, fun i j hij hj => ?_, fun i hi => ?_⟩
    · obtain ⟨j, rfl⟩ := Nat.exists_eq_succ_of_ne_zero (Nat.ne_zero_of_lt hij)
      have hj := Nat.le_of_succ_le_succ hj
      have hx : a < place 0 := hzero.symm ▸ h.2.1
      cases i with
      | zero =>
        rcases Nat.eq_zero_or_pos j with rfl | hpos
        · exact hx
        · exact hx.trans (hlt 0 j hpos hj)
      | succ i => exact hlt i j (Nat.lt_of_succ_lt_succ hij) hj
    · cases i with
      | zero => exact ⟨h.1, hzero.symm⟩
      | succ i => exact hmeet i (Nat.lt_of_succ_lt_succ hi)

/-! ## laps -/

theorem Laps.lt {b : ℕ} {x : α} {xs : List α} (h : Laps start stop b x xs) : start x < stop x := by
  cases xs with
  | nil => exact h.1
  | cons y ys => exact h.1

theorem Laps.le {b : ℕ} {x : α} {xs : List α} (h : Laps start stop b x xs) : ∀ y ∈ x :: xs, start y < stop y ∧ stop y ≤ b := by
  induction xs generalizing x with
  | nil =>
    intro y hy
    rw [List.mem_singleton.mp hy]
    exact ⟨h.1, h.2.le⟩
  | cons z zs ih =>
    intro y hy
    have hrest := ih h.2.2
    rcases List.mem_cons.mp hy with rfl | hy
    · exact ⟨h.1, h.2.1.2.1.le.trans (hrest z List.mem_cons_self).2⟩
    · exact hrest y hy

theorem Laps.append {b c : ℕ} {x y : α} {xs ys : List α} (hx : Laps start stop b x xs) (hb : start y = b)
    (hy : Laps start stop c y ys) : Laps start stop c x (xs ++ y :: ys) := by
  have hylt := hy.lt
  induction xs generalizing x with
  | nil =>
    obtain ⟨hlt, hend⟩ := hx
    refine ⟨hlt, ⟨?_, ?_, ?_⟩, hy⟩ <;> omega
  | cons z zs ih => exact ⟨hx.1, hx.2.1, ih hx.2.2⟩

/-- every span is past all that are before it -/
theorem Laps.pairwise {b : ℕ} {x : α} {xs : List α} (h : Laps start stop b x xs) :
    (x :: xs).Pairwise fun s t => start s < start t ∧ stop s < stop t := by
  induction xs generalizing x with
  | nil => exact List.pairwise_singleton _ x
  | cons y ys ih =>
    have hrest := ih h.2.2
    refine List.pairwise_cons.mpr ⟨fun z hz => ?_, hrest⟩
    rcases List.mem_cons.mp hz with rfl | hz
    · exact ⟨h.2.1.1, h.2.1.2.1⟩
    · obtain ⟨hstart, hstop⟩ := (List.pairwise_cons.mp hrest).1 z hz
      exact ⟨h.2.1.1.trans hstart, h.2.1.2.1.trans hstop⟩

theorem Laps.isChain {b : ℕ} {x : α} {xs : List α} (h : Laps start stop b x xs) :
    (x :: xs).IsChain fun s t => start t ≤ stop s := by
  induction xs generalizing x with
  | nil => exact .singleton x
  | cons y ys ih => exact List.isChain_cons_cons.mpr ⟨h.2.1.2.2, ih h.2.2⟩

theorem Laps.getLast {b : ℕ} {x : α} {xs : List α} (h : Laps start stop b x xs) :
    (x :: xs).getLast?.map stop = some b := by
  induction xs generalizing x with
  | nil => exact congrArg some h.2
  | cons y ys ih =>
    rw [List.getLast?_cons_cons]
    exact ih h.2.2

/-- everything from the first start on is in some span -/
theorem Laps.exists_mem {b i : ℕ} {x : α} {xs : List α} (h : Laps start stop b x xs) (hstart : start x ≤ i) (hi : i < b) :
    ∃ y ∈ x :: xs, start y ≤ i ∧ i < stop y := by
  induction xs generalizing x with
  | nil => exact ⟨x, List.mem_cons_self, hstart, h.2 ▸ hi⟩
  | cons y ys ih =>
    by_cases hx : i < stop x
    · exact ⟨x, List.mem_cons_self, hstart, hx⟩
    · obtain ⟨z, hz, hin⟩ := ih h.2.2 (h.2.1.2.2.trans (not_lt.mp hx))
      exact ⟨z, List.mem_cons_of_mem x hz, hin⟩

/-- only the starts and stops count -/
theorem Laps.congr {start' stop' : β → ℕ} {b : ℕ} {x : α} {xs : List α} {y : β} {ys : List β}
    (h : Laps start stop b x xs)
    (he : (y :: ys).map (fun t => (start' t, stop' t)) = (x :: xs).map fun t => (start t, stop t)) :
    Laps start' stop' b y ys := by
  induction xs generalizing x y ys with
  | nil =>
    obtain ⟨hy, hys⟩ := List.cons_eq_cons.mp he
    obtain rfl := List.map_eq_nil_iff.mp hys
    obtain ⟨hstart, hstop⟩ := Prod.mk.inj hy
    exact ⟨by rw [hstart, hstop]; exact h.1, hstop.trans h.2⟩
  | cons z zs ih =>
    obtain ⟨hy, hys⟩ := List.cons_eq_cons.mp he
    cases ys with
    | nil => exact nomatch hys
    | cons w ws =>
      obtain ⟨hw, _⟩ := List.cons_eq_cons.mp hys
      obtain ⟨hstart, hstop⟩ := Prod.mk.inj hy
      obtain ⟨hstart', hstop'⟩ := Prod.mk.inj hw
      refine ⟨by rw [hstart, hstop]; exact h.1, ?_, ih h.2.2 hys⟩
      rw [hstart, hstop, hstart', hstop']
      exact h.2.1

/-- places that grow keep the order of the spans -/
theorem Laps.map {start' stop' : β → ℕ} {f : α → β} {place : ℕ → ℕ} {b : ℕ} {x : α} {xs : List α}
    (h : Laps start stop b x xs) (hplace : ∀ i j, i < j → j ≤ b → place i < place j)
    (hstart : ∀ y, start y < stop y → stop y ≤ b → start' (f y) = place (start y))
    (hstop : ∀ y, start y < stop y → stop y ≤ b → stop' (f y) = place (stop y)) :
    Laps start' stop' (place b) (f x) (xs.map f) := by
  have hle := h.le
  have hfx := hle x List.mem_cons_self
  induction xs generalizing x with
  | nil =>
    refine ⟨?_, ?_⟩
    · rw [hstart x hfx.1 hfx.2, hstop x hfx.1 hfx.2]
      exact hplace _ _ hfx.1 hfx.2
    · rw [hstop x hfx.1 hfx.2, h.2]
  | cons y ys ih =>
    obtain ⟨_, ⟨hss, hee, hse⟩, hrest⟩ := h
    have hfy := hle y (List.mem_cons_of_mem x List.mem_cons_self)
    have hbetween : place (start y) ≤ place (stop x) := by
      rcases hse.lt_or_eq with hlt | heq
      · exact (hplace _ _ hlt hfx.2).le
      · rw [heq]
    refine ⟨?_, ⟨?_, ?_, ?_⟩, ih hrest hrest.le (hrest.le y List.mem_cons_self)⟩
    · rw [hstart x hfx.1 hfx.2, hstop x hfx.1 hfx.2]
      exact hplace _ _ hfx.1 hfx.2
    · rw [hstart x hfx.1 hfx.2, hstart y hfy.1 hfy.2]
      exact hplace _ _ hss (hfy.1.le.trans hfy.2)
    · rw [hstop x hfx.1 hfx.2, hstop y hfy.1 hfy.2]
      exact hplace _ _ hee hfy.2
    · rw [hstart y hfy.1 hfy.2, hstop x hfx.1 hfx.2]
      exact hbetween

/-- rows of spans over tiles -/
theorem Tiles.laps {start' stop' : β → ℕ} {f : α → List β} {place : ℕ → ℕ} {a b : ℕ} {xs : List α}
    (h : Tiles start stop a b xs) (hne : xs ≠ [])
    (hf : ∀ x ∈ xs, ∃ y ys, f x = y :: ys ∧ start' y = place (start x) ∧ Laps start' stop' (place (stop x)) y ys) :
    ∃ y ys, xs.flatMap f = y :: ys ∧ start' y = place a ∧ Laps start' stop' (place b) y ys := by
  induction xs generalizing a with
  | nil => exact absurd rfl hne
  | cons x xs ih =>
    obtain ⟨y, ys, hy, hstart, hlaps⟩ := hf x List.mem_cons_self
    rw [List.flatMap_cons, hy]
    cases xs with
    | nil =>
      refine ⟨y, ys, List.append_nil _, h.1 ▸ hstart, ?_⟩
      rw [← show stop x = b from h.2.2]
      exact hlaps
    | cons x' xs' =>
      obtain ⟨z, zs, hz, hstart', hlaps'⟩ :=
        ih h.2.2 (List.cons_ne_nil x' xs') fun w hw => hf w (List.mem_cons_of_mem x hw)
      rw [hz]
      exact ⟨y, ys ++ z :: zs, rfl, h.1 ▸ hstart, hlaps.append hstart' hlaps'⟩

end
