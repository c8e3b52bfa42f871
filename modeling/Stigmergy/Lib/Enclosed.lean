import Stigmergy.Lib.Scan

/-!
# Spans between two marks

A span begins and ends with its mark.  Between the marks lie characters of one line, at least one, and no
more than it takes to come to a mark that closes: `mark(.+?)mark` and, with a bound, `mark(.{1,n}?)mark`.

* `reach`, `reachUpTo`       how many characters lie before the first place that closes;
* `enclosed`, `enclosedUpTo` a span at the front of a text, its length and its content;
* `dropped`, `droppedUpTo`   a text with its spans replaced by a blank;
* `droppedUpTo_eq`           where no span is over the bound, the bound changes nothing.
-/

set_option linter.unusedSectionVars false

namespace Enclosed

def reach (closes : Text → Bool) : Text → Option ℕ
  | [] => none
  | c :: t => if c = '\n' then none else if closes t then some 1 else (reach closes t).map (· + 1)

def reachUpTo (closes : Text → Bool) : ℕ → Text → Option ℕ
  | 0, _ => none
  | _ + 1, [] => none
  | n + 1, c :: t => if c = '\n' then none else if closes t then some 1 else (reachUpTo closes n t).map (· + 1)

/-- a span that closes where `follows` holds of the text behind it -/
def enclosed (mark : Text) (follows : Text → Bool) (t : Text) : Option (ℕ × Text) :=
  if Text.startsWith mark t then
    let rest := t.drop mark.length
    (reach (fun u => Text.startsWith mark u && follows (u.drop mark.length)) rest).map fun k =>
      (mark.length + k + mark.length, rest.take k)
  else none

def enclosedUpTo (limit : ℕ) (mark : Text) (follows : Text → Bool) (t : Text) : Option (ℕ × Text) :=
  if Text.startsWith mark t then
    let rest := t.drop mark.length
    (reachUpTo (fun u => Text.startsWith mark u && follows (u.drop mark.length)) limit rest).map fun k =>
      (mark.length + k + mark.length, rest.take k)
  else none

/-- the contents of the spans of a text -/
def contents (mark t : Text) : List Text := Scan.found (enclosed mark fun _ => true) t

def dropped (mark t : Text) : Text := Scan.sub (fun s => (enclosed mark (fun _ => true) s).map fun e => (e.1, [' '])) t

def droppedUpTo (limit : ℕ) (mark t : Text) : Text :=
  Scan.sub (fun s => (enclosedUpTo limit mark (fun _ => true) s).map fun e => (e.1, [' '])) t

/-! ## a bound on a span -/

theorem reach_le {closes : Text → Bool} {t : Text} {k : ℕ} (h : reach closes t = some k) : 1 ≤ k ∧ k ≤ t.length := by
  induction t generalizing k with
  | nil => exact nomatch h
  | cons c t ih =>
    rw [reach] at h
    split at h
    · exact nomatch h
    · split at h
      · obtain rfl := Option.some.inj h
        exact ⟨le_rfl, Nat.succ_pos t.length⟩
      · obtain ⟨j, hj, rfl⟩ := Option.map_eq_some_iff.mp h
        exact ⟨Nat.le_add_left 1 j, Nat.succ_le_succ (ih hj).2⟩

theorem reachUpTo_eq (closes : Text → Bool) (n : ℕ) (t : Text) :
    reachUpTo closes n t = (reach closes t).filter fun k => k ≤ n := by
  induction t generalizing n with
  | nil =>
    cases n <;> rfl
  | cons c t ih =>
    cases n with
    | zero =>
      cases h : reach closes (c :: t) with
      | none => rfl
      | some k =>
        rw [Option.filter_some, if_neg]
        · rfl
        · have hpos := (reach_le h).1
          simp only [decide_eq_true_eq]
          omega
    | succ n =>
      rw [reachUpTo, reach, ih]
      split
      · rfl
      · split
        · rw [Option.filter_some, if_pos]
          simp only [decide_eq_true_eq]
          omega
        · rw [Option.filter_map]
          congr 2
          funext k
          simp only [Function.comp, Nat.succ_le_succ_iff]

theorem enclosedUpTo_eq (limit : ℕ) (mark : Text) (follows : Text → Bool) (t : Text) :
    enclosedUpTo limit mark follows t = (enclosed mark follows t).filter fun e => e.2.length ≤ limit := by
  unfold enclosedUpTo enclosed
  split
  · dsimp only
    rw [reachUpTo_eq, Option.filter_map]
    cases h : reach (fun u => Text.startsWith mark u && follows (u.drop mark.length)) (t.drop mark.length) with
    | none => rfl
    | some k =>
      have hlen : ((t.drop mark.length).take k).length = k := List.length_take_of_le (reach_le h).2
      rw [Option.filter_some, Option.filter_some]
      simp only [Function.comp, hlen]
  · rfl

/-- where the content of every span is within the bound, the spans are the same with it -/
theorem droppedUpTo_eq {limit : ℕ} {mark t : Text} (h : ∀ s ∈ contents mark t, s.length ≤ limit) :
    droppedUpTo limit mark t = dropped mark t := by
  unfold droppedUpTo dropped
  simp only [enclosedUpTo_eq]
  exact Scan.sub_filter (fun _ => [' ']) (fun s => decide (s.length ≤ limit)) fun s hs => decide_eq_true (h s hs)

end Enclosed
