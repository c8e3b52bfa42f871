import Stigmergy.Capture.Writers
import Stigmergy.Kernel.Units
import Stigmergy.Knowledge.SourceCodec
import Stigmergy.Lib.Scan

/-!
# The trailer a commit is found by

`_commit_and_record` writes the id of its item as a trailer of the message, under a summary that is rid of
trailer names, and `_recover` asks the log for the trailer of an item.

* `safeSummary`     the summary without trailer names;
* `message`         the message of a commit;
* `Spelled`         what is left of a summary spells the trailer of an id;
* `marked_iff`      a message has the trailer of its own item only, unless its summary spells another;
* `recover_eq`      the log is then read as if it were kept by id;
* `not_marked`      a trailer right behind a letter stays.
-/

set_option linter.unusedSectionVars false

namespace Trailers

/-- the id of an item, as `str(uuid.UUID)` writes it -/
structure OperationId where
  text : Text
  isUuid : Sources.isUuid text = true
deriving DecidableEq

/-- the operations the writer commits -/
inductive Trigger where
  | capture | contradictionResolution | garden | delete | entity
deriving DecidableEq

def Trigger.text : Trigger → Text
  | capture => "capture".toList
  | contradictionResolution => "contradiction_resolution".toList
  | garden => "garden".toList
  | delete => "delete".toList
  | entity => "entity".toList

/-- `--grep` of `_recover` -/
def marker (x : OperationId) : Text := "Stigmergy-Operation: ".toList ++ x.text

/-! ## the summary -/

def NAMES : List Text := ["stigmergy-operation", "stigmergy-trigger", "submitted-by", "co-authored-by"].map String.toList

/-- the small letter a character is matched with under `(?i)`: also a dotted capital i, a dotless i and a long s -/
def fold (c : Char) : Char :=
  if c = Char.ofNat 0x130 ∨ c = Char.ofNat 0x131 then 'i'
  else if c = Char.ofNat 0x17F then 's'
  else Ascii.lowerChar c

section
variable (R : Runtime)

/-- `\w` -/
def isWord (c : Char) : Bool := R.isAlnum c || c == '_'

/-- `\b` between two characters -/
def boundary (prev : Option Char) (t : Text) : Bool := prev.any (isWord R) != t.head?.any (isWord R)

/-- a name, white space and a colon -/
def named (t name : Text) : Option ℕ :=
  if name.isPrefixOf (t.map fold) then
    let rest := t.drop name.length
    let gap := rest.takeWhile Text.isSpace
    if (rest.drop gap.length).head? = some ':' then some (name.length + gap.length + 1) else none
  else none

/-- the trailer name at a place, and what it is replaced by -/
def trailer (prev : Option Char) (t : Text) : Option (ℕ × Text) :=
  if boundary R prev t then (NAMES.findSome? (named t)).map fun n => (n, []) else none

/-- `_safe_summary` -/
def safeSummary (value : Text) : Text :=
  let text := (Scan.subBehind (trailer R) (Text.oneLine value)).take 500
  if text.isEmpty then "Updated team knowledge".toList else text

/-! ## the message -/

/-- the message of `_commit_and_record` -/
def message (x : OperationId) (summary : Text) (trigger : Trigger) : Text :=
  Text.unlines ["feat(knowledge): ".toList ++ (safeSummary R summary).take 68, [], marker x,
    "Stigmergy-Trigger: ".toList ++ trigger.text, []]

/-- a line of the message, as git stores it, holds a text -/
def grep (pattern msg : Text) : Bool := (Text.linesOf msg).any fun line => Text.contains pattern (Text.rstrip line)

/-- a commit of the writer -/
structure Landed where
  sha : Text
  operation : OperationId
  summary : Text
  trigger : Trigger

def Landed.message (c : Landed) : Text := Trailers.message R c.operation c.summary c.trigger

/-- what the other model keeps of a commit -/
def Landed.toCommit (c : Landed) : Writers.Commit OperationId := ⟨c.sha, some c.operation⟩

/-- the commit is found under an id -/
def Landed.Marked (c : Landed) (x : OperationId) : Prop := grep (marker x) (c.message R) = true

/-- `git log --fixed-strings --grep -1`, the log newest first -/
def recover (log : List Landed) (x : OperationId) : Option Landed := log.find? fun c => grep (marker x) (c.message R)

/-! ## what a summary spells -/

/-- a trailer name with its colon, at the edge of a word -/
def IsTrailer (prev : Option Char) (r u : Text) : Prop :=
  boundary R prev (r ++ u) = true ∧
    ∃ word gap, r = word ++ gap ++ [':'] ∧ word.map fold ∈ NAMES ∧ Text.isBlank gap = true

/-- without its trailer names the summary spells the trailer of an id, early enough to be kept -/
def Spelled (summary : Text) (x : OperationId) : Prop :=
  ∃ pre post, Scan.Rest (IsTrailer R) none (Text.oneLine summary) (pre ++ marker x ++ post) ∧ pre.length ≤ 11

/-- the summary spells the trailer of no other item -/
def Landed.Plain (c : Landed) : Prop := ¬∃ x, x ≠ c.operation ∧ Spelled R c.summary x

end

/-! ## trailer names -/

theorem names_apart : ∀ a ∈ NAMES, ∀ b ∈ NAMES, a <+: b → a = b := by decide

theorem names_ne_nil : ∀ a ∈ NAMES, a ≠ [] := by decide

theorem named_eq_some {t name : Text} {n : ℕ} : named t name = some n ↔
    ∃ word gap u, t = word ++ gap ++ ':' :: u ∧ word.map fold = name ∧ Text.isBlank gap = true ∧
      n = word.length + gap.length + 1 := by
  unfold named
  constructor
  · intro h
    split at h
    · next hpre =>
      dsimp only at h
      split at h
      · next hcolon =>
        obtain ⟨u, hu⟩ := List.isPrefixOf_iff_prefix.mp hpre
        have hword : (t.take name.length).map fold = name := by
          rw [List.map_take, ← hu, List.take_left]
        have hlen : (t.take name.length).length = name.length := by
          rw [← List.length_map fold, hword]
        obtain ⟨v, hv⟩ := List.head?_eq_some_iff.mp hcolon
        obtain ⟨hsplit, -⟩ := Body.split_takeWhile hv
        refine ⟨t.take name.length, (t.drop name.length).takeWhile Text.isSpace, v, ?_, hword, ?_, ?_⟩
        · rw [List.append_assoc, ← hsplit, List.take_append_drop]
        · exact Text.isBlank_iff.mpr fun c hc => List.mem_takeWhile_imp hc
        · rw [hlen]
          exact (Option.some.inj h).symm
      · exact nomatch h
    · exact nomatch h
  · rintro ⟨word, gap, u, rfl, rfl, hgap, rfl⟩
    have hcolon : Text.isSpace ':' = false := by decide
    have hrest : (word ++ gap ++ ':' :: u).drop (word.map fold).length = gap ++ ':' :: u := by
      rw [List.length_map, List.append_assoc, List.drop_left]
    have hpre : (word.map fold).isPrefixOf ((word ++ gap ++ ':' :: u).map fold) = true := by
      rw [List.append_assoc, List.map_append]
      exact List.isPrefixOf_iff_prefix.mpr (List.prefix_append _ _)
    rw [if_pos hpre]
    dsimp only
    rw [hrest, (Body.takeWhile_append_cons u (Text.isBlank_iff.mp hgap) hcolon).1, List.drop_left, List.head?_cons,
      if_pos rfl, List.length_map]

section
variable {R : Runtime}

theorem trailer_eq_some (prev : Option Char) (t : Text) (e : ℕ × Text) : trailer R prev t = some e ↔
    ∃ r u, r ≠ [] ∧ t = r ++ u ∧ e = (r.length, []) ∧ IsTrailer R prev r u := by
  unfold trailer
  constructor
  · intro h
    split at h
    · next hb =>
      obtain ⟨n, hn, rfl⟩ := Option.map_eq_some_iff.mp h
      obtain ⟨name, hname, hsome⟩ := List.exists_of_findSome?_eq_some hn
      obtain ⟨word, gap, u, rfl, rfl, hgap, rfl⟩ := named_eq_some.mp hsome
      have hsplit : word ++ gap ++ ':' :: u = word ++ gap ++ [':'] ++ u := by
        rw [List.append_assoc (word ++ gap), List.singleton_append]
      rw [hsplit] at hb
      refine ⟨word ++ gap ++ [':'], u, ?_, hsplit, ?_, hb, word, gap, rfl, hname, hgap⟩
      · exact List.append_ne_nil_of_right_ne_nil _ (List.cons_ne_nil _ _)
      · rw [List.length_append, List.length_append]
        rfl
    · exact nomatch h
  · rintro ⟨r, u, -, rfl, rfl, hb, word, gap, rfl, hname, hgap⟩
    rw [if_pos hb, List.append_assoc (word ++ gap), List.singleton_append]
    have hword : named (word ++ gap ++ ':' :: u) (word.map fold) = some (word.length + gap.length + 1) :=
      named_eq_some.mpr ⟨word, gap, u, rfl, rfl, hgap, rfl⟩
    have honly : ∀ name ∈ NAMES, ∀ n, named (word ++ gap ++ ':' :: u) name = some n →
        n = word.length + gap.length + 1 := by
      intro name hmem n hn
      obtain ⟨word', gap', u', heq, hfold, -, -⟩ := named_eq_some.mp hn
      have hpre : ∀ w g v, w ++ g ++ ':' :: v = word ++ gap ++ ':' :: u →
          w.map fold <+: (word ++ gap ++ ':' :: u).map fold := by
        intro w g v h
        rw [← h, List.append_assoc, List.map_append]
        exact List.prefix_append _ _
      have hsame : name = word.map fold := by
        have h₁ := hpre word' gap' u' heq.symm
        have h₂ := hpre word gap u rfl
        rw [hfold] at h₁
        rcases List.prefix_or_prefix_of_prefix h₁ h₂ with h | h
        · exact names_apart name hmem _ hname h
        · exact (names_apart _ hname name hmem h).symm
      rw [hsame, hword] at hn
      exact (Option.some.inj hn).symm
    cases hfind : NAMES.findSome? (named (word ++ gap ++ ':' :: u)) with
    | none =>
      rw [List.findSome?_eq_none_iff.mp hfind _ hname] at hword
      exact nomatch hword
    | some n =>
      obtain ⟨name, hmem, hn⟩ := List.exists_of_findSome?_eq_some hfind
      rw [honly name hmem n hn, Option.map_some, List.length_append, List.length_append]
      rfl

theorem rest_oneLine {summary s : Text} : Scan.Rest (IsTrailer R) none (Text.oneLine summary) s ↔
    s = Scan.subBehind (trailer R) (Text.oneLine summary) := Scan.rest_iff trailer_eq_some

/-! ## markers -/

theorem length_id (x : OperationId) : x.text.length = 36 := by
  have h := x.isUuid
  rw [Sources.isUuid, Bool.and_eq_true, beq_iff_eq] at h
  exact h.1

theorem length_marker (x : OperationId) : (marker x).length = 57 := by
  have hfront : "Stigmergy-Operation: ".toList.length = 21 := by decide
  have hid := length_id x
  unfold marker
  rw [List.length_append]
  omega

theorem not_space_marker (x : OperationId) (hl : marker x ≠ []) : Text.isSpace ((marker x).getLast hl) = false := by
  have hne : x.text ≠ [] := by
    intro h
    have hlen := length_id x
    rw [h] at hlen
    exact absurd hlen (by decide)
  have hlast : (marker x).getLast hl = x.text.getLast hne := List.getLast_append_of_ne_nil _ hne
  rw [hlast]
  exact (Sources.printable_uuid (Sources.uuid_char x.isUuid _ (List.getLast_mem hne))).1

theorem newline_marker (x : OperationId) : '\n' ∉ marker x := by
  intro h
  rcases List.mem_append.mp h with h | h
  · exact absurd h (by decide)
  · exact absurd (Sources.printable_uuid (Sources.uuid_char x.isUuid _ h)).1 (by decide)

theorem marker_inj {x y : OperationId} (h : marker x = marker y) : x = y := by
  cases x
  cases y
  exact OperationId.mk.injEq _ _ _ _ ▸ List.append_cancel_left h

theorem marker_within {x y : OperationId} (h : marker x <:+: marker y) : x = y :=
  marker_inj (h.eq_of_length ((length_marker x).trans (length_marker y).symm))

theorem not_infix_of_short {x : OperationId} {t : Text} (h : t.length < 57) : ¬marker x <:+: t := by
  intro hin
  have hle := hin.length_le
  rw [length_marker] at hle
  omega

/-- a text in front that lacks the first character -/
theorem infix_of_notMem {c : Char} {p u v : Text} (hc : c ∉ u) (h : c :: p <:+: u ++ v) : c :: p <:+: v := by
  obtain ⟨a, b, h⟩ := h
  rw [List.append_assoc] at h
  rcases List.append_eq_append_iff.mp h with ⟨w, hu, -⟩ | ⟨w, -, hv⟩
  · cases w with
    | nil =>
      rw [List.append_nil] at hu
      rw [hu] at h
      exact ⟨[], b, List.append_cancel_left h⟩
    | cons d w =>
      rw [hu, List.append_assoc] at h
      obtain ⟨rfl, -⟩ := List.cons_eq_cons.mp (List.append_cancel_left h)
      exact absurd (by rw [hu]; exact List.mem_append_right a List.mem_cons_self) hc
  · exact ⟨w, b, by rw [List.append_assoc]; exact hv.symm⟩

theorem infix_take {p t : Text} {n : ℕ} :
    p <:+: t.take n ↔ ∃ pre post, t = pre ++ p ++ post ∧ (p ≠ [] → pre.length + p.length ≤ n) := by
  constructor
  · rintro ⟨a, b, h⟩
    refine ⟨a, b ++ t.drop n, ?_, fun _ => ?_⟩
    · rw [← List.append_assoc, h, List.take_append_drop]
    · have hlen := congrArg List.length h
      rw [List.length_append, List.length_append, List.length_take] at hlen
      omega
  · rintro ⟨pre, post, rfl, hlen⟩
    by_cases hp : p = []
    · rw [hp]
      exact List.nil_infix
    · rw [List.take_append, List.take_of_length_le]
      · exact ⟨pre, post.take (n - (pre ++ p).length), rfl⟩
      · rw [List.length_append]
        exact hlen hp

/-! ## what a message is found by -/

theorem mem_safeSummary {summary : Text} {c : Char} (h : c ∈ safeSummary R summary) : c ≠ '\n' := by
  rintro rfl
  unfold safeSummary at h
  dsimp only at h
  split at h
  · exact absurd h (by decide)
  · have hmem := (rest_oneLine.mpr rfl).sublist.subset (List.mem_of_mem_take h)
    rcases Text.mem_oneLine hmem with hc | hc
    · exact absurd hc (by decide)
    · exact absurd hc (by decide)

/-- the marker of an id in what is kept of a summary -/
theorem infix_safeSummary {summary : Text} {x : OperationId} :
    marker x <:+: (safeSummary R summary).take 68 ↔ Spelled R summary x := by
  have hne : marker x ≠ [] := List.append_ne_nil_of_left_ne_nil (List.cons_ne_nil _ _) _
  have hcut : Spelled R summary x ↔ marker x <:+: (Scan.subBehind (trailer R) (Text.oneLine summary)).take 68 := by
    rw [infix_take]
    refine exists_congr fun pre => exists_congr fun post => ?_
    rw [rest_oneLine, eq_comm, length_marker]
    refine and_congr_right fun _ => ⟨fun h _ => by omega, fun h => ?_⟩
    have hlen := h hne
    omega
  rw [hcut]
  unfold safeSummary
  dsimp only
  split
  · next hempty =>
    refine iff_of_false (not_infix_of_short (by decide)) fun h => ?_
    have hnil := List.take_eq_nil_iff.mp (List.isEmpty_iff.mp hempty)
    rw [hnil.resolve_left (by decide)] at h
    exact not_infix_of_short (by decide) h
  · rw [List.take_take]
    rfl

/-- the lines of a message that can hold a marker: the summary, and the trailer of its item -/
theorem grep_message {x y : OperationId} {summary : Text} {trigger : Trigger} :
    grep (marker x) (message R y summary trigger) = true ↔ x = y ∨ Spelled R summary x := by
  have hlines : Text.linesOf (message R y summary trigger) =
      ["feat(knowledge): ".toList ++ (safeSummary R summary).take 68, [], marker y,
        "Stigmergy-Trigger: ".toList ++ trigger.text, []] := by
    refine Text.linesOf_unlines (fun l hl => ?_) (List.cons_ne_nil _ _)
    simp only [List.mem_cons, List.not_mem_nil, or_false] at hl
    rcases hl with rfl | rfl | rfl | rfl | rfl
    · intro h
      rcases List.mem_append.mp h with h | h
      · exact absurd h (by decide)
      · exact mem_safeSummary (List.mem_of_mem_take h) rfl
    · exact List.not_mem_nil
    · exact newline_marker y
    · cases trigger <;> decide
    · exact List.not_mem_nil
  have hline : ∀ line, Text.contains (marker x) (Text.rstrip line) = true ↔ marker x <:+: line :=
    fun line => Text.contains_iff.trans (Text.infix_rstrip (not_space_marker x))
  have hfirst : marker x <:+: "feat(knowledge): ".toList ++ (safeSummary R summary).take 68 ↔ Spelled R summary x := by
    rw [← infix_safeSummary]
    exact ⟨infix_of_notMem (by decide), fun h => h.trans (List.suffix_append _ _).isInfix⟩
  have hown : marker x <:+: marker y ↔ x = y := ⟨marker_within, fun h => h ▸ List.infix_rfl⟩
  have htrigger : ¬marker x <:+: "Stigmergy-Trigger: ".toList ++ trigger.text :=
    not_infix_of_short (by cases trigger <;> decide)
  have hnil : ¬marker x <:+: [] := not_infix_of_short (by decide)
  rw [grep, List.any_eq_true, hlines]
  simp only [List.mem_cons, List.not_mem_nil, or_false, exists_eq_or_imp, exists_eq_left, hline, hfirst, hown, htrigger,
    hnil, or_false, false_or]
  exact or_comm

theorem marked_self (c : Landed) : c.Marked R c.operation := grep_message.mpr (Or.inl rfl)

/-- a commit is taken for its own item only, exactly when its summary spells no other -/
theorem marked_iff (c : Landed) :
    ((∀ x, c.Marked R x → x = c.operation) ∧ ∀ log x, recover R log x = some c → x = c.operation) ↔ c.Plain R := by
  have hmarked : (∀ x, c.Marked R x → x = c.operation) ↔ c.Plain R := by
    constructor
    · rintro h ⟨x, hne, hx⟩
      exact hne (h x (grep_message.mpr (Or.inr hx)))
    · intro h x hx
      rcases grep_message.mp hx with rfl | hx
      · rfl
      · by_contra hne
        exact h ⟨x, hne, hx⟩
  rw [← hmarked]
  refine and_iff_left_of_imp fun h log x hx => h x ?_
  exact List.find?_some (p := fun c : Landed => grep (marker x) (c.message R)) hx

/-- a log of such commits is read by the ids of their items -/
theorem recover_eq {log : List Landed} (h : ∀ c ∈ log, c.Plain R) (x : OperationId) :
    (recover R log x).map Landed.toCommit = Writers.recover (log.map Landed.toCommit) x := by
  have hsame : ∀ c ∈ log, grep (marker x) (c.message R) = (c.operation == x) := by
    intro c hc
    rw [Bool.eq_iff_iff, beq_iff_eq]
    constructor
    · intro hm
      rcases grep_message.mp hm with rfl | hx
      · rfl
      · by_contra hne
        exact h c hc ⟨x, Ne.symm hne, hx⟩
    · rintro rfl
      exact marked_self c
  clear h
  induction log with
  | nil => rfl
  | cons c log ih =>
    have hrest := ih fun d hd => hsame d (List.mem_cons_of_mem c hd)
    have hc : ((Landed.toCommit c).operation == some x) = (c.operation == x) := rfl
    rw [Writers.recover] at hrest ⊢
    rw [recover] at hrest ⊢
    rw [List.map_cons, List.find?_cons, List.find?_cons, hsame c List.mem_cons_self, hc]
    cases c.operation == x
    · exact hrest
    · rfl

/-- a trailer that a summary spells stands right behind a letter, or around a trailer name that is taken out -/
theorem spelled_cases (hletter : R.isAlnum 'S' = true) {summary : Text} {x : OperationId} (h : Spelled R summary x) :
    (∃ c, isWord R c = true ∧ c :: marker x <:+: Text.oneLine summary) ∨
      ∃ pre r u, Text.oneLine summary = pre ++ (r ++ u) ∧ IsTrailer R pre.getLast? r u := by
  obtain ⟨pre, post, hrest, -⟩ := h
  rcases hrest.eq_or_match with heq | ⟨pre, r, u, heq, -, hP⟩
  · by_cases hb : boundary R pre.getLast? (marker x ++ post) = true
    · have hsplit : marker x ++ post = "Stigmergy-Operation:".toList ++ (' ' :: x.text ++ post) := by
        have hfront : "Stigmergy-Operation: ".toList = "Stigmergy-Operation:".toList ++ [' '] := by decide
        unfold marker
        rw [hfront, List.append_assoc, List.append_assoc]
        rfl
      refine Or.inr ⟨pre, "Stigmergy-Operation:".toList, ' ' :: x.text ++ post, ?_, ?_,
        "Stigmergy-Operation".toList, [], rfl, by decide, rfl⟩
      · rw [← hsplit, ← List.append_assoc]
        exact heq.symm
      · rw [← hsplit]
        exact hb
    · have hS : ((marker x ++ post).head?.any (isWord R)) = true := by
        show isWord R 'S' = true
        rw [isWord, hletter]
        rfl
      rw [boundary, hS] at hb
      cases hlast : pre.getLast? with
      | none =>
        rw [hlast] at hb
        exact absurd rfl hb
      | some c =>
        rw [hlast] at hb
        obtain ⟨init, rfl⟩ := List.getLast?_eq_some_iff.mp hlast
        refine Or.inl ⟨c, ?_, init, post, ?_⟩
        · by_contra hc
          rw [Option.any_some, Bool.eq_false_iff.mpr hc] at hb
          exact absurd rfl hb
        · rw [← heq]
          simp only [List.append_assoc, List.cons_append, List.nil_append]
  · rw [Option.or_none] at hP
    exact Or.inr ⟨pre, r, u, heq, hP⟩

end

/-! ## a summary that spells another trailer -/

def FIRST : OperationId := ⟨"0f8fad5b-d9cb-469f-a165-70867728950e".toList, by decide⟩

def SECOND : OperationId := ⟨"7c9e6679-7425-40de-944b-e07fc1f90ae7".toList, by decide⟩

def forged : Landed := ⟨[], SECOND, 'x' :: marker FIRST, .entity⟩

/-- the commit of one item is found under the id of another -/
theorem not_marked : ¬∀ (R : Runtime) (c : Landed),
    (∀ x, c.Marked R x → x = c.operation) ∧ ∀ log x, recover R log x = some c → x = c.operation := by
  intro h
  have hmarked : forged.Marked ascii FIRST := by
    unfold Landed.Marked
    decide +kernel
  exact absurd ((h ascii forged).1 FIRST hmarked) (by decide)

end Trailers
