import Mathlib.Algebra.Order.Field.Rat
import Mathlib.Order.WithBotTop
import Stigmergy.Server.Roster

/-!
# The layer a capture files in

`server/identity.py` for the layers a principal may name, `server/routing.py` for the layer of a capture that
names one or none.

* `resolveCaptureLayer`   the layer that is named, or the caller's default;
* `route`                 the layer, and how it was decided;
* `best_max`              the first of the largest numbers, when some of them are none;
* `unnamed_filed`         without a name, the default or what the classifier is sure of;
* `route_narrow`          whatever the roster, the table and the classifier say, a layer the caller may publish to.
-/

set_option linter.unusedSectionVars false

namespace Routing
open Roster (Value UNRESTRICTED_GROUP MAX_GROUPS MAX_GROUP_NAME_CHARS isGroupName)

/-! ## principals -/

structure Principal where
  groups : List Text
  defaultAudience : Option (List Text)

/-- `default_layer` -/
def Principal.defaultLayer (p : Principal) : Option Text := p.defaultAudience.bind List.head?

def Principal.publishableLayers (p : Principal) : List Text :=
  (Layers.PUBLIC :: p.groups.filter (· != UNRESTRICTED_GROUP)).dedup

inductive Raised where
  | identity (message : Text)
  | layerRefused (message : Text)
  | layer (message : Text)
  /-- what a callback or a built-in raises -/
  | other (name : Text)
deriving DecidableEq

def FILE_REMEDY : Text := "use an explicit list of groups".toList
def DOOR_REMEDY : Text := "choose an audience configured for your identity".toList

/-- `acl_of_layer` -/
def aclOfLayer (layer : Text) : Except Raised (Option (List Text)) :=
  if layer = Layers.PUBLIC then .ok none
  else if Layers.isLayerName layer then .ok (some [layer])
  else .error (.layer "layer name is invalid".toList)

section
variable (casefold : Text → Text)

/-- `check_group_names` after the names before are found good -/
def checkNames (origin subject remedy : Text) : List Text → List Value → Except Text (List Text)
  | result, [] => .ok result
  | result, .text value :: values =>
    let name := Text.strip value
    if MAX_GROUP_NAME_CHARS < name.length || !isGroupName name || casefold name == "all".toList ||
        name == ['*'] then
      .error (subject ++ (" contains an invalid group name in ".toList ++ origin ++ ": ".toList ++ remedy))
    else if casefold name == casefold UNRESTRICTED_GROUP && name != UNRESTRICTED_GROUP then
      .error (subject ++ (" contains a mis-cased unrestricted group in ".toList ++ origin))
    else if result.contains name then
      .error (subject ++ (" contains a duplicate group in ".toList ++ origin))
    else checkNames origin subject remedy (result ++ [name]) values
  | _, _ :: _ => .error (subject ++ (" contains a non-string group in ".toList ++ origin))

def checkGroupNames (names : List Value) (origin subject remedy : Text) : Except Text (List Text) :=
  if MAX_GROUPS < names.length then
    .error (subject ++ (" exceeds the 32-group limit in ".toList ++ origin))
  else checkNames casefold origin subject remedy [] names

def allowed (p : Principal) : Text := ", ".toList.intercalate (p.publishableLayers.insertionSort (· ≤ ·))

def notYourLayer (p : Principal) : Text :=
  "you cannot file a capture in a layer you are not a member of. You may file in ".toList ++ allowed p ++
    " — name one of them in `audience`, or omit it to use your default layer".toList

def noDefaultLayer (p : Principal) : Text :=
  "your identity has no default layer, so a capture must name its layer: send `audience` as one of ".toList ++ allowed p

/-- the layer of a request, by the names it holds -/
def requestedLayer (names : List Value) : Except Raised Text :=
  match checkGroupNames casefold names "this submission".toList "audience".toList DOOR_REMEDY with
  | .error message => .error (.identity message)
  | .ok [layer] => .ok layer
  | .ok _ => .error (.layerRefused
      "a capture files in exactly one layer: send `audience` with one layer name".toList)

/-- `resolve_capture_layer` -/
def resolveCaptureLayer (p : Principal) (requested : Value) : Except Raised (Option (List Text)) :=
  let layer : Except Raised Text :=
    match requested with
    | .null =>
      match p.defaultLayer with
      | none => .error (.layerRefused (noDefaultLayer p))
      | some layer => .ok layer
    | .text t => .error (.layerRefused
        ("audience must be a list naming one layer, not a string — send [\"".toList ++ t ++ "\"]".toList))
    | requested =>
      match requested.items with
      | none => .error (.other "TypeError".toList)
      | some names => requestedLayer casefold names
  match layer with
  | .error e => .error e
  | .ok layer =>
    if p.publishableLayers.contains layer then aclOfLayer layer else .error (.layerRefused (notYourLayer p))

end

/-! ## the classifier -/

/-- a float: an infinity, a number, or none -/
inductive Number where
  | nan
  | real (x : WithBot (WithTop ℚ))
deriving DecidableEq

/-- `<`, false when either is none -/
def Number.less : Number → Number → Bool
  | real x, real y => decide (x < y)
  | _, _ => false

def THRESHOLD : ℚ := 3 / 4

/-- `>= THRESHOLD` -/
def Number.reaches : Number → Bool
  | real x => decide (((THRESHOLD : ℚ) : WithBot (WithTop ℚ)) ≤ x)
  | nan => false

/-- what asking the classifier comes to: an answer for each option, which `float` may refuse, an error, or what
no `except Exception` catches -/
inductive Answer where
  | probabilities (answer : List (Text × Option Number))
  | failed (reason : Text)
  | interrupted (name : Text)

inductive How where
  | explicit | channel | default | classified
deriving DecidableEq

structure LayerDecision where
  decision : How
  probabilities : Option (List (Text × Number))
deriving DecidableEq

structure Routed where
  acl : Option (List Text)
  decision : LayerDecision
deriving DecidableEq

abbrev Table := List (Text × Text)

def Table.get (table : Table) (key : Text) : Option Text := (table.find? fun e => e.1 == key).map (·.2)

def NO_SINGLE_LAYER : Text := "no_single_layer".toList
def NO_SINGLE_LAYER_CRITERIA : Text :=
  "None of these layers clearly fits the capture, or it fits more than one of them equally well.".toList

/-- the layers a principal could name, without `public` -/
def candidates (p : Principal) : List Text := p.publishableLayers.filter (· != Layers.PUBLIC)

/-- the candidates that exist, described -/
def choices (p : Principal) (known : Table) : Table :=
  ((candidates p).insertionSort (· ≤ ·)).filterMap fun layer =>
    (known.get layer).map fun description => (layer, if description.isEmpty then layer else description)

/-- `{**choices, NO_SINGLE_LAYER: …}` -/
def options (choices : Table) : Table :=
  if choices.any fun e => e.1 == NO_SINGLE_LAYER then
    choices.map fun e => if e.1 == NO_SINGLE_LAYER then (e.1, NO_SINGLE_LAYER_CRITERIA) else e
  else choices ++ [(NO_SINGLE_LAYER, NO_SINGLE_LAYER_CRITERIA)]

/-- the probability of each option, if the answer has all of them and nothing else -/
def readAnswer (options : Table) (answer : List (Text × Option Number)) : Option (List (Text × Number)) :=
  let keys := options.map Prod.fst
  if keys.all (fun key => (answer.map Prod.fst).contains key) && answer.all fun e => keys.contains e.1 then
    keys.mapM fun key => ((answer.find? fun e => e.1 == key).bind (·.2)).map fun number => (key, number)
  else none

/-- `probabilities[option]` -/
def number (probabilities : List (Text × Number)) (option : Text) : Number :=
  ((probabilities.find? fun e => e.1 == option).map (·.2)).getD .nan

/-- `max` by a key, which keeps the first it finds unless another is larger -/
def best (key : Text → Number) : Text → List Text → Text
  | b, [] => b
  | b, l :: ls => best key (if (key b).less (key l) then l else b) ls

section
variable (casefold : Text → Text) (p : Principal) (descriptions : Except Raised Table)
  (state : Except Raised Table) (choose : Table → Table → Answer)

/-- `_unnamed` with the table and the state at hand -/
def classify (default : Option (List Text)) (choices : Table) (snapshot : Table) : Except Raised Routed :=
  let unsure : Routed := ⟨default, .default, none⟩
  match choose (options choices) snapshot with
  | .interrupted name => .error (.other name)
  | .failed _ => .ok unsure
  | .probabilities answer =>
    match readAnswer (options choices) answer with
    | none => .ok unsure
    | some probabilities =>
      match choices.map Prod.fst with
      | [] => .error (.other "ValueError".toList)
      | first :: others =>
        let layer := best (number probabilities) first others
        if (number probabilities layer).reaches then
          match aclOfLayer layer with
          | .error e => .error e
          | .ok acl => .ok ⟨acl, .classified, some probabilities⟩
        else .ok ⟨default, .default, some probabilities⟩

/-- `_unnamed` -/
def unnamed : Except Raised Routed :=
  match resolveCaptureLayer casefold p .null with
  | .error e => .error e
  | .ok default =>
    if (candidates p).length < 2 then .ok ⟨default, .default, none⟩
    else
      match descriptions with
      | .error e => .error e
      | .ok known =>
        if (choices p known).length < 2 then .ok ⟨default, .default, none⟩
        else
          match state with
          | .error e => .error e
          | .ok snapshot =>
            if snapshot.isEmpty then .ok ⟨default, .default, none⟩ else classify choose default (choices p known) snapshot

def route (requested : Value) (fixedByDoor : Bool) : Except Raised Routed :=
  let routed : Except Raised Routed :=
    match requested with
    | .null => unnamed casefold p descriptions state choose
    | requested =>
      match resolveCaptureLayer casefold p requested with
      | .error e => .error e
      | .ok acl => .ok ⟨acl, if fixedByDoor then .channel else .explicit, none⟩
  match routed with
  | .error e => .error e
  | .ok routed =>
    match routed.acl with
    | none => .ok routed
    | some acl =>
      match descriptions with
      | .error e => .error e
      | .ok known =>
        if acl.head?.any fun layer => (known.get layer).isSome then .ok routed
        else .error (.layerRefused "that layer does not exist".toList)

end

/-! ## what is named -/

/-- a literal that is two others -/
theorem toList_eq_append {l m n : List Char} (h : l = m ++ n) :
    (String.ofList l).toList = (String.ofList m).toList ++ (String.ofList n).toList := by
  rw [String.toList_ofList, String.toList_ofList, String.toList_ofList]
  exact h

/-- the roster's check is this one, with its own words -/
theorem checkNames_roster (R : Runtime) (subject : Text) (result : List Text) (names : List Value) :
    Roster.checkNames R subject result names =
      checkNames R.casefold "the roster".toList subject FILE_REMEDY result names := by
  have hinvalid : " contains an invalid group name in the roster: use an explicit list of groups".toList =
      " contains an invalid group name in ".toList ++ "the roster".toList ++ ": ".toList ++ FILE_REMEDY := by
    have h₁ : " contains an invalid group name in the roster: use an explicit list of groups".toList =
        " contains an invalid group name in the roster: ".toList ++ FILE_REMEDY := toList_eq_append rfl
    have h₂ : " contains an invalid group name in the roster: ".toList =
        " contains an invalid group name in the roster".toList ++ ": ".toList := toList_eq_append rfl
    have h₃ : " contains an invalid group name in the roster".toList =
        " contains an invalid group name in ".toList ++ "the roster".toList := toList_eq_append rfl
    rw [h₁, h₂, h₃]
  have hcased : " contains a mis-cased unrestricted group in the roster".toList =
      " contains a mis-cased unrestricted group in ".toList ++ "the roster".toList := toList_eq_append rfl
  have hduplicate : " contains a duplicate group in the roster".toList =
      " contains a duplicate group in ".toList ++ "the roster".toList := toList_eq_append rfl
  have hstring : " contains a non-string group in the roster".toList =
      " contains a non-string group in ".toList ++ "the roster".toList := toList_eq_append rfl
  induction names generalizing result with
  | nil => rfl
  | cons name names ih =>
    cases name with
    | text t => simp only [Roster.checkNames, checkNames, ih, hinvalid, hcased, hduplicate, -String.reduceToList]
    | _ => simp only [Roster.checkNames, checkNames, hstring, -String.reduceToList]

/-- one text in a list, white space around it -/
def Names (requested : Value) (layer : Text) : Prop :=
  (∀ t, requested ≠ .text t) ∧ ∃ t, requested.items = some [.text t] ∧ Text.strip t = layer

section
variable {casefold : Text → Text} {p : Principal} {descriptions : Except Raised Table} {state : Except Raised Table}
  {choose : Table → Table → Answer}

theorem checkNames_ok {origin subject remedy : Text} {result layers : List Text} {names : List Value}
    (h : checkNames casefold origin subject remedy result names = .ok layers) :
    ∃ ts : List Text, names = ts.map .text ∧ layers = result ++ ts.map Text.strip := by
  induction names generalizing result with
  | nil => exact ⟨[], rfl, (Except.ok.inj h).symm.trans (List.append_nil result).symm⟩
  | cons name names ih =>
    cases name with
    | text t =>
      rw [checkNames] at h
      split at h
      · exact nomatch h
      split at h
      · exact nomatch h
      split at h
      · exact nomatch h
      obtain ⟨ts, rfl, rfl⟩ := ih h
      exact ⟨t :: ts, rfl, List.append_assoc _ _ _⟩
    | null => exact nomatch h
    | bool b => exact nomatch h
    | number b t => exact nomatch h
    | list items t => exact nomatch h
    | object keys t => exact nomatch h

theorem requestedLayer_ok {names : List Value} {layer : Text} (h : requestedLayer casefold names = .ok layer) :
    ∃ t, names = [.text t] ∧ Text.strip t = layer := by
  unfold requestedLayer checkGroupNames at h
  split at h
  · exact nomatch h
  · next checked hchecked =>
    obtain rfl := Except.ok.inj h
    split at hchecked
    · exact nomatch hchecked
    obtain ⟨ts, rfl, hts⟩ := checkNames_ok hchecked
    match ts, hts with
    | [t], hts => exact ⟨t, rfl, (List.singleton_inj.mp hts).symm⟩
  · exact nomatch h

/-- what is filed in is named or is the default, and the caller may publish to it -/
theorem resolveCaptureLayer_ok {requested : Value} {acl : Option (List Text)}
    (h : resolveCaptureLayer casefold p requested = .ok acl) :
    ∃ layer, aclOfLayer layer = .ok acl ∧ layer ∈ p.publishableLayers ∧
      (requested = .null ∧ p.defaultLayer = some layer ∨ Names requested layer) := by
  unfold resolveCaptureLayer at h
  dsimp only at h
  split at h
  · exact nomatch h
  next layer hlayer =>
    split at h
    · next hmem =>
      refine ⟨layer, h, List.contains_iff_mem.mp hmem, ?_⟩
      split at hlayer
      · left
        split at hlayer
        · exact nomatch hlayer
        · next default hdefault =>
          obtain rfl := Except.ok.inj hlayer
          exact ⟨rfl, hdefault⟩
      · exact nomatch hlayer
      · next hnull htext =>
        right
        split at hlayer
        · exact nomatch hlayer
        · next names hitems =>
          obtain ⟨t, rfl, hstrip⟩ := requestedLayer_ok hlayer
          exact ⟨htext, t, hitems, hstrip⟩
    · exact nomatch h

theorem aclOfLayer_none {layer : Text} (h : aclOfLayer layer = .ok none) : layer = Layers.PUBLIC := by
  unfold aclOfLayer at h
  split at h
  · next hpublic => exact hpublic
  · split at h <;> exact nomatch h

theorem aclOfLayer_some {layer : Text} {acl : List Text} (h : aclOfLayer layer = .ok (some acl)) : acl = [layer] := by
  unfold aclOfLayer at h
  split at h
  · exact nomatch h
  · split at h
    · exact (Option.some.inj (Except.ok.inj h)).symm
    · exact nomatch h

/-! ## what is classified -/

theorem less_trans {x y z : Number} (hx : x.less y = false) (hy : y.less z = false) (hne : y ≠ .nan) :
    x.less z = false := by
  cases x with
  | nan => rfl
  | real a =>
    cases y with
    | nan => exact absurd rfl hne
    | real b =>
      cases z with
      | nan => rfl
      | real c =>
        have hab := not_lt.mp (of_decide_eq_false hx)
        have hbc := not_lt.mp (of_decide_eq_false hy)
        exact decide_eq_false (not_lt.mpr (hbc.trans hab))

theorem less_of_less {x y : Number} (h : x.less y = true) : y.less x = false ∧ y ≠ .nan := by
  cases x with
  | nan => exact nomatch h
  | real a =>
    cases y with
    | nan => exact nomatch h
    | real b => exact ⟨decide_eq_false (lt_asymm (of_decide_eq_true h)), fun e => nomatch e⟩

theorem best_mem (key : Text → Number) (b : Text) (ls : List Text) : best key b ls ∈ b :: ls := by
  induction ls generalizing b with
  | nil => exact List.mem_cons_self
  | cons l ls ih =>
    rw [best]
    rcases List.mem_cons.mp (ih (if (key b).less (key l) then l else b)) with h | h
    · rw [h]
      split
      · exact List.mem_cons_of_mem _ List.mem_cons_self
      · exact List.mem_cons_self
    · exact List.mem_cons_of_mem _ (List.mem_cons_of_mem _ h)

/-- a first that is no number stays -/
theorem best_nan {key : Text → Number} {b : Text} (hb : key b = .nan) (ls : List Text) : best key b ls = b := by
  induction ls with
  | nil => rfl
  | cons l ls ih =>
    rw [best, hb]
    exact ih

/-- nothing is larger than the best, if it is a number -/
theorem best_max {key : Text → Number} {b : Text} {ls : List Text} (h : key (best key b ls) ≠ .nan) :
    ∀ l ∈ b :: ls, (key (best key b ls)).less (key l) = false := by
  induction ls generalizing b with
  | nil =>
    intro l hl
    rw [List.mem_singleton.mp hl, best]
    cases key b with
    | nan => rfl
    | real x => exact decide_eq_false (lt_irrefl x)
  | cons m ls ih =>
    rw [best] at h ⊢
    have hmax := ih h
    by_cases hless : (key b).less (key m) = true
    · rw [if_pos hless] at h hmax ⊢
      intro l hl
      rcases List.mem_cons.mp hl with rfl | hl
      · exact less_trans (hmax m List.mem_cons_self) (less_of_less hless).1 (less_of_less hless).2
      · exact hmax l hl
    · rw [if_neg hless] at h hmax ⊢
      intro l hl
      rcases List.mem_cons.mp hl with rfl | hl
      · exact hmax _ List.mem_cons_self
      rcases List.mem_cons.mp hl with rfl | hl
      · refine less_trans (hmax b List.mem_cons_self) (Bool.not_eq_true _ ▸ hless) fun hb => h ?_
        rw [best_nan hb, hb]
      · exact hmax l (List.mem_cons_of_mem _ hl)

theorem ne_nan_of_reaches {x : Number} (h : x.reaches = true) : x ≠ .nan := by
  rintro rfl
  exact nomatch h

theorem mem_choices {known : Table} {layer : Text} :
    layer ∈ (choices p known).map Prod.fst ↔ layer ∈ candidates p ∧ (known.get layer).isSome = true := by
  unfold choices
  rw [List.mem_map]
  constructor
  · rintro ⟨e, he, rfl⟩
    obtain ⟨layer, hlayer, hget⟩ := List.mem_filterMap.mp he
    obtain ⟨description, hdescription, rfl⟩ := Option.map_eq_some_iff.mp hget
    exact ⟨(List.mem_insertionSort (· ≤ ·)).mp hlayer, Option.isSome_iff_exists.mpr ⟨description, hdescription⟩⟩
  · rintro ⟨hlayer, hsome⟩
    obtain ⟨description, hdescription⟩ := Option.isSome_iff_exists.mp hsome
    refine ⟨(layer, if description.isEmpty then layer else description), List.mem_filterMap.mpr ⟨layer, ?_, ?_⟩, rfl⟩
    · exact (List.mem_insertionSort (· ≤ ·)).mpr hlayer
    · rw [hdescription]
      rfl

/-- the classifier's own answer is behind a decision: one of the caller's layers that exist, sure enough, and no
other of them is likelier -/
def Classified (p : Principal) (known : Table) (choose : Table → Table → Answer) (routed : Routed) (layer : Text) : Prop :=
  ∃ snapshot answer probabilities, choose (options (choices p known)) snapshot = .probabilities answer ∧
    readAnswer (options (choices p known)) answer = some probabilities ∧
    routed.decision.probabilities = some probabilities ∧
    layer ∈ (choices p known).map Prod.fst ∧ (number probabilities layer).reaches = true ∧
    ∀ other ∈ (choices p known).map Prod.fst, (number probabilities layer).less (number probabilities other) = false

theorem classify_ok {default : Option (List Text)} {known snapshot : Table} {routed : Routed}
    (h : classify choose default (choices p known) snapshot = .ok routed) :
    routed.acl = default ∧ routed.decision.decision = .default ∨
    routed.decision.decision = .classified ∧
      ∃ layer, aclOfLayer layer = .ok routed.acl ∧ Classified p known choose routed layer := by
  unfold classify at h
  dsimp only at h
  split at h
  · exact nomatch h
  · obtain rfl := Except.ok.inj h
    exact Or.inl ⟨rfl, rfl⟩
  next answer hanswer =>
    split at h
    · obtain rfl := Except.ok.inj h
      exact Or.inl ⟨rfl, rfl⟩
    next probabilities hread =>
      split at h
      · exact nomatch h
      next first others hkeys =>
        split at h
        · next hreaches =>
          split at h
          · exact nomatch h
          next acl hacl =>
            obtain rfl := Except.ok.inj h
            right
            refine ⟨rfl, _, hacl, snapshot, answer, probabilities, hanswer, hread, rfl, ?_, hreaches, ?_⟩
            · rw [hkeys]
              exact best_mem _ first others
            · rw [hkeys]
              exact best_max (ne_nan_of_reaches hreaches)
        · obtain rfl := Except.ok.inj h
          exact Or.inl ⟨rfl, rfl⟩

/-- without a name: the default, or what the classifier is sure of -/
theorem unnamed_filed {routed : Routed} (h : unnamed casefold p descriptions state choose = .ok routed) :
    (∃ layer, aclOfLayer layer = .ok routed.acl ∧ layer ∈ p.publishableLayers ∧ p.defaultLayer = some layer ∧
      routed.decision.decision = .default) ∨
    routed.decision.decision = .classified ∧ ∃ layer known, aclOfLayer layer = .ok routed.acl ∧
      descriptions = .ok known ∧ Classified p known choose routed layer := by
  unfold unnamed at h
  split at h
  · exact nomatch h
  next default hdefault =>
    obtain ⟨layer, hacl, hmem, ⟨_, hlayer⟩ | hnames⟩ := resolveCaptureLayer_ok hdefault
    swap
    · obtain ⟨_, _, hitems, _⟩ := hnames
      exact nomatch hitems
    have hfiled : ∀ decision : LayerDecision, decision.decision = .default → Routed.mk default decision = routed →
        ∃ layer, aclOfLayer layer = .ok routed.acl ∧ layer ∈ p.publishableLayers ∧ p.defaultLayer = some layer ∧
          routed.decision.decision = .default := by
      rintro decision hdecision rfl
      exact ⟨layer, hacl, hmem, hlayer, hdecision⟩
    split at h
    · exact Or.inl (hfiled _ rfl (Except.ok.inj h))
    split at h
    · exact nomatch h
    next known =>
      split at h
      · exact Or.inl (hfiled _ rfl (Except.ok.inj h))
      split at h
      · exact nomatch h
      split at h
      · exact Or.inl (hfiled _ rfl (Except.ok.inj h))
      rcases classify_ok h with ⟨hdefaulted, hdecision⟩ | ⟨hdecision, layer, hclassified, hbest⟩
      · exact Or.inl ⟨layer, hdefaulted ▸ hacl, hmem, hlayer, hdecision⟩
      · exact Or.inr ⟨hdecision, layer, known, hclassified, rfl, hbest⟩

/-! ## every path -/

/-- a layer that is public is so by request or by default, and one that is classified is not public -/
theorem unnamed_narrow {routed : Routed} (h : unnamed casefold p descriptions state choose = .ok routed) :
    ∃ layer, aclOfLayer layer = .ok routed.acl ∧ layer ∈ p.publishableLayers ∧
      (layer = Layers.PUBLIC → p.defaultLayer = some Layers.PUBLIC ∧ routed.decision.decision = .default) ∧
      (routed.decision.decision = .classified → layer ≠ Layers.PUBLIC ∧
        ∃ known, descriptions = .ok known ∧ Classified p known choose routed layer) := by
  rcases unnamed_filed h with ⟨layer, hacl, hmem, hdefault, hdecision⟩ |
    ⟨hdecision, layer, known, hacl, hknown, hclassified⟩
  · refine ⟨layer, hacl, hmem, ?_, fun hd => ?_⟩
    · rintro rfl
      exact ⟨hdefault, hdecision⟩
    · rw [hdecision] at hd
      exact nomatch hd
  · obtain ⟨_, _, _, _, _, _, hchoice, _⟩ := id hclassified
    obtain ⟨hmem, hne⟩ := List.mem_filter.mp (mem_choices.mp hchoice).1
    have hpublic : layer ≠ Layers.PUBLIC := bne_iff_ne.mp hne
    exact ⟨layer, hacl, hmem, fun e => absurd e hpublic, fun _ => ⟨hpublic, known, hknown, hclassified⟩⟩

theorem named_narrow {requested : Value} (hnull : requested ≠ .null) {acl : Option (List Text)}
    (h : resolveCaptureLayer casefold p requested = .ok acl) :
    ∃ layer, aclOfLayer layer = .ok acl ∧ layer ∈ p.publishableLayers ∧ Names requested layer := by
  obtain ⟨layer, hacl, hmem, ⟨he, _⟩ | hnames⟩ := resolveCaptureLayer_ok h
  · exact absurd he hnull
  · exact ⟨layer, hacl, hmem, hnames⟩

/-- no path widens an audience -/
theorem route_narrow {requested : Value} {fixedByDoor : Bool} {routed : Routed}
    (h : route casefold p descriptions state choose requested fixedByDoor = .ok routed) :
    ∃ layer, aclOfLayer layer = .ok routed.acl ∧ layer ∈ p.publishableLayers ∧
      (layer = Layers.PUBLIC ∨ ∃ known, descriptions = .ok known ∧ (known.get layer).isSome = true) ∧
      (layer = Layers.PUBLIC → Names requested Layers.PUBLIC ∨
        requested = .null ∧ p.defaultLayer = some Layers.PUBLIC ∧ routed.decision.decision = .default) ∧
      (routed.decision.decision = .classified → layer ≠ Layers.PUBLIC ∧
        ∃ known, descriptions = .ok known ∧ Classified p known choose routed layer) := by
  unfold route at h
  dsimp only at h
  split at h
  · exact nomatch h
  next filed hfiled =>
    have hexists : filed = routed ∧ ∀ layer, aclOfLayer layer = .ok filed.acl →
        layer = Layers.PUBLIC ∨ ∃ known, descriptions = .ok known ∧ (known.get layer).isSome = true := by
      split at h
      · next hacl =>
        refine ⟨Except.ok.inj h, fun layer hlayer => Or.inl (aclOfLayer_none ?_)⟩
        rw [hlayer, hacl]
      · next acl hacl =>
        split at h
        · exact nomatch h
        next known =>
          split at h
          · next hsome =>
            refine ⟨Except.ok.inj h, fun layer hlayer => Or.inr ⟨known, rfl, ?_⟩⟩
            rw [hacl] at hlayer
            rw [aclOfLayer_some hlayer] at hsome
            exact hsome
          · exact nomatch h
    obtain ⟨rfl, hexists⟩ := hexists
    split at hfiled
    · obtain ⟨layer, hacl, hmem, hpublic, hclassified⟩ := unnamed_narrow hfiled
      refine ⟨layer, hacl, hmem, hexists layer hacl, fun he => Or.inr ?_, hclassified⟩
      exact ⟨rfl, hpublic he⟩
    next hnull =>
      split at hfiled
      · exact nomatch hfiled
      next acl hresolved =>
        obtain rfl := Except.ok.inj hfiled
        obtain ⟨layer, hacl, hmem, hnames⟩ := named_narrow hnull hresolved
        refine ⟨layer, hacl, hmem, hexists layer hacl, ?_, fun hd => ?_⟩
        · rintro rfl
          exact Or.inl hnames
        · split at hd <;> exact nomatch hd

/-- a member of two layers, and a classifier that is sure of the second -/
theorem route_narrow_eng : ∃ layer, aclOfLayer layer = .ok (some ["eng".toList]) ∧
    layer ∈ (Principal.mk ["finance".toList, "eng".toList] (some ["finance".toList])).publishableLayers := by
  have hdefault : resolveCaptureLayer Text.strip ⟨["finance".toList, "eng".toList], some ["finance".toList]⟩ .null =
      .ok (some ["finance".toList]) := by decide +kernel
  have hchoices : choices ⟨["finance".toList, "eng".toList], some ["finance".toList]⟩
      [("finance".toList, []), ("eng".toList, [])] =
        [("eng".toList, "eng".toList), ("finance".toList, "finance".toList)] := by decide +kernel
  have hclassify : classify (fun _ _ => .probabilities [("finance".toList, some .nan),
        ("eng".toList, some (.real 1)), (NO_SINGLE_LAYER, some (.real 0))]) (some ["finance".toList])
      [("eng".toList, "eng".toList), ("finance".toList, "finance".toList)] [("text".toList, ['x'])] =
      .ok ⟨some ["eng".toList], .classified, some [("eng".toList, .real 1), ("finance".toList, .nan),
        (NO_SINGLE_LAYER, .real 0)]⟩ := by decide +kernel
  have hroute : route Text.strip ⟨["finance".toList, "eng".toList], some ["finance".toList]⟩
      (.ok [("finance".toList, []), ("eng".toList, [])]) (.ok [("text".toList, ['x'])])
      (fun _ _ => .probabilities [("finance".toList, some .nan), ("eng".toList, some (.real 1)),
        (NO_SINGLE_LAYER, some (.real 0))]) .null false =
      .ok ⟨some ["eng".toList], .classified, some [("eng".toList, .real 1), ("finance".toList, .nan),
        (NO_SINGLE_LAYER, .real 0)]⟩ := by
    rw [route, unnamed, hdefault]
    dsimp only
    rw [if_neg (by decide +kernel), hchoices, if_neg (by decide), if_neg (by decide), hclassify]
    exact if_pos (by decide +kernel)
  obtain ⟨layer, hacl, hmem, _⟩ := route_narrow hroute
  exact ⟨layer, hacl, hmem⟩

end

end Routing
