import Stigmergy.Kernel.Runtime

/-!
# Layers and paths

The names of layers and the two spellings of a page's path, from `kernel/layers.py`.

* `isLayerName`     the names a restricted layer may take;
* `physicalPath`, `splitPath`   repository path and `(layer, virtual path)`;
* `splitPath_physicalPath`, `physicalPath_splitPath`   each undoes the other.
-/

set_option linter.unusedSectionVars false

namespace Layers

def PUBLIC : Text := "public".toList
def LAYER_ROOT : Text := "layers".toList

def RESERVED_NAMES : List Text :=
  [PUBLIC, "brain-admins".toList, LAYER_ROOT, "wiki".toList, "sources".toList, "all".toList]

def isLower (c : Char) : Bool := 'a' ≤ c && c ≤ 'z'
def isDigit (c : Char) : Bool := '0' ≤ c && c ≤ '9'

/-- `[a-z][a-z0-9-]{1,31}` as a full match -/
def matchesName : Text → Bool
  | [] => false
  | c :: t => isLower c && t.all (fun d => isLower d || isDigit d || d == '-') &&
      (1 ≤ t.length && t.length ≤ 31)

def isLayerName (name : Text) : Bool := matchesName name && !RESERVED_NAMES.contains name

/-- `layer_of_acl`; nothing for a `LayerError` -/
def layerOfAcl : Option (List Text) → Option Text
  | none => some PUBLIC
  | some [name] => if isLayerName name then some name else none
  | some _ => none

/-- `acl_of_layer` of a layer that exists -/
def aclOfLayer (layer : Text) : Option (List Text) := if layer = PUBLIC then none else some [layer]

def physicalPath (layer virtual : Text) : Text :=
  if layer = PUBLIC then virtual else LAYER_ROOT ++ '/' :: layer ++ '/' :: virtual

/-- the text up to the first `/` and the text after it -/
def cutSlash : Text → Option (Text × Text)
  | [] => none
  | c :: t => if c = '/' then some ([], t) else (cutSlash t).map fun r => (c :: r.1, r.2)

/-- `split_path`; nothing for a `LayerError` -/
def splitPath (path : Text) : Option (Text × Text) :=
  if Text.startsWith (LAYER_ROOT ++ ['/']) path then
    match cutSlash (path.drop 7) with
    | some (name, rest) => if isLayerName name && !rest.isEmpty then some (name, rest) else none
    | none => none
  else some (PUBLIC, path)

theorem isLayerName_ne_public {name : Text} (h : isLayerName name = true) : name ≠ PUBLIC := by
  rintro rfl
  exact absurd h (by decide)

theorem not_mem_slash_of_isLayerName {name : Text} (h : isLayerName name = true) : '/' ∉ name := by
  unfold isLayerName at h
  rw [Bool.and_eq_true] at h
  cases name with
  | nil => exact List.not_mem_nil
  | cons c t =>
    have hm := h.1
    unfold matchesName at hm
    simp only [Bool.and_eq_true, List.all_eq_true] at hm
    intro hmem
    rcases List.mem_cons.mp hmem with hc | ht
    · rw [← hc] at hm
      exact absurd hm.1.1 (by decide)
    · exact absurd (hm.1.2 '/' ht) (by decide)

theorem cutSlash_append {s : Text} (h : '/' ∉ s) (t : Text) : cutSlash (s ++ '/' :: t) = some (s, t) := by
  induction s with
  | nil => rfl
  | cons c s ih =>
    have hc : c ≠ '/' := fun e => h (by rw [e]; exact List.mem_cons_self)
    have hs : '/' ∉ s := fun hm => h (List.mem_cons_of_mem c hm)
    rw [List.cons_append]
    unfold cutSlash
    rw [if_neg hc, ih hs, Option.map_some]

theorem cutSlash_eq_some {path s t : Text} (h : cutSlash path = some (s, t)) : path = s ++ '/' :: t := by
  induction path generalizing s with
  | nil => exact nomatch h
  | cons c path ih =>
    unfold cutSlash at h
    split at h
    · rename_i hc
      obtain ⟨rfl, rfl⟩ := Prod.mk.inj (Option.some.inj h)
      rw [hc]
      rfl
    · obtain ⟨r, hr, hst⟩ := Option.map_eq_some_iff.mp h
      obtain ⟨rfl, rfl⟩ := Prod.mk.inj hst
      rw [ih hr, List.cons_append]

theorem startsWith_append (p t : Text) : Text.startsWith p (p ++ t) = true := by
  unfold Text.startsWith
  rw [List.isPrefixOf_iff_prefix]
  exact List.prefix_append p t

theorem splitPath_public {path : Text} (h : Text.startsWith (LAYER_ROOT ++ ['/']) path = false) :
    splitPath path = some (PUBLIC, path) := by
  unfold splitPath
  rw [h]
  rfl

theorem splitPath_physicalPath {layer virtual : Text} (hl : isLayerName layer = true)
    (hv : virtual ≠ []) : splitPath (physicalPath layer virtual) = some (layer, virtual) := by
  unfold physicalPath splitPath
  rw [if_neg (isLayerName_ne_public hl)]
  have hassoc : LAYER_ROOT ++ '/' :: layer ++ '/' :: virtual =
      (LAYER_ROOT ++ ['/']) ++ (layer ++ '/' :: virtual) := by simp
  rw [hassoc, if_pos (startsWith_append _ _)]
  have hdrop : ((LAYER_ROOT ++ ['/']) ++ (layer ++ '/' :: virtual)).drop 7 =
      layer ++ '/' :: virtual := by
    show List.drop (LAYER_ROOT ++ ['/']).length _ = _
    exact List.drop_left
  rw [hdrop, cutSlash_append (not_mem_slash_of_isLayerName hl)]
  have hne : virtual.isEmpty = false := by
    cases virtual with
    | nil => exact absurd rfl hv
    | cons => rfl
  simp [hl, hne]

theorem physicalPath_splitPath {path layer vpath : Text} (h : splitPath path = some (layer, vpath)) :
    physicalPath layer vpath = path := by
  unfold splitPath at h
  split at h
  · rename_i hroot
    split at h
    · rename_i name rest hcut
      split at h
      · rename_i hcond
        obtain ⟨rfl, rfl⟩ := Prod.mk.inj (Option.some.inj h)
        rw [Bool.and_eq_true] at hcond
        obtain ⟨u, rfl⟩ := List.isPrefixOf_iff_prefix.mp hroot
        have hdrop : ((LAYER_ROOT ++ ['/']) ++ u).drop 7 = u := by
          show List.drop (LAYER_ROOT ++ ['/']).length _ = _
          exact List.drop_left
        rw [hdrop] at hcut
        unfold physicalPath
        rw [if_neg (isLayerName_ne_public hcond.1), cutSlash_eq_some hcut]
        simp
      · exact nomatch h
    · exact nomatch h
  · obtain ⟨rfl, rfl⟩ := Prod.mk.inj (Option.some.inj h)
    exact if_pos rfl

end Layers
