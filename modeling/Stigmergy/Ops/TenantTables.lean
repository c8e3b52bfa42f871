import Stigmergy.Lib.Layering
import Stigmergy.Ops.EraseWorkspace

/-!
# The order the tables of a workspace are deleted in

`_tenant_tables` of `ops/erase_workspace.py`, round by round: a map from each tenant table to the other
tenant tables it references, from which a round takes the tables no entry names.

* `parentsOf`              the map the two queries give;
* `round`, `rounds`        one round of the loop, and so many rounds of it;
* `References`             a tenant table has a foreign key to another one;
* `rounds_eq`              the loop ends in as many rounds as there are tables, with `tenantTables`;
* `tenantTables_follows`   the order it returns;
* `cyclic_of_tenantTables` what it means that it raises;
* `tenant_tables_ordered`  all of it together.
-/

set_option linter.unusedSectionVars false

namespace EraseWorkspace

open Layering

def CYCLE : Text := "the tenant tables reference each other in a cycle".toList

/-! ## The loop -/

/-- the tables still there, with the tables each of them references -/
abbrev Parents := List (Text × List Text)

/-- `parents[child].add(parent)` -/
def addParent (tables : List Text) (parents : Parents) (e : Text × Text) : Parents :=
  if tables.contains e.1 && tables.contains e.2 && e.1 != e.2 then
    parents.map fun p => if p.1 = e.1 then (p.1, e.2 :: p.2) else p
  else parents

def parentsOf (tables : List Text) (fks : List (Text × Text)) : Parents :=
  fks.foldl (addParent tables) (tables.map fun t => (t, []))

/-- the tables no entry of the map names -/
def unreferenced (parents : Parents) : List Text :=
  let referenced := parents.flatMap Prod.snd
  sortedSet ((parents.map Prod.fst).filter fun t => !referenced.contains t)

inductive Loop where
  | goes (parents : Parents) (ordered : List Text)
  | returned (ordered : List Text)
  | raised (message : Text)

/-- a round of `while parents` -/
def round : Loop → Loop
  | .goes parents ordered =>
    if parents.isEmpty then .returned ordered
    else
      let leaves := unreferenced parents
      if leaves.isEmpty then .raised CYCLE
      else .goes (parents.filter fun p => !leaves.contains p.1) (ordered ++ leaves)
  | l => l

def rounds : ℕ → Loop → Loop
  | 0, l => l
  | n + 1, l => rounds n (round l)

/-- `_tenant_tables` after so many rounds; `policies` are the rows of the first query, `fks` of the second -/
def tenantTablesIn (n : ℕ) (fks : List (Text × Text)) (policies : List Text) : Loop :=
  let tables := policies.dedup
  rounds n (.goes (parentsOf tables fks) [])

def Loop.of (r : Except Text (List Text)) : Loop :=
  match r with
  | .ok ordered => .returned ordered
  | .error message => .raised message

/-- a foreign key to another table -/
def Refers (fks : List (Text × Text)) (a b : Text) : Prop := (a, b) ∈ fks ∧ a ≠ b

/-- a tenant table has a foreign key to another tenant table -/
def References (fks : List (Text × Text)) (policies : List Text) : Text → Text → Prop :=
  Among (Refers fks) policies

/-! ## The map of the loop -/

/-- the map has an entry for each table that is left, with the tenant tables it references -/
structure Maps (tables : List Text) (fks : List (Text × Text)) (parents : Parents) (left : List Text) : Prop where
  keys : parents.map Prod.fst = left
  tenant : ∀ t ∈ left, t ∈ tables
  mem : ∀ p ∈ parents, ∀ t, t ∈ p.2 ↔ t ∈ tables ∧ Refers fks p.1 t

theorem Maps.addParent {tables left : List Text} {fks : List (Text × Text)} {parents : Parents}
    (h : Maps tables fks parents left) (e : Text × Text) :
    Maps tables (fks ++ [e]) (addParent tables parents e) left := by
  have hrefers : ∀ a b, Refers (fks ++ [e]) a b ↔ Refers fks a b ∨ ((a, b) = e ∧ a ≠ b) := by
    intro a b
    unfold Refers
    rw [List.mem_append, List.mem_singleton]
    exact or_and_right
  unfold EraseWorkspace.addParent
  split
  · next hc =>
    simp only [Bool.and_eq_true, List.contains_iff_mem, bne_iff_ne] at hc
    refine ⟨?_, h.tenant, fun p hp t => ?_⟩
    · rw [List.map_map, ← h.keys]
      refine List.map_congr_left fun p _ => ?_
      show (if p.1 = e.1 then (p.1, e.2 :: p.2) else p).1 = p.1
      split <;> rfl
    · obtain ⟨q, hq, rfl⟩ := List.mem_map.mp hp
      rw [hrefers]
      by_cases hk : q.1 = e.1
      · rw [if_pos hk, List.mem_cons, h.mem q hq t]
        constructor
        · intro ht
          rcases ht with rfl | ⟨ht, hr⟩
          · exact ⟨hc.1.2, Or.inr ⟨Prod.ext hk rfl, hk ▸ hc.2⟩⟩
          · exact ⟨ht, Or.inl hr⟩
        · intro ht
          rcases ht.2 with hr | ⟨he, -⟩
          · exact Or.inr ⟨ht.1, hr⟩
          · exact Or.inl (congrArg Prod.snd he)
      · rw [if_neg hk, h.mem q hq t]
        constructor
        · exact fun ht => ⟨ht.1, Or.inl ht.2⟩
        · intro ht
          rcases ht.2 with hr | ⟨he, -⟩
          · exact ⟨ht.1, hr⟩
          · exact absurd (congrArg Prod.fst he) hk
  · next hc =>
    refine ⟨h.keys, h.tenant, fun p hp t => ?_⟩
    rw [h.mem p hp t, hrefers]
    constructor
    · exact fun ht => ⟨ht.1, Or.inl ht.2⟩
    · intro ht
      rcases ht.2 with hr | ⟨rfl, hne⟩
      · exact ⟨ht.1, hr⟩
      · refine absurd ?_ hc
        have hp1 := h.tenant p.1 (h.keys ▸ List.mem_map_of_mem hp)
        simp only [Bool.and_eq_true, List.contains_iff_mem, bne_iff_ne]
        exact ⟨⟨hp1, ht.1⟩, hne⟩

/-- the map before the first round -/
theorem maps_parentsOf (tables : List Text) (fks : List (Text × Text)) :
    Maps tables fks (parentsOf tables fks) tables := by
  induction fks using List.reverseRecOn with
  | nil =>
    refine ⟨?_, fun _ ht => ht, fun p hp t => ?_⟩
    · show (tables.map fun t => (t, [])).map Prod.fst = tables
      rw [List.map_map]
      exact List.map_id tables
    · obtain ⟨q, -, rfl⟩ := List.mem_map.mp hp
      exact ⟨fun ht => absurd ht List.not_mem_nil, fun ht => absurd ht.2.1 List.not_mem_nil⟩
  | append_singleton fks e ih =>
    unfold parentsOf
    rw [List.foldl_append]
    exact ih.addParent e

theorem Maps.unreferenced {tables left : List Text} {fks : List (Text × Text)} {parents : Parents}
    (h : Maps tables fks parents left) : unreferenced parents = leaves fks left := by
  refine sortedSet_congr fun t => ?_
  rw [h.keys, List.mem_filter, List.mem_filter]
  refine and_congr_right fun ht => ?_
  rw [Bool.not_eq_true', Bool.not_eq_true', ← Bool.not_eq_true, ← Bool.not_eq_true, List.contains_iff_mem,
    List.mem_flatMap, List.any_eq_true]
  refine not_congr ⟨?_, ?_⟩
  · intro hp
    obtain ⟨p, hp, hm⟩ := hp
    obtain ⟨-, hfk, hne⟩ := (h.mem p hp t).mp hm
    have hleft : p.1 ∈ left := h.keys ▸ List.mem_map_of_mem hp
    refine ⟨(p.1, t), hfk, ?_⟩
    simp only [Bool.and_eq_true, List.contains_iff_mem, bne_iff_ne, beq_iff_eq]
    exact ⟨⟨hleft, trivial⟩, hne⟩
  · intro he
    obtain ⟨e, hfk, hc⟩ := he
    simp only [Bool.and_eq_true, List.contains_iff_mem, bne_iff_ne, beq_iff_eq] at hc
    obtain ⟨⟨hleft, rfl⟩, hne⟩ := hc
    obtain ⟨p, hp, hk⟩ := List.mem_map.mp (h.keys.symm ▸ hleft)
    refine ⟨p, hp, (h.mem p hp e.2).mpr ⟨h.tenant _ ht, ?_⟩⟩
    rw [hk]
    exact ⟨hfk, hne⟩

/-- a round takes the leaves from the map -/
theorem Maps.inner {tables left : List Text} {fks : List (Text × Text)} {parents : Parents}
    (h : Maps tables fks parents left) :
    Maps tables fks (parents.filter fun p => !(leaves fks left).contains p.1) (inner fks left) := by
  refine ⟨?_, fun t ht => h.tenant t (List.mem_filter.mp ht).1, fun p hp => h.mem p (List.mem_filter.mp hp).1⟩
  unfold EraseWorkspace.inner
  conv_rhs => rw [← h.keys]
  rw [List.filter_map, h.keys]
  rfl

/-! ## The loop ends -/

theorem rounds_of_round_eq {l : Loop} (h : round l = l) (n : ℕ) : rounds n l = l := by
  induction n with
  | zero => rfl
  | succ n ih =>
    show rounds n (round l) = l
    rw [h, ih]

/-- the loop ends in a round more than there are tables -/
theorem rounds_eq {tables : List Text} (fks : List (Text × Text)) (left : List Text) :
    ∀ {parents : Parents} (ordered : List Text) {n : ℕ}, Maps tables fks parents left → left.length < n →
      rounds n (.goes parents ordered) = .of ((tenantTables fks left).map (ordered ++ ·)) := by
  induction left using tenantTables.induct fks with
  | case1 left hempty =>
    intro parents ordered n h hn
    obtain ⟨n, rfl⟩ := Nat.exists_eq_succ_of_ne_zero (Nat.ne_of_gt (Nat.zero_lt_of_lt hn))
    have hparents : parents = [] := by
      rw [List.isEmpty_iff.mp hempty] at h
      exact List.map_eq_nil_iff.mp h.keys
    rw [tenantTables, if_pos hempty, hparents]
    show rounds n (.returned ordered) = .returned (ordered ++ [])
    rw [rounds_of_round_eq rfl, List.append_nil]
  | case2 left hne hleaves ih =>
    intro parents ordered n h hn
    obtain ⟨n, rfl⟩ := Nat.exists_eq_succ_of_ne_zero (Nat.ne_of_gt (Nat.zero_lt_of_lt hn))
    have hparents : ¬ parents.isEmpty = true := fun he => hne (by
      rw [← h.keys, List.isEmpty_iff.mp he]
      rfl)
    have hround : round (.goes parents ordered) =
        .goes (parents.filter fun p => !(leaves fks left).contains p.1) (ordered ++ leaves fks left) := by
      show (if parents.isEmpty = true then _ else if (unreferenced parents).isEmpty = true then _ else _) = _
      rw [if_neg hparents, h.unreferenced, if_neg (Bool.eq_false_iff.mp hleaves)]
    rw [tenantTables, if_neg hne, dif_pos hleaves]
    show rounds n (round (.goes parents ordered)) = _
    have hlt := length_inner hleaves
    rw [hround, ih (ordered ++ leaves fks left) h.inner (by omega)]
    cases tenantTables fks (EraseWorkspace.inner fks left) with
    | error message => rfl
    | ok rest => exact congrArg Loop.returned (List.append_assoc _ _ _)
  | case3 left hne hleaves =>
    intro parents ordered n h hn
    obtain ⟨n, rfl⟩ := Nat.exists_eq_succ_of_ne_zero (Nat.ne_of_gt (Nat.zero_lt_of_lt hn))
    have hparents : ¬ parents.isEmpty = true := fun he => hne (by
      rw [← h.keys, List.isEmpty_iff.mp he]
      rfl)
    have hround : round (.goes parents ordered) = .raised CYCLE := by
      show (if parents.isEmpty = true then _ else if (unreferenced parents).isEmpty = true then _ else _) = _
      rw [if_neg hparents, h.unreferenced, if_pos (Bool.not_eq_false _ ▸ hleaves)]
    rw [tenantTables, if_neg hne, dif_neg hleaves]
    show rounds n (round (.goes parents ordered)) = .raised CYCLE
    rw [hround, rounds_of_round_eq rfl]

/-! ## The order -/

theorem nodup_tenantTables {fks : List (Text × Text)} {tables ordered : List Text}
    (h : tenantTables fks tables = .ok ordered) : ordered.Nodup := by
  induction tables using tenantTables.induct fks generalizing ordered with
  | case1 tables hempty =>
    rw [tenantTables, if_pos hempty] at h
    rw [← Except.ok.inj h]
    exact List.nodup_nil
  | case2 tables hne hleaves ih =>
    rw [tenantTables, if_neg hne, dif_pos hleaves] at h
    obtain ⟨rest, hrest, rfl⟩ := Checks.map_eq_ok h
    refine List.nodup_append.mpr ⟨nodup_sortedSet _, ih hrest, fun t ht u hu heq => ?_⟩
    have hu := (List.mem_filter.mp ((mem_tenantTables hrest u).mp hu)).2
    rw [← heq, List.contains_iff_mem.mpr ht] at hu
    cases hu
  | case3 tables hne hleaves =>
    rw [tenantTables, if_neg hne, dif_neg hleaves] at h
    cases h

/-- no table references a leaf -/
theorem not_refers_leaf {fks : List (Text × Text)} {tables : List Text} {t : Text} (ht : t ∈ leaves fks tables)
    {u : Text} (hu : u ∈ tables) : ¬ Refers fks u t := by
  intro hr
  have hleaf := (List.mem_filter.mp (mem_sortedSet.mp ht)).2
  rw [Bool.not_eq_true', ← Bool.not_eq_true, List.any_eq_true] at hleaf
  refine hleaf ⟨(u, t), hr.1, ?_⟩
  simp only [Bool.and_eq_true, List.contains_iff_mem, bne_iff_ne, beq_iff_eq]
  exact ⟨⟨hu, trivial⟩, hr.2⟩

/-- what no table references is a leaf -/
theorem mem_leaves {fks : List (Text × Text)} {tables : List Text} {t : Text} (ht : t ∈ tables)
    (h : ∀ u ∈ tables, ¬ Refers fks u t) : t ∈ leaves fks tables := by
  refine mem_sortedSet.mpr (List.mem_filter.mpr ⟨ht, ?_⟩)
  rw [Bool.not_eq_true', ← Bool.not_eq_true, List.any_eq_true]
  intro he
  obtain ⟨e, hfk, hc⟩ := he
  simp only [Bool.and_eq_true, List.contains_iff_mem, bne_iff_ne, beq_iff_eq] at hc
  obtain ⟨⟨hu, rfl⟩, hne⟩ := hc
  exact h e.1 hu ⟨hfk, hne⟩

theorem tenantTables_follows {fks : List (Text × Text)} {tables ordered : List Text}
    (h : tenantTables fks tables = .ok ordered) : Follows (Refers fks) ordered := by
  induction tables using tenantTables.induct fks generalizing ordered with
  | case1 tables hempty =>
    rw [tenantTables, if_pos hempty] at h
    rw [← Except.ok.inj h]
    exact List.Pairwise.nil
  | case2 tables hne hleaves ih =>
    have hall := mem_tenantTables h
    rw [tenantTables, if_neg hne, dif_pos hleaves] at h
    obtain ⟨rest, hrest, rfl⟩ := Checks.map_eq_ok h
    exact Follows.append (fun t ht u hu => not_refers_leaf ht ((hall u).mp hu)) (ih hrest)
  | case3 tables hne hleaves =>
    rw [tenantTables, if_neg hne, dif_neg hleaves] at h
    cases h

/-- the order is refused for a cycle only -/
theorem cyclic_of_tenantTables {fks : List (Text × Text)} {tables : List Text} {message : Text}
    (h : tenantTables fks tables = .error message) :
    message = CYCLE ∧ Cyclic (References fks tables) := by
  induction tables using tenantTables.induct fks with
  | case1 tables hempty =>
    rw [tenantTables, if_pos hempty] at h
    cases h
  | case2 tables hne hleaves ih =>
    rw [tenantTables, if_neg hne, dif_pos hleaves] at h
    have hrest : tenantTables fks (inner fks tables) = .error message := by
      cases hr : tenantTables fks (inner fks tables) with
      | error m =>
        rw [hr] at h
        exact h
      | ok rest =>
        rw [hr] at h
        cases h
    obtain ⟨hm, hc⟩ := ih hrest
    refine ⟨hm, hc.mono fun a b hab => ?_⟩
    exact ⟨(List.mem_filter.mp hab.1).1, (List.mem_filter.mp hab.2.1).1, hab.2.2⟩
  | case3 tables hne hleaves =>
    rw [tenantTables, if_neg hne, dif_neg hleaves] at h
    refine ⟨(Except.error.inj h).symm, by_contra fun hacyclic => ?_⟩
    obtain ⟨t, ht, hsource⟩ := exists_source (fun he => hne (List.isEmpty_iff.mpr he)) hacyclic
    refine hleaves (List.isEmpty_eq_false_iff.mpr fun he => ?_)
    exact List.not_mem_nil (he ▸ mem_leaves ht hsource)

/-- The loop ends, with each tenant table once and every table before those it references, or it raises; it
raises exactly when the references among different tenant tables form a cycle -/
theorem tenant_tables_ordered (fks : List (Text × Text)) (policies : List Text) :
    (∃ ordered : List Text,
      (∀ n, policies.dedup.length < n → tenantTablesIn n fks policies = .returned ordered) ∧
      ordered.Nodup ∧ (∀ t, t ∈ ordered ↔ t ∈ policies) ∧
      (∀ a b, References fks policies a b → ordered.idxOf a < ordered.idxOf b) ∧
      ¬ Cyclic (References fks policies)) ∨
    ((∀ n, policies.dedup.length < n → tenantTablesIn n fks policies = .raised CYCLE) ∧
      Cyclic (References fks policies)) := by
  have hloop : ∀ n, policies.dedup.length < n →
      tenantTablesIn n fks policies = .of ((tenantTables fks policies.dedup).map ([] ++ ·)) :=
    fun n hn => rounds_eq fks policies.dedup [] (maps_parentsOf policies.dedup fks) hn
  have hsame : ∀ a b, References fks policies a b ↔ Among (Refers fks) policies.dedup a b := by
    intro a b
    unfold References Among
    rw [List.mem_dedup, List.mem_dedup]
  cases h : tenantTables fks policies.dedup with
  | ok ordered =>
    have hall : ∀ t, t ∈ ordered ↔ t ∈ policies := by
      intro t
      rw [mem_tenantTables h, List.mem_dedup]
    have hfollows := tenantTables_follows h
    refine Or.inl ⟨ordered, fun n hn => ?_, nodup_tenantTables h, hall, fun a b hab => ?_, fun hc => ?_⟩
    · rw [hloop n hn, h]
      rfl
    · exact hfollows.idxOf_lt ((hall a).mpr hab.1) ((hall b).mpr hab.2.1) hab.2.2 hab.2.2.2
    · refine hfollows.acyclic (fun t ht => ht.2 rfl) (hc.mono fun a b hab => ?_)
      exact ⟨(hall a).mpr hab.1, (hall b).mpr hab.2.1, hab.2.2⟩
  | error message =>
    obtain ⟨rfl, hc⟩ := cyclic_of_tenantTables h
    refine Or.inr ⟨fun n hn => ?_, hc.mono fun a b hab => (hsame a b).mpr hab⟩
    rw [hloop n hn, h]
    rfl

example : tenantTables [("rows".toList, "runs".toList), ("runs".toList, "runs".toList)] ["runs".toList, "rows".toList] =
    .ok ["rows".toList, "runs".toList] := by decide +kernel

end EraseWorkspace
