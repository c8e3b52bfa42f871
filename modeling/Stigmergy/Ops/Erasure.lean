import Mathlib.Data.Char
import Mathlib.Data.List.Lex
import Stigmergy.Lib.Checks
import Stigmergy.Lib.SortedSet
import Stigmergy.Lib.Table
import Stigmergy.Kernel.Layers

/-!
# Erasure requests

The table `layer_erasures` and the statements of `ops/erasure.py` on it.  The rows are kept in the
order of `requested_at`; a head or a commit id that is `''` is `none`, and so is a `rewrite` of `'{}'`.

* `request`, `latest`, `due`, `giveUp`, `claim`, `recordNames`, … `finish`, `fail`   the statements;
* `Wf`              ids are unique, only the newest request of a layer is open, and at most one open
                    request of a tenant has a rewrite that may be pushed;
* `Wf.request`, `Wf.giveUp`, `Wf.update`   each statement keeps it;
* `latest_of_open`  the newest request of a layer is the open one.
-/

set_option linter.unusedSectionVars false

namespace Erasure

open Layers

inductive Status where
  | queued | running | succeeded | failed
deriving DecidableEq

def MAX_ATTEMPTS : ℕ := 3
def BACKOFF_BASE : Time := 30000000
def BACKOFF_CAP : Time := 900000000

/-- what the history rewrite produced: the commit map (`none` for forty zeros), the refs it changed
and the value each is left with (`none` where it goes) -/
structure Rewrite (γ : Type*) where
  commitMap : List (γ × Option γ)
  refs : List Text
  after : List (Text × Option γ)
  firstChanged : List γ
deriving DecidableEq

structure Receipt (γ : Type*) where
  layer : Text
  requestedBy : Text
  oldHead : Option γ
  newHead : Option γ
  commitsRemoved : ℕ
  commitsRewritten : ℕ
  refsRewritten : ℕ
  pagesIndexed : ℕ
  counts : AList fun _ : Text => ℕ
  firstChanged : List γ

section
variable (ι τ γ : Type*)

/-- the columns a run of the erasure reads -/
structure Item where
  id : ι
  tenantId : τ
  layer : Text
  requestedBy : Text
  attempts : ℕ
  names : List Text
  oldHead : Option γ
  newHead : Option γ
  rewrite : Option (Rewrite γ)
  pushed : Bool

structure Request extends Item ι τ γ where
  status : Status
  nextAttemptAt : Time
  startedAt : Option Time
  finishedAt : Option Time
  garbage : List Text
  counts : AList fun _ : Text => ℕ
  receipt : Option (Receipt γ)
  error : Text

end

section
variable {ι τ γ : Type*} [DecidableEq ι] [DecidableEq τ]

/-- the repository folder that holds everything filed in `layer` -/
def folderOf (layer : Text) : Text := LAYER_ROOT ++ "/".toList ++ layer ++ "/".toList

namespace Request

def isOpen (r : Request ι τ γ) : Bool := r.status == .queued || r.status == .running

/-- its rewrite is recorded, so it may be pushed -/
def mayBePushed (r : Request ι τ γ) : Bool := r.pushed || r.newHead.isSome

end Request

/-! ## The statements -/

def hasOpen (rows : List (Request ι τ γ)) (tenant : τ) (layer : Text) : Bool :=
  rows.any fun r => r.isOpen && r.tenantId == tenant && r.layer == layer

def newRequest (id : ι) (tenant : τ) (layer actor : Text) (now : Time) : Request ι τ γ :=
  { id := id, tenantId := tenant, layer := layer, requestedBy := actor, attempts := 0, names := [],
    oldHead := none, newHead := none, rewrite := none, pushed := false, status := .queued,
    nextAttemptAt := now, startedAt := none, finishedAt := none, garbage := [], counts := ∅,
    receipt := none, error := [] }

/-- `request`: queue the erasure of a roster layer other than `public` -/
def request (groups : List Text) (rows : List (Request ι τ γ)) (id : ι) (tenant : τ)
    (layer actor : Text) (now : Time) : Except Text (List (Request ι τ γ)) :=
  let name := Text.strip layer
  if name == PUBLIC || !isLayerName name then
    .error "only a restricted layer can be erased".toList
  else if !groups.contains name then
    .error "that layer does not exist".toList
  else if hasOpen rows tenant name then
    .error "an erasure of this layer is already under way".toList
  else
    .ok (rows ++ [newRequest id tenant name actor now])

def latest (rows : List (Request ι τ γ)) (tenant : τ) (layer : Text) : Option (Request ι τ γ) :=
  (rows.filter fun r => r.tenantId == tenant && r.layer == layer).getLast?

/-- `_DUE` -/
def due (rows : List (Request ι τ γ)) (now : Time) (r : Request ι τ γ) : Bool :=
  r.isOpen && decide (r.nextAttemptAt ≤ now) && (r.mayBePushed ||
    !rows.any fun other => other.tenantId == r.tenantId && other.mayBePushed && other.isOpen)

def pending (rows : List (Request ι τ γ)) (now : Time) : Bool := rows.any (due rows now)

/-- the writer kept stopping on it before it ever recorded a rewrite -/
def keptStopping (r : Request ι τ γ) : Bool :=
  r.status == .running && !r.pushed && r.newHead.isNone && decide (MAX_ATTEMPTS ≤ r.attempts)

def givenUp (now : Time) (r : Request ι τ γ) : Request ι τ γ :=
  { r with status := .failed, finishedAt := some now, names := [],
           error := if r.error = [] then "the writer stopped during every attempt".toList
                    else r.error }

/-- the first statement of `claim` -/
def giveUp (rows : List (Request ι τ γ)) (now : Time) : List (Request ι τ γ) :=
  rows.map fun r => if keptStopping r then givenUp now r else r

def backoff (attempts : ℕ) : Time := min BACKOFF_CAP (BACKOFF_BASE * 2 ^ min attempts 16)

def claimed (now : Time) (r : Request ι τ γ) : Request ι τ γ :=
  { r with status := .running, attempts := r.attempts + 1, startedAt := r.startedAt <|> some now,
           error := [], nextAttemptAt := now + backoff r.attempts }

/-- `UPDATE … WHERE id = …` -/
def update (id : ι) (f : Request ι τ γ → Request ι τ γ) (rows : List (Request ι τ γ)) :
    List (Request ι τ γ) :=
  rows.map fun r => if r.id = id then f r else r

/-- the second statement of `claim`: the oldest due request, marked running -/
def claim (rows : List (Request ι τ γ)) (now : Time) :
    Option (Request ι τ γ × List (Request ι τ γ)) :=
  (rows.find? (due rows now)).map fun r => (claimed now r, update r.id (claimed now) rows)

def recordNames (names : List Text) (r : Request ι τ γ) : Request ι τ γ := { r with names := names }

def recordRewrite (oldHead newHead : Option γ) (rewrite : Rewrite γ) (r : Request ι τ γ) :
    Request ι τ γ :=
  { r with oldHead := oldHead, newHead := newHead, rewrite := some rewrite }

def markPushed (r : Request ι τ γ) : Request ι τ γ := { r with pushed := true }

def addGarbage (refs : List Text) (r : Request ι τ γ) : Request ι τ γ :=
  { r with garbage := sortedSet (r.garbage ++ refs) }

def addCounts (counts : List (Text × ℕ)) (r : Request ι τ γ) : Request ι τ γ :=
  { r with counts := counts.foldl (fun totals entry =>
      totals.insert entry.1 ((totals.lookup entry.1).getD 0 + entry.2)) r.counts }

def clearGarbage (r : Request ι τ γ) : Request ι τ γ := { r with garbage := [] }

def finish (receipt : Receipt γ) (now : Time) (r : Request ι τ γ) : Request ι τ γ :=
  { r with status := .succeeded, finishedAt := some now, receipt := some receipt, rewrite := none,
           names := [] }

/-- a failed attempt: for good, or tried again after the backoff `claim` set -/
def fail (error : Text) (final : Bool) (now : Time) (r : Request ι τ γ) : Request ι τ γ :=
  if final then
    { r with status := .failed, error := error.take 500, finishedAt := some now, names := [],
             rewrite := none, newHead := none, garbage := [] }
  else
    { r with status := .queued, error := error.take 500 }

/-! ## What the statements keep -/

/-- the columns no statement changes -/
def Same (r r' : Request ι τ γ) : Prop :=
  r'.id = r.id ∧ r'.tenantId = r.tenantId ∧ r'.layer = r.layer

/-- a rewrite is recorded with its head, and pushed only when recorded -/
def HeadKept (r : Request ι τ γ) : Prop :=
  (r.pushed = true → r.newHead.isSome = true) ∧ r.newHead.isSome = r.rewrite.isSome

structure Wf (rows : List (Request ι τ γ)) : Prop where
  ids : (rows.map fun r => r.id).Nodup
  newest : rows.Pairwise fun r r' => r.tenantId = r'.tenantId → r.layer = r'.layer → r.isOpen = false
  heads : ∀ r ∈ rows, r.isOpen = true → HeadKept r
  alone : ∀ r ∈ rows, ∀ r' ∈ rows, r.isOpen = true → r'.isOpen = true → r.mayBePushed = true →
    r'.mayBePushed = true → r.tenantId = r'.tenantId → r.id = r'.id

theorem isOpen_of_running {r : Request ι τ γ} (h : r.status = .running) : r.isOpen = true := by
  unfold Request.isOpen
  rw [h]
  rfl

theorem mem_update {id : ι} {f : Request ι τ γ → Request ι τ γ} {rows : List (Request ι τ γ)}
    {r : Request ι τ γ} : r ∈ update id f rows ↔
      (∃ r' ∈ rows, r'.id = id ∧ f r' = r) ∨ (r ∈ rows ∧ r.id ≠ id) := by
  unfold update
  rw [List.mem_map]
  constructor
  · rintro ⟨r', hr', heq⟩
    by_cases hid : r'.id = id
    · rw [if_pos hid] at heq
      exact Or.inl ⟨r', hr', hid, heq⟩
    · rw [if_neg hid] at heq
      exact Or.inr ⟨heq ▸ hr', heq ▸ hid⟩
  · rintro (⟨r', hr', hid, heq⟩ | ⟨hr, hid⟩)
    · exact ⟨r', hr', by rw [if_pos hid, heq]⟩
    · exact ⟨r, hr, if_neg hid⟩

theorem Wf.nil : Wf ([] : List (Request ι τ γ)) where
  ids := List.nodup_nil
  newest := List.Pairwise.nil
  heads := fun _ h => absurd h List.not_mem_nil
  alone := fun _ h => absurd h List.not_mem_nil

section
variable {rows : List (Request ι τ γ)} (h : Wf rows)
include h

theorem Wf.eq_of_id {r r' : Request ι τ γ} (hr : r ∈ rows) (hr' : r' ∈ rows) (hid : r.id = r'.id) :
    r = r' :=
  List.inj_on_of_nodup_map h.ids hr hr' hid

/-- a map over the rows that keeps what names a row and opens none -/
theorem Wf.map {f : Request ι τ γ → Request ι τ γ} (hsame : ∀ r ∈ rows, Same r (f r))
    (hopen : ∀ r ∈ rows, (f r).isOpen = true → r.isOpen = true)
    (hheads : ∀ r ∈ rows, (f r).isOpen = true → HeadKept (f r))
    (halone : ∀ r ∈ rows, ∀ r' ∈ rows, (f r).isOpen = true → (f r').isOpen = true →
      (f r).mayBePushed = true → (f r').mayBePushed = true → r.tenantId = r'.tenantId →
      r.id = r'.id) : Wf (rows.map f) where
  ids := by
    rw [List.map_map]
    have hids : rows.map ((fun r => r.id) ∘ f) = rows.map fun r => r.id :=
      List.map_congr_left fun r hr => (hsame r hr).1
    rw [hids]
    exact h.ids
  newest := by
    rw [List.pairwise_map]
    refine h.newest.imp_of_mem fun {r r'} hr hr' hold htenant hlayer => ?_
    have hs := hsame r hr
    have hs' := hsame r' hr'
    rw [hs.2.1, hs'.2.1] at htenant
    rw [hs.2.2, hs'.2.2] at hlayer
    have hclosed := hold htenant hlayer
    by_contra hne
    have hopened := hopen r hr (Bool.eq_true_of_not_eq_false hne)
    rw [hclosed] at hopened
    exact Bool.false_ne_true hopened
  heads := by
    intro r hr ho
    obtain ⟨r₀, hr₀, rfl⟩ := List.mem_map.mp hr
    exact hheads r₀ hr₀ ho
  alone := by
    intro r hr r' hr' ho ho' hm hm' htenant
    obtain ⟨r₀, hr₀, rfl⟩ := List.mem_map.mp hr
    obtain ⟨r₁, hr₁, rfl⟩ := List.mem_map.mp hr'
    have hs := hsame r₀ hr₀
    have hs' := hsame r₁ hr₁
    rw [hs.2.1, hs'.2.1] at htenant
    rw [hs.1, hs'.1]
    exact halone r₀ hr₀ r₁ hr₁ ho ho' hm hm' htenant

/-- one open row changed -/
theorem Wf.update {f : Request ι τ γ → Request ι τ γ} {r : Request ι τ γ} (hr : r ∈ rows)
    (hopen : r.isOpen = true) (hsame : Same r (f r))
    (hheads : (f r).isOpen = true → HeadKept (f r))
    (halone : (f r).isOpen = true → (f r).mayBePushed = true → ∀ r' ∈ rows, r'.isOpen = true →
      r'.mayBePushed = true → r'.tenantId = r.tenantId → r'.id = r.id) :
    Wf (Erasure.update r.id f rows) := by
  have hcases : ∀ r' ∈ rows, r' = r ∨ r'.id ≠ r.id := fun r' hr' => by
    by_cases hid : r'.id = r.id
    · exact Or.inl (h.eq_of_id hr' hr hid)
    · exact Or.inr hid
  refine h.map (fun r' hr' => ?_) (fun r' hr' ho => ?_) (fun r' hr' ho => ?_)
    (fun r₁ hr₁ r₂ hr₂ ho₁ ho₂ hm₁ hm₂ htenant => ?_)
  · rcases hcases r' hr' with rfl | hid
    · rw [if_pos rfl]
      exact hsame
    · rw [if_neg hid]
      exact ⟨rfl, rfl, rfl⟩
  · rcases hcases r' hr' with rfl | hid
    · exact hopen
    · rw [if_neg hid] at ho
      exact ho
  · rcases hcases r' hr' with rfl | hid
    · rw [if_pos rfl] at ho ⊢
      exact hheads ho
    · rw [if_neg hid] at ho ⊢
      exact h.heads r' hr' ho
  · rcases hcases r₁ hr₁ with rfl | hid₁ <;> rcases hcases r₂ hr₂ with rfl | hid₂
    · rfl
    · rw [if_pos rfl] at ho₁ hm₁
      rw [if_neg hid₂] at ho₂ hm₂
      exact (halone ho₁ hm₁ r₂ hr₂ ho₂ hm₂ htenant.symm).symm
    · rw [if_neg hid₁] at ho₁ hm₁
      rw [if_pos rfl] at ho₂ hm₂
      exact halone ho₂ hm₂ r₁ hr₁ ho₁ hm₁ htenant
    · rw [if_neg hid₁] at ho₁ hm₁
      rw [if_neg hid₂] at ho₂ hm₂
      exact h.alone r₁ hr₁ r₂ hr₂ ho₁ ho₂ hm₁ hm₂ htenant

theorem Wf.giveUp (now : Time) : Wf (giveUp rows now) := by
  have hclosed : ∀ r : Request ι τ γ,
      (if keptStopping r then givenUp now r else r).isOpen = true →
      (if keptStopping r then givenUp now r else r) = r := by
    intro r ho
    by_cases hk : keptStopping r = true
    · rw [if_pos hk] at ho
      exact absurd ho Bool.false_ne_true
    · rw [if_neg hk]
  refine h.map (fun r _ => ?_) (fun r _ ho => ?_) (fun r hr ho => ?_)
    (fun r hr r' hr' ho ho' hm hm' htenant => ?_)
  · split <;> exact ⟨rfl, rfl, rfl⟩
  · have hkept := hclosed r ho
    rw [hkept] at ho
    exact ho
  · have hkept := hclosed r ho
    rw [hkept] at ho ⊢
    exact h.heads r hr ho
  · have hkept := hclosed r ho
    have hkept' := hclosed r' ho'
    rw [hkept] at ho hm
    rw [hkept'] at ho' hm'
    exact h.alone r hr r' hr' ho ho' hm hm' htenant

/-- the newest request of a layer is the open one -/
theorem latest_of_open {r : Request ι τ γ} (hr : r ∈ rows) (ho : r.isOpen = true) :
    latest rows r.tenantId r.layer = some r := by
  unfold latest
  set own := rows.filter fun r' => r'.tenantId == r.tenantId && r'.layer == r.layer with hown
  have hmem : r ∈ own := List.mem_filter.mpr ⟨hr, by rw [beq_self_eq_true, beq_self_eq_true]; rfl⟩
  have hpair : own.Pairwise fun r' _ => r'.isOpen = false := by
    refine (h.newest.filter _).imp_of_mem fun {r₁ r₂} h₁ h₂ hclosed => ?_
    have hkey : ∀ {r'}, r' ∈ own → r'.tenantId = r.tenantId ∧ r'.layer = r.layer := fun hm => by
      have hb := (List.mem_filter.mp hm).2
      rw [Bool.and_eq_true, beq_iff_eq, beq_iff_eq] at hb
      exact hb
    exact hclosed ((hkey h₁).1.trans (hkey h₂).1.symm) ((hkey h₁).2.trans (hkey h₂).2.symm)
  obtain ⟨l₁, l₂, hsplit⟩ := List.append_of_mem hmem
  rw [hsplit] at hpair ⊢
  cases l₂ with
  | nil => exact List.getLast?_concat
  | cons r' l₂ =>
    have hclosed := (List.pairwise_cons.mp (List.pairwise_append.mp hpair).2.1).1 r' List.mem_cons_self
    rw [ho] at hclosed
    exact absurd hclosed Bool.true_eq_false_eq_False
end

theorem request_eq_ok {groups : List Text} {rows rows' : List (Request ι τ γ)} {id : ι} {tenant : τ}
    {layer actor : Text} {now : Time}
    (hreq : request groups rows id tenant layer actor now = .ok rows') :
    hasOpen rows tenant (Text.strip layer) = false ∧
      rows' = rows ++ [newRequest id tenant (Text.strip layer) actor now] := by
  obtain ⟨-, hreq⟩ := Checks.of_ite_error hreq
  obtain ⟨-, hreq⟩ := Checks.of_ite_error hreq
  obtain ⟨hopen, hreq⟩ := Checks.of_ite_error hreq
  exact ⟨Bool.eq_false_of_not_eq_true hopen, (Except.ok.inj hreq).symm⟩

theorem Wf.request {groups : List Text} {rows rows' : List (Request ι τ γ)} {id : ι} {tenant : τ}
    {layer actor : Text} {now : Time} (h : Wf rows) (hid : ∀ r ∈ rows, r.id ≠ id)
    (hreq : Erasure.request groups rows id tenant layer actor now = .ok rows') : Wf rows' := by
  obtain ⟨hopen, rfl⟩ := request_eq_ok hreq
  set new : Request ι τ γ := newRequest id tenant (Text.strip layer) actor now
  have hmem : ∀ {r}, r ∈ rows ++ [new] → r ∈ rows ∨ r = new := fun hr => by
    rw [List.mem_append, List.mem_singleton] at hr
    exact hr
  refine ⟨?_, ?_, fun r hr ho => ?_, fun r hr r' hr' ho ho' hm hm' htenant => ?_⟩
  · rw [List.map_append, List.nodup_append]
    refine ⟨h.ids, List.nodup_singleton _, ?_⟩
    intro a ha b hb
    obtain ⟨r, hr, rfl⟩ := List.mem_map.mp ha
    obtain rfl : b = new.id := List.mem_singleton.mp hb
    exact hid r hr
  · rw [List.pairwise_append]
    refine ⟨h.newest, List.pairwise_singleton _ _, fun r hr r' hr' htenant hlayer => ?_⟩
    obtain rfl : r' = new := List.mem_singleton.mp hr'
    by_contra hne
    have hany : hasOpen rows tenant (Text.strip layer) = true := by
      refine List.any_eq_true.mpr ⟨r, hr, ?_⟩
      rw [Bool.eq_true_of_not_eq_false hne, Bool.true_and, Bool.and_eq_true, beq_iff_eq, beq_iff_eq]
      exact ⟨htenant, hlayer⟩
    rw [hopen] at hany
    exact Bool.false_ne_true hany
  · rcases hmem hr with hr | rfl
    · exact h.heads r hr ho
    · exact ⟨fun hp => absurd hp Bool.false_ne_true, rfl⟩
  · rcases hmem hr with hr | rfl
    · rcases hmem hr' with hr' | rfl
      · exact h.alone r hr r' hr' ho ho' hm hm' htenant
      · exact absurd hm' Bool.false_ne_true
    · exact absurd hm Bool.false_ne_true

end

end Erasure
