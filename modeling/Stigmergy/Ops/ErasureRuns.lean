import Stigmergy.Ops.EraseLayer

/-!
# Runs of erasures

What holds in every state a run of `Ops/EraseLayer.lean` reaches, when other people do not disturb a
push that was not recorded yet.

* `At`               what is known at each phase: the run has read its row, no other request of the
                     tenant has a rewrite, a rewrite to come follows no push of the same request;
* `Inv`, `inv_step`  what holds between the rows, the remote and the run; each action keeps it;
* `erasures_safe`    over every undisturbed run: `Safe`, and succeeded requests stay as they are;
* `not_erasures_safe`  a branch deleted between the push and the next attempt is enough to break it.
-/

set_option linter.unusedSectionVars false

namespace EraseLayer

open Erasure

section
variable {ι τ γ : Type*} [DecidableEq ι] [DecidableEq τ] [DecidableEq γ]
variable (G : Git γ) (branch : Text)

/-! ## The invariant -/

/-- the knowledge branch of the remote has the rewritten head, or commits on top of it -/
def HeadThere (remote : Refs γ) (rewrite : Rewrite γ) : Prop :=
  ∀ head, rewrite.after.lookup branch = some head →
    ∃ commit tip, head = some commit ∧ remote.lookup branch = some tip ∧
      G.isAncestor commit tip = true

/-- the row of the run -/
def Mine (rows : List (Request ι τ γ)) (i : Item ι τ γ) (r : Request ι τ γ) : Prop :=
  r ∈ rows ∧ r.status = .running ∧ r.id = i.id ∧ r.tenantId = i.tenantId ∧ r.layer = i.layer

/-- the run has read its row, and no other request of the tenant has a rewrite -/
def Held (rows : List (Request ι τ γ)) (i : Item ι τ γ) : Prop :=
  (∃ r ∈ rows, r.status = .running ∧ r.toItem = i) ∧
    ∀ r ∈ rows, r.isOpen = true → r.mayBePushed = true → r.tenantId = i.tenantId → r.id = i.id

def At (rows : List (Request ι τ γ)) (events : List (Event ι γ)) : Phase ι τ γ → Prop
  | .idle | .claiming => True
  | .begun i | .named i => Held rows i
  | .rewriting i | .mirrored i _ => Held rows i ∧ i.pushed = false ∧ ¬Delivered events i.id
  | .stored i before after rewrite => Held rows i ∧ i.pushed = false ∧ ¬Delivered events i.id ∧
      i.rewrite = some rewrite ∧ (∃ f, rewrite = rewriteOf before f ∧ after = f.refs) ∧
      (after.lookup branch).isSome = true ∧ i.newHead = after.lookup branch
  | .sent i => Held rows i ∧ i.newHead.isSome = true ∧
      ∃ rewrite, i.rewrite = some rewrite ∧ OnRemote events i.id rewrite
  | .published i | .checked i | .purged i | .collected i => Held rows i ∧ i.pushed = true ∧
      ∃ rewrite, i.rewrite = some rewrite ∧ OnRemote events i.id rewrite
  | .failing i _ => ∃ r, Mine rows i r
  | .deciding i _ final => (∃ r, Mine rows i r) ∧ (final = true → ¬Delivered events i.id)

structure Inv (w : World ι τ γ) : Prop where
  wf : Wf w.rows
  order : w.events.Pairwise follows
  arrived : ∀ id rewrite, .delivered id rewrite ∈ w.events → ∃ r ∈ w.rows, r.id = id ∧
    (r.status = .succeeded ∨ (r.isOpen = true ∧ r.rewrite = some rewrite ∧
      HeadThere G branch (w.remote r.tenantId) rewrite))
  marked : ∀ r ∈ w.rows, r.isOpen = true → r.pushed = true → ∀ rewrite, r.rewrite = some rewrite →
    OnRemote w.events r.id rewrite
  pushed_map : ∀ id rewrite, .remapped id rewrite ∈ w.events → OnRemote w.events id rewrite
  at_phase : At branch w.rows w.events w.phase

variable {G branch}

theorem Inv.of_phase {w : World ι τ γ} (h : Inv G branch w) {p : Phase ι τ γ}
    (hp : At branch w.rows w.events p) : Inv G branch { w with phase := p } :=
  ⟨h.wf, h.order, h.arrived, h.marked, h.pushed_map, hp⟩

theorem Held.mine {rows : List (Request ι τ γ)} {i : Item ι τ γ} (h : Held rows i) :
    ∃ r, Mine rows i r := by
  obtain ⟨⟨r, hr, hstatus, rfl⟩, -⟩ := h
  exact ⟨r, hr, hstatus, rfl, rfl, rfl⟩

theorem At.mine {rows : List (Request ι τ γ)} {events : List (Event ι γ)} {p : Phase ι τ γ}
    {i : Item ι τ γ} (h : At branch rows events p) (hi : p.attempt = some i) :
    ∃ r, Mine rows i r := by
  cases p with
  | idle | claiming | failing _ _ | deciding _ _ _ => exact nomatch hi
  | begun j | named j =>
    rw [← Option.some.inj hi]
    exact Held.mine h
  | rewriting j | mirrored j _ | stored j _ _ _ | sent j | published j | checked j | purged j
  | collected j =>
    rw [← Option.some.inj hi]
    exact Held.mine h.1

theorem At.mono {rows rows' : List (Request ι τ γ)} {events : List (Event ι γ)} {p : Phase ι τ γ}
    (h : At branch rows events p) (hheld : ∀ i, Held rows i → Held rows' i)
    (hmine : ∀ i r, Mine rows i r → Mine rows' i r) : At branch rows' events p := by
  cases p with
  | idle | claiming => trivial
  | begun i | named i => exact hheld i h
  | rewriting i | mirrored i _ | stored i _ _ _ | sent i | published i | checked i | purged i
  | collected i => exact ⟨hheld i h.1, h.2⟩
  | failing i _ =>
    obtain ⟨r, hr⟩ := h
    exact ⟨r, hmine i r hr⟩
  | deciding i _ _ =>
    obtain ⟨⟨r, hr⟩, h⟩ := h
    exact ⟨⟨r, hmine i r hr⟩, h⟩

theorem OnRemote.append {events l : List (Event ι γ)} {id : ι} {rewrite : Rewrite γ}
    (h : OnRemote events id rewrite) : OnRemote (l ++ events) id rewrite :=
  h.imp (fun h => List.mem_append_right l h) fun h => List.mem_append_right l h

/-- the run's own row after a statement of the run -/
theorem Held.update {rows : List (Request ι τ γ)} {i i' : Item ι τ γ}
    {f : Request ι τ γ → Request ι τ γ} (h : Held rows i) (hid : i'.id = i.id)
    (htenant : i'.tenantId = i.tenantId) (hsame : ∀ r, (f r).id = r.id)
    (hf : ∀ r, r.status = .running → r.toItem = i → (f r).status = .running ∧ (f r).toItem = i') :
    Held (update i.id f rows) i' := by
  obtain ⟨⟨r, hr, hrun, hitem⟩, halone⟩ := h
  have hri : r.id = i.id := congrArg Item.id hitem
  refine ⟨⟨f r, mem_update.mpr (Or.inl ⟨r, hr, hri, rfl⟩), hf r hrun hitem⟩, fun r' hr' ho hm ht => ?_⟩
  rcases mem_update.mp hr' with ⟨r₀, -, hid₀, rfl⟩ | ⟨hr', -⟩
  · rw [hsame, hid₀, hid]
  · rw [hid]
    exact halone r' hr' ho hm (ht.trans htenant)

/-- a statement on one open row, and the events it comes with -/
theorem Inv.row {w w' : World ι τ γ} (h : Inv G branch w) {r : Request ι τ γ} (hr : r ∈ w.rows)
    (hopen : r.isOpen = true) {f : Request ι τ γ → Request ι τ γ} {l : List (Event ι γ)}
    (hrows : w'.rows = update r.id f w.rows) (hremote : w'.remote = w.remote)
    (hevents : w'.events = l ++ w.events) (hsame : Same r (f r))
    (hheads : (f r).isOpen = true → HeadKept (f r))
    (halone : (f r).isOpen = true → (f r).mayBePushed = true → ∀ r' ∈ w.rows, r'.isOpen = true →
      r'.mayBePushed = true → r'.tenantId = r.tenantId → r'.id = r.id)
    (hkept : ¬Delivered w.events r.id ∨ (f r).status = .succeeded ∨
      ((f r).isOpen = true ∧ (f r).rewrite = r.rewrite))
    (hmarked : (f r).isOpen = true → (f r).pushed = true → ∀ rewrite, (f r).rewrite = some rewrite →
      OnRemote w.events r.id rewrite)
    (hes : ∀ id rewrite, .delivered id rewrite ∉ l)
    (horder : (l ++ w.events).Pairwise follows)
    (hmap : ∀ id rewrite, .remapped id rewrite ∈ l → OnRemote w.events id rewrite)
    (hp : At branch w'.rows w'.events w'.phase) : Inv G branch w' := by
  refine ⟨?_, ?_, fun id rewrite hd => ?_, fun r' hr' ho hpushed rewrite hrw => ?_,
    fun id rewrite hm => ?_, hp⟩
  · rw [hrows]
    exact h.wf.update hr hopen hsame hheads halone
  · rw [hevents]
    exact horder
  · rw [hevents, List.mem_append] at hd
    have hd := hd.resolve_left (hes id rewrite)
    obtain ⟨r', hr', hid, hstate⟩ := h.arrived id rewrite hd
    rw [hrows, hremote]
    by_cases hown : r'.id = r.id
    · obtain rfl := h.wf.eq_of_id hr' hr hown
      refine ⟨f r', mem_update.mpr (Or.inl ⟨r', hr, rfl, rfl⟩), hsame.1.trans hid, ?_⟩
      rcases hkept with hnone | hdone | ⟨ho, hrewrite⟩
      · exact absurd ⟨rewrite, hid ▸ hd⟩ hnone
      · exact Or.inl hdone
      · rcases hstate with hdone | ⟨-, hrw, hhead⟩
        · unfold Request.isOpen at hopen
          rw [hdone] at hopen
          exact absurd hopen Bool.false_ne_true
        · rw [hsame.2.1]
          exact Or.inr ⟨ho, hrewrite.trans hrw, hhead⟩
    · exact ⟨r', mem_update.mpr (Or.inr ⟨hr', hown⟩), hid, hstate⟩
  · rw [hevents]
    rw [hrows] at hr'
    refine OnRemote.append ?_
    rcases mem_update.mp hr' with ⟨r₀, hr₀, hid, rfl⟩ | ⟨hr', -⟩
    · obtain rfl := h.wf.eq_of_id hr₀ hr hid
      rw [hsame.1]
      exact hmarked ho hpushed rewrite hrw
    · exact h.marked r' hr' ho hpushed rewrite hrw
  · rw [hevents] at hm ⊢
    rcases List.mem_append.mp hm with hm | hm
    · exact (hmap id rewrite hm).append
    · exact (h.pushed_map id rewrite hm).append

/-! ## The remote -/

theorem lookup_map_self (changed : List Text) (f : Text → Option γ) (ref : Text) :
    (changed.map fun ref => (ref, f ref)).lookup ref =
      if ref ∈ changed then some (f ref) else none := by
  induction changed with
  | nil => rw [if_neg List.not_mem_nil]; rfl
  | cons ref' changed ih =>
    rw [List.map_cons, List.lookup_cons]
    by_cases heq : ref = ref'
    · subst heq
      rw [beq_self_eq_true, if_pos List.mem_cons_self]
    · rw [beq_false_of_ne heq]
      show List.lookup ref _ = _
      rw [ih]
      simp only [List.mem_cons, heq, false_or]

theorem lookup_setRef (ref ref' : Text) (value : Option γ) (refs : Refs γ) :
    (setRef ref value refs).lookup ref' = if ref' = ref then value else refs.lookup ref' := by
  cases value with
  | none => exact Table.lookup_erase_eq refs ref ref'
  | some commit => exact Table.lookup_insert_eq refs ref ref' commit

theorem lookup_pushRefs (after : Refs γ) (changed : List Text) (remote : Refs γ) (ref : Text) :
    (pushRefs after changed remote).lookup ref =
      if ref ∈ changed then after.lookup ref else remote.lookup ref := by
  unfold pushRefs
  induction changed generalizing remote with
  | nil => rw [if_neg List.not_mem_nil]; rfl
  | cons ref' changed ih =>
    rw [List.foldl_cons, ih, lookup_setRef]
    by_cases hmem : ref ∈ changed
    · rw [if_pos hmem, if_pos (List.mem_cons_of_mem _ hmem)]
    · by_cases heq : ref = ref'
      · rw [if_neg hmem, if_pos heq, heq, if_pos List.mem_cons_self]
      · rw [if_neg hmem, if_neg heq, if_neg (by simp [heq, hmem])]

/-- a push that landed is found, when the other refs are still in place -/
theorem reached_of_headThere {remote : Refs γ} {rewrite : Rewrite γ}
    (hplace : InPlace branch remote (some rewrite)) (hhead : HeadThere G branch remote rewrite) :
    reached G branch remote (some rewrite) = some true := by
  unfold reached
  have hothers : (rewrite.after.any fun e => e.1 != branch && remote.lookup e.1 != e.2) = false := by
    refine List.any_eq_false.mpr fun e he hbad => ?_
    rw [Bool.and_eq_true, bne_iff_ne, bne_iff_ne] at hbad
    exact hbad.2 (hplace rewrite rfl e he hbad.1)
  show (if (rewrite.after.any fun e => e.1 != branch && remote.lookup e.1 != e.2) = true
    then some false else _) = _
  rw [hothers, if_neg Bool.false_ne_true]
  have hafter : ((some rewrite).map Rewrite.after).getD [] = rewrite.after := rfl
  cases hlookup : rewrite.after.lookup branch with
  | none =>
    rw [hafter, hlookup]
  | some head =>
    rw [hafter, hlookup]
    obtain ⟨commit, tip, rfl, htip, hanc⟩ := hhead head hlookup
    show (if _ then _ else _) = _
    rw [htip]
    split
    · rfl
    · exact congrArg some hanc

theorem headThere_push (before remote : Refs γ) (f : Filtered γ)
    (hbranch : (f.refs.lookup branch).isSome = true) :
    HeadThere G branch (pushRefs f.refs (rewriteOf before f).refs remote) (rewriteOf before f) := by
  intro head hhead
  have hafter := lookup_map_self (changedRefs before f.refs) (fun ref => f.refs.lookup ref) branch
  rw [show (rewriteOf before f).after.lookup branch = _ from hafter] at hhead
  by_cases hmem : branch ∈ changedRefs before f.refs
  · rw [if_pos hmem] at hhead
    obtain ⟨commit, hcommit⟩ := Option.isSome_iff_exists.mp hbranch
    refine ⟨commit, commit, ?_, ?_, G.isAncestor_refl commit⟩
    · rw [← Option.some.inj hhead, hcommit]
    · rw [lookup_pushRefs]
      exact (if_pos hmem).trans hcommit
  · rw [if_neg hmem] at hhead
    exact nomatch hhead

/-! ## One action -/

theorem Inv.remote {w w' : World ι τ γ} (h : Inv G branch w) (hrows : w'.rows = w.rows)
    (hevents : w'.events = w.events) (hphase : w'.phase = w.phase)
    (hhead : ∀ tenant rewrite, HeadThere G branch (w.remote tenant) rewrite →
      HeadThere G branch (w'.remote tenant) rewrite) : Inv G branch w' := by
  refine ⟨hrows ▸ h.wf, hevents ▸ h.order, ?_, ?_, hevents ▸ h.pushed_map, ?_⟩
  · rw [hrows, hevents]
    intro id rewrite hd
    obtain ⟨r, hr, hid, hstate⟩ := h.arrived id rewrite hd
    exact ⟨r, hr, hid, hstate.imp_right fun ⟨ho, hrw, hh⟩ => ⟨ho, hrw, hhead _ _ hh⟩⟩
  · rw [hrows, hevents]
    exact h.marked
  · rw [hrows, hevents, hphase]
    exact h.at_phase

theorem Inv.request {w : World ι τ γ} (h : Inv G branch w) {rows : List (Request ι τ γ)} {id : ι}
    {tenant : τ} {layer actor : Text} {now : Time} (hid : ∀ r ∈ w.rows, r.id ≠ id)
    (hreq : Erasure.request (w.groups tenant) w.rows id tenant layer actor now = .ok rows) :
    Inv G branch { w with rows := rows } := by
  have hwf := h.wf.request hid hreq
  obtain ⟨-, rfl⟩ := request_eq_ok hreq
  set new : Request ι τ γ := newRequest id tenant (Text.strip layer) actor now
  have hin : ∀ {r}, r ∈ w.rows → r ∈ w.rows ++ [new] := fun hr => List.mem_append_left _ hr
  refine ⟨hwf, h.order, fun id rewrite hd => ?_, fun r hr ho hpushed => ?_, h.pushed_map, ?_⟩
  · obtain ⟨r, hr, hstate⟩ := h.arrived id rewrite hd
    exact ⟨r, hin hr, hstate⟩
  · rcases List.mem_append.mp hr with hr | hr
    · exact h.marked r hr ho hpushed
    · rw [List.mem_singleton.mp hr] at hpushed
      exact absurd hpushed Bool.false_ne_true
  · refine h.at_phase.mono (fun i hheld => ?_) fun i r hm => ⟨hin hm.1, hm.2⟩
    obtain ⟨⟨r, hr, hrun⟩, halone⟩ := hheld
    refine ⟨⟨r, hin hr, hrun⟩, fun r' hr' ho hm ht => ?_⟩
    rcases List.mem_append.mp hr' with hr' | hr'
    · exact halone r' hr' ho hm ht
    · rw [List.mem_singleton.mp hr'] at hm
      exact absurd hm Bool.false_ne_true

theorem Inv.move {w : World ι τ γ} (h : Inv G branch w) {tenant : τ} {ref : Text}
    {value : Option γ} (href : ref ≠ branch) :
    Inv G branch { w with
      remote := Function.update w.remote tenant (setRef ref value (w.remote tenant)) } := by
  refine h.remote rfl rfl rfl fun tenant' rewrite hhead head hlookup => ?_
  obtain ⟨commit, tip, hcommit, htip, hanc⟩ := hhead head hlookup
  refine ⟨commit, tip, hcommit, ?_, hanc⟩
  show (Function.update w.remote tenant _ tenant').lookup branch = some tip
  by_cases htenant : tenant' = tenant
  · subst htenant
    rw [Function.update_self, lookup_setRef, if_neg href.symm, htip]
  · rw [Function.update_of_ne htenant, htip]

theorem Inv.land {w : World ι τ γ} (h : Inv G branch w) {tenant : τ} {tip : γ}
    (hforward : (((w.remote tenant).lookup branch).all fun old => G.isAncestor old tip) = true) :
    Inv G branch { w with
      remote := Function.update w.remote tenant ((w.remote tenant).insert branch tip)
      commits := Function.update w.commits tenant (some tip :: w.commits tenant) } := by
  refine h.remote rfl rfl rfl fun tenant' rewrite hhead head hlookup => ?_
  obtain ⟨commit, old, hcommit, hold, hanc⟩ := hhead head hlookup
  by_cases htenant : tenant' = tenant
  · subst htenant
    rw [hold] at hforward
    refine ⟨commit, tip, hcommit, ?_, G.isAncestor_trans commit old tip hanc hforward⟩
    show (Function.update w.remote tenant' _ tenant').lookup branch = some tip
    rw [Function.update_self, AList.lookup_insert]
  · refine ⟨commit, old, hcommit, ?_, hanc⟩
    show (Function.update w.remote tenant _ tenant').lookup branch = some old
    rw [Function.update_of_ne htenant, hold]

theorem Inv.giveUp {w : World ι τ γ} (h : Inv G branch w) (now : Time) :
    Inv G branch { w with
      rows := giveUp w.rows now, phase := .claiming,
      events := ((w.rows.filter keptStopping).map fun r => .failed r.id) ++ w.events } := by
  -- a request that reached the remote has its head recorded
  have hspared : ∀ id rewrite, .delivered id rewrite ∈ w.events → ∀ r ∈ w.rows, r.id = id →
      keptStopping r = false := by
    intro id rewrite hd r hr hid
    obtain ⟨r', hr', hid', hstate⟩ := h.arrived id rewrite hd
    obtain rfl := h.wf.eq_of_id hr hr' (hid.trans hid'.symm)
    by_contra hk
    have hk := Bool.eq_true_of_not_eq_false hk
    unfold keptStopping at hk
    rw [Bool.and_eq_true, Bool.and_eq_true, Bool.and_eq_true, beq_iff_eq] at hk
    obtain ⟨⟨⟨hrun, -⟩, hnone⟩, -⟩ := hk
    rcases hstate with hdone | ⟨ho, hrw, -⟩
    · rw [hdone] at hrun
      exact nomatch hrun
    · have hhead := (h.wf.heads r hr ho).2
      rw [hrw, Option.isNone_iff_eq_none.mp hnone] at hhead
      exact absurd hhead Bool.false_ne_true
  have hfailed : ∀ e ∈ ((w.rows.filter keptStopping).map fun r => (.failed r.id : Event ι γ)),
      ∃ r ∈ w.rows, keptStopping r = true ∧ e = .failed r.id := by
    intro e he
    obtain ⟨r, hr, rfl⟩ := List.mem_map.mp he
    exact ⟨r, (List.mem_filter.mp hr).1, (List.mem_filter.mp hr).2, rfl⟩
  have hold : ∀ id rewrite, .delivered id rewrite ∈
      ((w.rows.filter keptStopping).map fun r => (.failed r.id : Event ι γ)) ++ w.events →
      .delivered id rewrite ∈ w.events := by
    intro id rewrite hd
    refine (List.mem_append.mp hd).resolve_left fun hd => ?_
    obtain ⟨r, -, -, he⟩ := hfailed _ hd
    exact nomatch he
  refine ⟨h.wf.giveUp now, ?_, fun id rewrite hd => ?_, fun r hr ho hpushed rewrite hrw => ?_,
    fun id rewrite hm => ?_, trivial⟩
  · refine List.pairwise_append.mpr ⟨?_, h.order, fun e he e' he' => ?_⟩
    · refine List.pairwise_map.mpr (List.pairwise_of_forall fun r r' => trivial)
    · obtain ⟨r, hr, hk, rfl⟩ := hfailed e he
      cases e' with
      | delivered id rewrite =>
        show r.id ≠ id
        intro hid
        rw [hspared id rewrite he' r hr hid] at hk
        exact Bool.false_ne_true hk
      | recorded _ _ | found _ _ | remapped _ _ | failed _ => trivial
  · have hd := hold id rewrite hd
    obtain ⟨r, hr, hid, hstate⟩ := h.arrived id rewrite hd
    refine ⟨r, List.mem_map.mpr ⟨r, hr, ?_⟩, hid, hstate⟩
    rw [hspared id rewrite hd r hr hid, if_neg Bool.false_ne_true]
  · obtain ⟨r₀, hr₀, rfl⟩ := List.mem_map.mp hr
    by_cases hk : keptStopping r₀ = true
    · rw [if_pos hk] at ho
      exact absurd ho Bool.false_ne_true
    · rw [if_neg hk] at ho hpushed hrw ⊢
      exact (h.marked r₀ hr₀ ho hpushed rewrite hrw).append
  · have hm : .remapped id rewrite ∈ w.events := by
      refine (List.mem_append.mp hm).resolve_left fun hm => ?_
      obtain ⟨r, -, -, he⟩ := hfailed _ hm
      exact nomatch he
    exact (h.pushed_map id rewrite hm).append

/-- a statement that leaves the row open and its rewrite as it is -/
structure Quiet (r r' : Request ι τ γ) : Prop where
  same : Same r r'
  isOpen : r'.isOpen = true
  newHead : r'.newHead = r.newHead
  rewrite : r'.rewrite = r.rewrite
  pushed : r'.pushed = r.pushed

theorem Inv.quiet {w w' : World ι τ γ} (h : Inv G branch w) {r : Request ι τ γ} (hr : r ∈ w.rows)
    (hopen : r.isOpen = true) {f : Request ι τ γ → Request ι τ γ} (hf : Quiet r (f r))
    {l : List (Event ι γ)} (hrows : w'.rows = update r.id f w.rows) (hremote : w'.remote = w.remote)
    (hevents : w'.events = l ++ w.events) (hes : ∀ id rewrite, .delivered id rewrite ∉ l)
    (horder : (l ++ w.events).Pairwise follows)
    (hmap : ∀ id rewrite, .remapped id rewrite ∈ l → OnRemote w.events id rewrite)
    (hp : At branch w'.rows w'.events w'.phase) : Inv G branch w' := by
  refine h.row hr hopen hrows hremote hevents hf.same (fun _ => ?_) (fun _ hm r' hr' ho' hm' ht => ?_)
    (Or.inr (Or.inr ⟨hf.isOpen, hf.rewrite⟩)) (fun _ hpushed rewrite hrw => ?_) hes horder hmap hp
  · have hkept := h.wf.heads r hr hopen
    unfold HeadKept at hkept ⊢
    rw [hf.newHead, hf.rewrite, hf.pushed]
    exact hkept
  · refine h.wf.alone r' hr' r hr ho' hopen hm' ?_ ht
    unfold Request.mayBePushed at hm ⊢
    rw [hf.newHead, hf.pushed] at hm
    exact hm
  · rw [hf.pushed] at hpushed
    rw [hf.rewrite] at hrw
    exact h.marked r hr hopen hpushed rewrite hrw

theorem Inv.claim {w : World ι τ γ} (h : Inv G branch w) {now : Time} {r : Request ι τ γ}
    {rows : List (Request ι τ γ)} (hclaim : Erasure.claim w.rows now = some (r, rows)) :
    Inv G branch { w with rows := rows, phase := .begun r.toItem } := by
  unfold Erasure.claim at hclaim
  obtain ⟨r₀, hfind, heq⟩ := Option.map_eq_some_iff.mp hclaim
  obtain ⟨rfl, rfl⟩ := Prod.mk.inj heq
  have hr := List.mem_of_find?_eq_some hfind
  have hdue := List.find?_some hfind
  unfold due at hdue
  rw [Bool.and_eq_true, Bool.and_eq_true] at hdue
  obtain ⟨⟨hopen, -⟩, hfree⟩ := hdue
  refine h.quiet (l := []) hr hopen (f := claimed now) ⟨⟨rfl, rfl, rfl⟩, rfl, rfl, rfl, rfl⟩ rfl rfl
    rfl (fun _ _ => List.not_mem_nil) h.order (fun _ _ hm => absurd hm List.not_mem_nil) ?_
  refine ⟨⟨claimed now r₀, mem_update.mpr (Or.inl ⟨r₀, hr, rfl, rfl⟩), rfl, rfl⟩,
    fun r' hr' ho hm ht => ?_⟩
  rcases mem_update.mp hr' with ⟨r₁, -, hid, rfl⟩ | ⟨hr', -⟩
  · exact hid
  · rcases Bool.or_eq_true_iff.mp hfree with hmay | hnone
    · exact h.wf.alone r' hr' r₀ hr ho hopen hm hmay ht
    · rw [Bool.not_eq_true'] at hnone
      refine absurd ?_ (List.any_eq_false.mp hnone r' hr')
      rw [Bool.and_eq_true, Bool.and_eq_true, beq_iff_eq]
      exact ⟨⟨ht, hm⟩, ho⟩

theorem Inv.names {w : World ι τ γ} (h : Inv G branch w) {i : Item ι τ γ} (hat : w.phase = .begun i)
    (found : List Text) :
    Inv G branch { w with rows := update i.id (recordNames found) w.rows,
                          phase := .named { i with names := found } } := by
  have hheld : Held w.rows i := by
    have hp := h.at_phase
    rw [hat] at hp
    exact hp
  obtain ⟨⟨r, hr, hrun, rfl⟩, -⟩ := id hheld
  have hopen := isOpen_of_running hrun
  refine h.quiet (l := []) hr hopen (f := recordNames found) ⟨⟨rfl, rfl, rfl⟩, hopen, rfl, rfl, rfl⟩
    rfl rfl rfl (fun _ _ => List.not_mem_nil) h.order (fun _ _ hm => absurd hm List.not_mem_nil) ?_
  refine hheld.update rfl rfl (fun _ => rfl) fun r' hrun' hitem => ⟨hrun', ?_⟩
  rw [← hitem]
  rfl

theorem Inv.look {w : World ι τ γ} (h : Inv G branch w) {i : Item ι τ γ} (hat : w.phase = .named i)
    (hplace : i.pushed = false → Delivered w.events i.id →
      InPlace branch (w.remote i.tenantId) i.rewrite) :
    Inv G branch { w with
      phase := resume G branch (w.remote i.tenantId) i
      events := foundBy (resume G branch (w.remote i.tenantId) i) ++ w.events } := by
  have hheld : Held w.rows i := by
    have hp := h.at_phase
    rw [hat] at hp
    exact hp
  obtain ⟨⟨r, hr, hrun, hitem⟩, -⟩ := id hheld
  have hopen := isOpen_of_running hrun
  have hkept := h.wf.heads r hr hopen
  -- what `arrived` says of this request
  have harrived : ∀ rewrite, .delivered i.id rewrite ∈ w.events →
      i.rewrite = some rewrite ∧ HeadThere G branch (w.remote i.tenantId) rewrite := by
    intro rewrite hd
    obtain ⟨r', hr', hid, hstate⟩ := h.arrived _ _ hd
    obtain rfl := h.wf.eq_of_id hr' hr (hid.trans (congrArg Item.id hitem).symm)
    rcases hstate with hdone | ⟨-, hrw, hhead⟩
    · rw [hdone] at hrun
      exact nomatch hrun
    · rw [← hitem]
      exact ⟨hrw, hhead⟩
  have hquiet : ∀ p, foundBy p = ([] : List (Event ι γ)) → At branch w.rows w.events p →
      Inv G branch { w with phase := p, events := foundBy p ++ w.events } := by
    intro p hnone hp
    rw [hnone]
    exact h.of_phase hp
  unfold resume
  by_cases hpushed : i.pushed = true
  · rw [if_pos hpushed]
    refine hquiet _ rfl ⟨hheld, hpushed, ?_⟩
    rw [← hitem] at hpushed ⊢
    have hsome := hkept.1 hpushed
    rw [hkept.2] at hsome
    obtain ⟨rewrite, hrw⟩ := Option.isSome_iff_exists.mp hsome
    exact ⟨rewrite, hrw, h.marked r hr hopen hpushed rewrite hrw⟩
  rw [if_neg hpushed]
  have hunpushed := Bool.eq_false_of_not_eq_true hpushed
  by_cases hnone : i.newHead.isNone = true
  · rw [if_pos hnone]
    refine hquiet _ rfl ⟨hheld, hunpushed, fun ⟨rewrite, hd⟩ => ?_⟩
    have hrw := (harrived rewrite hd).1
    rw [← hitem] at hnone hrw
    have hsame := hkept.2
    rw [hrw, Option.isNone_iff_eq_none.mp hnone] at hsame
    exact absurd hsame Bool.false_ne_true
  rw [if_neg hnone]
  have hsome : i.newHead.isSome = true := by
    rw [← Option.not_isNone, Bool.eq_false_of_not_eq_true hnone]
    rfl
  have hrewrite : i.rewrite.isSome = true := by
    rw [← hitem] at hsome ⊢
    exact hkept.2.symm.trans hsome
  obtain ⟨rewrite, hrw⟩ := Option.isSome_iff_exists.mp hrewrite
  cases hreached : reached G branch (w.remote i.tenantId) i.rewrite with
  | none => exact hquiet _ rfl hheld.mine
  | some yes =>
    cases yes with
    | false =>
      refine hquiet _ rfl ⟨hheld, hunpushed, fun ⟨rewrite', hd⟩ => ?_⟩
      obtain ⟨hrw', hhead⟩ := harrived rewrite' hd
      have hplace := hplace hunpushed ⟨rewrite', hd⟩
      rw [hrw'] at hplace hreached
      rw [reached_of_headThere hplace hhead] at hreached
      exact absurd (Option.some.inj hreached).symm Bool.false_ne_true
    | true =>
      have hfound : foundBy (.sent i : Phase ι τ γ) = [.found i.id rewrite] := by
        show (i.rewrite.map _).toList = _
        rw [hrw]
        rfl
      refine ⟨h.wf, ?_, fun id rw' hd => ?_, fun r' hr' ho hp rw' hrw' => ?_, fun id rw' hm => ?_, ?_⟩
      · show (foundBy (.sent i) ++ w.events).Pairwise follows
        rw [hfound]
        exact List.pairwise_cons.mpr ⟨fun _ _ => trivial, h.order⟩
      · refine h.arrived id rw' ((List.mem_append.mp hd).resolve_left fun hd => ?_)
        rw [hfound] at hd
        exact nomatch List.mem_singleton.mp hd
      · exact (h.marked r' hr' ho hp rw' hrw').append
      · refine (h.pushed_map id rw' ((List.mem_append.mp hm).resolve_left fun hm => ?_)).append
        rw [hfound] at hm
        exact nomatch List.mem_singleton.mp hm
      · refine ⟨hheld, hsome, rewrite, hrw, Or.inr ?_⟩
        show _ ∈ foundBy (.sent i) ++ w.events
        rw [hfound]
        exact List.mem_cons_self

theorem Inv.record {w : World ι τ γ} (h : Inv G branch w) {i : Item ι τ γ} {before : Refs γ}
    (hat : w.phase = .mirrored i before)
    (hbranch : (G.filter (folderOf i.layer) before).refs.lookup branch ≠ none) :
    let f := G.filter (folderOf i.layer) before
    let rewrite := rewriteOf before f
    Inv G branch { w with
      rows := update i.id (recordRewrite (before.lookup branch) (f.refs.lookup branch) rewrite) w.rows
      phase := .stored { i with
          oldHead := before.lookup branch, newHead := f.refs.lookup branch, rewrite := some rewrite }
        before f.refs rewrite
      events := .recorded i.id rewrite :: w.events } := by
  intro f rewrite
  have hp := h.at_phase
  rw [hat] at hp
  obtain ⟨hheld, hunpushed, hnew⟩ := hp
  obtain ⟨⟨r, hr, hrun, rfl⟩, halone⟩ := id hheld
  have hopen := isOpen_of_running hrun
  have hsome : (f.refs.lookup branch).isSome = true := Option.isSome_iff_ne_none.mpr hbranch
  have hnew' : ¬Delivered (.recorded r.id rewrite :: w.events) r.id := fun ⟨rw', hd⟩ =>
    (List.mem_cons.mp hd).elim (fun he => nomatch he) fun hd => hnew ⟨rw', hd⟩
  refine h.row (l := [.recorded r.id rewrite]) hr hopen
    (f := recordRewrite (before.lookup branch) (f.refs.lookup branch) rewrite) rfl rfl rfl
    ⟨rfl, rfl, rfl⟩ (fun _ => ⟨fun hp => ?_, hsome⟩) (fun _ _ => halone) (Or.inl hnew)
    (fun _ hp => ?_) (fun _ _ hd => nomatch List.mem_singleton.mp hd) ?_
    (fun _ _ hm => nomatch List.mem_singleton.mp hm) ?_
  · exact hsome
  · rw [show r.pushed = true from hp] at hunpushed
    exact absurd hunpushed Bool.true_eq_false_eq_False
  · refine List.pairwise_cons.mpr ⟨fun e he => ?_, h.order⟩
    cases e with
    | delivered id rw' =>
      show r.id ≠ id
      rintro rfl
      exact hnew ⟨rw', he⟩
    | recorded _ _ | found _ _ | remapped _ _ | failed _ => trivial
  · refine ⟨hheld.update rfl rfl (fun _ => rfl) fun r' hrun' hitem => ⟨hrun', ?_⟩, hunpushed, hnew',
      rfl, ⟨f, rfl, rfl⟩, hsome, rfl⟩
    rw [← hitem]
    rfl

theorem Inv.push {w : World ι τ γ} (h : Inv G branch w) {i : Item ι τ γ} {before after : Refs γ}
    {rewrite : Rewrite γ} (hat : w.phase = .stored i before after rewrite) (heard : Bool) :
    Inv G branch { w with
      remote := Function.update w.remote i.tenantId
        (pushRefs after rewrite.refs (w.remote i.tenantId))
      phase := if heard then .sent i else .failing i notPushed
      events := .delivered i.id rewrite :: w.events } := by
  have hp := h.at_phase
  rw [hat] at hp
  obtain ⟨hheld, hunpushed, hnew, hrewrite, ⟨f, rfl, rfl⟩, hsome, hhead⟩ := hp
  obtain ⟨⟨r, hr, hrun, rfl⟩, halone⟩ := id hheld
  have hopen := isOpen_of_running hrun
  refine ⟨h.wf, ?_, fun id rw' hd => ?_, fun r' hr' ho hpushed rw' hrw' => ?_, fun id rw' hm => ?_, ?_⟩
  · refine List.pairwise_cons.mpr ⟨fun e he => ?_, h.order⟩
    cases e with
    | delivered id rw' =>
      show r.id ≠ id
      rintro rfl
      exact hnew ⟨rw', he⟩
    | recorded _ _ | found _ _ | remapped _ _ | failed _ => trivial
  · rcases List.mem_cons.mp hd with heq | hd
    · obtain ⟨rfl, rfl⟩ := Event.delivered.inj heq
      refine ⟨r, hr, rfl, Or.inr ⟨hopen, hrewrite, ?_⟩⟩
      show HeadThere G branch (Function.update w.remote r.tenantId _ r.tenantId) _
      rw [Function.update_self]
      exact headThere_push before _ f hsome
    · obtain ⟨r', hr', hid, hstate⟩ := h.arrived id rw' hd
      refine ⟨r', hr', hid, hstate.imp_right fun ⟨ho, hrw, hthere⟩ => ⟨ho, hrw, ?_⟩⟩
      -- an open request of this tenant that reached the remote would be this one
      by_cases htenant : r'.tenantId = r.tenantId
      · have hhead' := (h.wf.heads r' hr' ho).2
        rw [hrw] at hhead'
        have hmay : r'.mayBePushed = true := by
          unfold Request.mayBePushed
          rw [hhead']
          exact Bool.or_true _
        have hown := halone r' hr' ho hmay htenant
        exact absurd ⟨rw', by rw [← hown, hid]; exact hd⟩ hnew
      · show HeadThere G branch (Function.update w.remote r.tenantId _ r'.tenantId) rw'
        rw [Function.update_of_ne htenant]
        exact hthere
  · exact OnRemote.append (l := [_]) (h.marked r' hr' ho hpushed rw' hrw')
  · rcases List.mem_cons.mp hm with heq | hm
    · exact nomatch heq
    · exact OnRemote.append (l := [_]) (h.pushed_map id rw' hm)
  · cases heard with
    | true =>
      refine ⟨hheld, ?_, _, hrewrite, Or.inl List.mem_cons_self⟩
      rw [hhead]
      exact hsome
    | false => exact hheld.mine

theorem Inv.mark {w : World ι τ γ} (h : Inv G branch w) {i : Item ι τ γ} (hat : w.phase = .sent i) :
    Inv G branch { w with rows := update i.id markPushed w.rows,
                          phase := .published { i with pushed := true } } := by
  have hp := h.at_phase
  rw [hat] at hp
  obtain ⟨hheld, hsome, rewrite, hrw, hon⟩ := hp
  obtain ⟨⟨r, hr, hrun, rfl⟩, halone⟩ := id hheld
  have hopen := isOpen_of_running hrun
  refine h.row (l := []) hr hopen (f := markPushed) rfl rfl rfl ⟨rfl, rfl, rfl⟩
    (fun _ => ⟨fun _ => hsome, (h.wf.heads r hr hopen).2⟩) (fun _ _ => halone)
    (Or.inr (Or.inr ⟨hopen, rfl⟩)) (fun _ _ rw' hrw' => ?_) (fun _ _ => List.not_mem_nil) h.order
    (fun _ _ hm => absurd hm List.not_mem_nil) ?_
  · obtain rfl := Option.some.inj (hrw.symm.trans hrw')
    exact hon
  · refine ⟨hheld.update rfl rfl (fun _ => rfl) fun r' hrun' hitem => ⟨hrun', ?_⟩, rfl, rewrite, hrw, hon⟩
    rw [← hitem]
    rfl

/-- the statements of the steps after the push, which leave every column of `Item` -/
theorem Inv.later {w w' : World ι τ γ} (h : Inv G branch w) {i : Item ι τ γ} {rewrite : Rewrite γ}
    (hheld : Held w.rows i) (hpushed : i.pushed = true) (hrw : i.rewrite = some rewrite)
    (hon : OnRemote w.events i.id rewrite) {f : Request ι τ γ → Request ι τ γ}
    (hf : ∀ r, (f r).toItem = r.toItem ∧ (f r).status = r.status) {l : List (Event ι γ)}
    (hrows : w'.rows = update i.id f w.rows) (hremote : w'.remote = w.remote)
    (hevents : w'.events = l ++ w.events) (hphase : w'.phase = .purged i ∨ w'.phase = .collected i)
    (hes : ∀ id rewrite, .delivered id rewrite ∉ l) (horder : (l ++ w.events).Pairwise follows)
    (hmap : ∀ id rewrite, .remapped id rewrite ∈ l → OnRemote w.events id rewrite) :
    Inv G branch w' := by
  obtain ⟨⟨r, hr, hrun, rfl⟩, -⟩ := id hheld
  have hopen := isOpen_of_running hrun
  have hitem := (hf r).1
  refine h.quiet hr hopen (f := f) ⟨?_, ?_, ?_, ?_, ?_⟩ hrows hremote hevents hes horder hmap ?_
  · exact ⟨congrArg Item.id hitem, congrArg Item.tenantId hitem, congrArg Item.layer hitem⟩
  · exact isOpen_of_running ((hf r).2.trans hrun)
  · exact congrArg Item.newHead hitem
  · exact congrArg Item.rewrite hitem
  · exact congrArg Item.pushed hitem
  · have hat : Held w'.rows r.toItem ∧ r.pushed = true ∧
        ∃ rewrite, r.rewrite = some rewrite ∧ OnRemote w'.events r.id rewrite := by
      rw [hrows, hevents]
      refine ⟨hheld.update rfl rfl (fun r' => congrArg Item.id (hf r').1) fun r' hrun' hitem' => ?_,
        hpushed, rewrite, hrw, hon.append⟩
      exact ⟨(hf r').2.trans hrun', (hf r').1.trans hitem'⟩
    rcases hphase with hphase | hphase <;> rw [hphase] <;> exact hat

theorem Inv.purge {w : World ι τ γ} (h : Inv G branch w) {i : Item ι τ γ} {rewrite : Rewrite γ}
    (hat : w.phase = .checked i) (hrw : i.rewrite = some rewrite) (counts : List (Text × ℕ))
    (garbage : List Text) :
    Inv G branch { w with
      rows := update i.id (addCounts counts ∘ addGarbage garbage) w.rows
      commits := Function.update w.commits i.tenantId
        ((w.commits i.tenantId).map (remap rewrite.commitMap))
      phase := .purged i
      events := .remapped i.id rewrite :: w.events } := by
  have hp := h.at_phase
  rw [hat] at hp
  obtain ⟨hheld, hpushed, rw', hrw', hon⟩ := hp
  obtain rfl := Option.some.inj (hrw.symm.trans hrw')
  refine h.later (l := [.remapped i.id rewrite]) hheld hpushed hrw hon
    (f := addCounts counts ∘ addGarbage garbage) (fun _ => ⟨rfl, rfl⟩) rfl rfl rfl (Or.inl rfl)
    (fun _ _ hd => nomatch List.mem_singleton.mp hd) ?_ fun id rw' hm => ?_
  · refine List.pairwise_cons.mpr ⟨fun e he => ?_, h.order⟩
    cases e with
    | delivered id rw' =>
      show i.id = id → rewrite = rw'
      rintro rfl
      obtain ⟨⟨r, hr, hrun, rfl⟩, -⟩ := hheld
      obtain ⟨r', hr', hid, hstate⟩ := h.arrived _ _ he
      obtain rfl := h.wf.eq_of_id hr' hr hid
      rcases hstate with hdone | ⟨-, hrw', -⟩
      · rw [hdone] at hrun
        exact nomatch hrun
      · exact Option.some.inj (hrw.symm.trans hrw')
    | recorded _ _ | found _ _ | remapped _ _ | failed _ => trivial
  · obtain ⟨rfl, rfl⟩ := Event.remapped.inj (List.mem_singleton.mp hm)
    exact hon

theorem Inv.collect {w : World ι τ γ} (h : Inv G branch w) {i : Item ι τ γ}
    (hat : w.phase = .purged i) (counts : List (Text × ℕ)) :
    Inv G branch { w with
      rows := update i.id (addCounts counts ∘ clearGarbage) w.rows, phase := .collected i } := by
  have hp := h.at_phase
  rw [hat] at hp
  obtain ⟨hheld, hpushed, rewrite, hrw, hon⟩ := hp
  exact h.later (l := []) hheld hpushed hrw hon (f := addCounts counts ∘ clearGarbage)
    (fun _ => ⟨rfl, rfl⟩) rfl rfl rfl (Or.inr rfl)
    (fun _ _ => List.not_mem_nil) h.order (fun _ _ hm => absurd hm List.not_mem_nil)

theorem Inv.finish {w : World ι τ γ} (h : Inv G branch w) {i : Item ι τ γ}
    (hat : w.phase = .collected i) (receipt : Request ι τ γ → Receipt γ) (now : Time) :
    Inv G branch { w with
      rows := update i.id (fun r => Erasure.finish (receipt r) now r) w.rows, phase := .idle } := by
  have hp := h.at_phase
  rw [hat] at hp
  obtain ⟨⟨⟨r, hr, hrun, rfl⟩, -⟩, -⟩ := hp
  exact h.row (l := []) hr (isOpen_of_running hrun) (f := fun r => Erasure.finish (receipt r) now r)
    rfl rfl rfl ⟨rfl, rfl, rfl⟩ (fun ho => absurd ho Bool.false_ne_true)
    (fun ho => absurd ho Bool.false_ne_true) (Or.inr (Or.inl rfl))
    (fun ho => absurd ho Bool.false_ne_true) (fun _ _ => List.not_mem_nil) h.order
    (fun _ _ hm => absurd hm List.not_mem_nil) trivial

theorem Inv.decide {w : World ι τ γ} (h : Inv G branch w) {i : Item ι τ γ} {error : Text}
    (hat : w.phase = .failing i error) {r : Request ι τ γ}
    (hlatest : latest w.rows i.tenantId i.layer = some r)
    (hplace : MAX_ATTEMPTS ≤ i.attempts → r.pushed = false → Delivered w.events r.id →
      InPlace branch (w.remote i.tenantId) r.rewrite) :
    Inv G branch { w with phase := .deciding i error (Decidable.decide (MAX_ATTEMPTS ≤ i.attempts) &&
      !mayBePushed G branch (w.remote i.tenantId) r) } := by
  have hp := h.at_phase
  rw [hat] at hp
  obtain ⟨r', hr', hrun, hid, htenant, hlayer⟩ := hp
  have hopen := isOpen_of_running hrun
  -- the row looked at is the row of the run
  have hown := latest_of_open h.wf hr' hopen
  rw [htenant, hlayer, hlatest] at hown
  obtain rfl := Option.some.inj hown
  refine h.of_phase ⟨⟨r, hr', hrun, hid, htenant, hlayer⟩, fun hfinal => ?_⟩
  rw [Bool.and_eq_true, decide_eq_true_iff, Bool.not_eq_true'] at hfinal
  rintro ⟨rewrite, hd⟩
  rw [← hid] at hd
  obtain ⟨r₁, hr₁, hid₁, hstate⟩ := h.arrived _ _ hd
  obtain rfl := h.wf.eq_of_id hr₁ hr' hid₁
  rcases hstate with hdone | ⟨-, hrw, hhead⟩
  · rw [hdone] at hrun
    exact nomatch hrun
  have hmay : mayBePushed G branch (w.remote i.tenantId) r₁ = true := by
    unfold mayBePushed
    by_cases hpushed : r₁.pushed = true
    · rw [hpushed]
      rfl
    · have hsome := (h.wf.heads r₁ hr₁ hopen).2
      have hplace := hplace hfinal.1 (Bool.eq_false_of_not_eq_true hpushed) ⟨rewrite, hd⟩
      rw [hrw] at hsome hplace
      rw [htenant] at hhead
      rw [hrw, reached_of_headThere hplace hhead, hsome]
      exact Bool.or_true _
  rw [hmay] at hfinal
  exact absurd hfinal.2 Bool.true_eq_false_eq_False

theorem Inv.fail {w : World ι τ γ} (h : Inv G branch w) {i : Item ι τ γ} {error : Text} {final : Bool}
    (hat : w.phase = .deciding i error final) (now : Time) :
    Inv G branch { w with
      rows := update i.id (Erasure.fail error final now) w.rows
      phase := .idle
      events := if final then .failed i.id :: w.events else w.events } := by
  have hp := h.at_phase
  rw [hat] at hp
  obtain ⟨⟨r, hr, hrun, hid, -, -⟩, hnew⟩ := hp
  have hopen := isOpen_of_running hrun
  cases final with
  | false =>
    exact h.quiet (l := []) hr hopen (f := Erasure.fail error false now)
      ⟨⟨rfl, rfl, rfl⟩, rfl, rfl, rfl, rfl⟩ (by rw [hid]) rfl rfl (fun _ _ => List.not_mem_nil)
      h.order (fun _ _ hm => absurd hm List.not_mem_nil) trivial
  | true =>
    have hnew := hnew rfl
    rw [← hid] at hnew
    refine h.row (l := [.failed i.id]) hr hopen (f := Erasure.fail error true now) (by rw [hid]) rfl
      rfl ⟨rfl, rfl, rfl⟩ (fun ho => absurd ho Bool.false_ne_true)
      (fun ho => absurd ho Bool.false_ne_true) (Or.inl hnew) (fun ho => absurd ho Bool.false_ne_true)
      (fun _ _ hd => nomatch List.mem_singleton.mp hd) ?_
      (fun _ _ hm => nomatch List.mem_singleton.mp hm) trivial
    refine List.pairwise_cons.mpr ⟨fun e he => ?_, h.order⟩
    cases e with
    | delivered id rw' =>
      show i.id ≠ id
      rintro rfl
      rw [hid] at hnew
      exact hnew ⟨rw', he⟩
    | recorded _ _ | found _ _ | remapped _ _ | failed _ => trivial

/-! ## A run -/

theorem inv_step {w w' : World ι τ γ} {a : Action ι τ γ} (h : Inv G branch w)
    (hP : Undisturbed G branch w a) (hstep : step G branch w a = some w') : Inv G branch w' := by
  cases a with
  | request id tenant layer actor now =>
    rw [step] at hstep
    by_cases hany : (w.rows.any fun r => r.id == id) = true
    · rw [if_pos hany] at hstep
      exact nomatch hstep
    rw [if_neg hany] at hstep
    cases hreq : Erasure.request (w.groups tenant) w.rows id tenant layer actor now with
    | error e =>
      rw [hreq] at hstep
      exact Option.some.inj hstep ▸ h
    | ok rows =>
      rw [hreq] at hstep
      obtain rfl := Option.some.inj hstep
      refine h.request (fun r hr hid => ?_) hreq
      exact List.any_eq_false.mp (Bool.eq_false_of_not_eq_true hany) r hr (beq_iff_eq.mpr hid)
  | regroup tenant names =>
    obtain rfl := Option.some.inj hstep
    exact h.remote rfl rfl rfl fun _ _ hhead => hhead
  | move tenant ref value =>
    rw [step] at hstep
    by_cases href : ref = branch
    · rw [if_pos href] at hstep
      exact nomatch hstep
    · rw [if_neg href] at hstep
      obtain rfl := Option.some.inj hstep
      exact h.move href
  | land tenant tip =>
    rw [step] at hstep
    split at hstep
    · rename_i hforward
      obtain rfl := Option.some.inj hstep
      exact h.land hforward
    · exact nomatch hstep
  | giveUp now =>
    rw [step] at hstep
    split at hstep
    · obtain rfl := Option.some.inj hstep
      exact h.giveUp now
    · exact nomatch hstep
  | claim now =>
    rw [step] at hstep
    split at hstep
    · split at hstep
      · obtain rfl := Option.some.inj hstep
        exact h.of_phase trivial
      · rename_i hclaim
        obtain rfl := Option.some.inj hstep
        exact h.claim hclaim
    · exact nomatch hstep
  | names found =>
    rw [step] at hstep
    split at hstep
    · rename_i i hat
      split at hstep
      · obtain rfl := Option.some.inj hstep
        exact h.names hat found
      · obtain rfl := Option.some.inj hstep
        have hp := h.at_phase
        rw [hat] at hp
        exact h.of_phase hp
    · exact nomatch hstep
  | look =>
    rw [step] at hstep
    split at hstep
    · rename_i i hat
      obtain rfl := Option.some.inj hstep
      exact h.look hat (hP i hat)
    · exact nomatch hstep
  | mirror =>
    rw [step] at hstep
    split at hstep
    · rename_i i hat
      obtain rfl := Option.some.inj hstep
      have hp := h.at_phase
      rw [hat] at hp
      exact h.of_phase hp
    · exact nomatch hstep
  | record =>
    rw [step] at hstep
    split at hstep
    · rename_i i before hat
      dsimp only at hstep
      split at hstep
      · obtain rfl := Option.some.inj hstep
        have hp := h.at_phase
        rw [hat] at hp
        exact h.of_phase hp.1.mine
      · obtain rfl := Option.some.inj hstep
        exact h.record hat (hP i before hat)
    · exact nomatch hstep
  | push heard =>
    rw [step] at hstep
    split at hstep
    · rename_i i before after rewrite hat
      split at hstep
      · obtain rfl := Option.some.inj hstep
        exact h.push hat heard
      · obtain rfl := Option.some.inj hstep
        have hp := h.at_phase
        rw [hat] at hp
        exact h.of_phase hp.1.mine
    · exact nomatch hstep
  | mark =>
    rw [step] at hstep
    split at hstep
    · rename_i i hat
      obtain rfl := Option.some.inj hstep
      exact h.mark hat
    · exact nomatch hstep
  | check =>
    rw [step] at hstep
    split at hstep
    · rename_i i hat
      obtain rfl := Option.some.inj hstep
      have hp := h.at_phase
      rw [hat] at hp
      refine h.of_phase ?_
      unfold resetCheckout
      split
      · exact hp.1.mine
      · split
        · exact hp.1.mine
        · exact hp
    · exact nomatch hstep
  | purge counts garbage =>
    rw [step] at hstep
    split at hstep
    · rename_i i hat
      split at hstep
      · obtain rfl := Option.some.inj hstep
        have hp := h.at_phase
        rw [hat] at hp
        exact h.of_phase hp.1.mine
      · rename_i rewrite hrw
        obtain rfl := Option.some.inj hstep
        exact h.purge hat hrw counts garbage
    · exact nomatch hstep
  | collect deleted =>
    rw [step] at hstep
    split at hstep
    · rename_i i hat
      obtain rfl := Option.some.inj hstep
      exact h.collect hat _
    · exact nomatch hstep
  | finish pages now =>
    rw [step] at hstep
    split at hstep
    · rename_i i hat
      split at hstep
      · obtain rfl := Option.some.inj hstep
        have hp := h.at_phase
        rw [hat] at hp
        exact h.of_phase hp.1.mine
      · rename_i rewrite hrw
        obtain rfl := Option.some.inj hstep
        exact h.finish hat (fun r => receiptOf i rewrite pages r.counts) now
    · exact nomatch hstep
  | raise error =>
    obtain ⟨i, hi, rfl⟩ := Option.map_eq_some_iff.mp hstep
    exact h.of_phase (h.at_phase.mine hi)
  | decide =>
    rw [step] at hstep
    split at hstep
    · rename_i i error hat
      obtain rfl := Option.some.inj hstep
      cases hlatest : latest w.rows i.tenantId i.layer with
      | none => exact h.of_phase trivial
      | some r => exact h.decide hat hlatest fun hattempts => hP i error hat hattempts r hlatest
    · exact nomatch hstep
  | fail now =>
    rw [step] at hstep
    split at hstep
    · rename_i i error final hat
      obtain rfl := Option.some.inj hstep
      exact h.fail hat now
    · exact nomatch hstep
  | stop =>
    obtain rfl := Option.some.inj hstep
    exact h.of_phase trivial

theorem Inv.safe {w : World ι τ γ} (h : Inv G branch w) : Safe w where
  one_open := by
    intro r hr r' hr' ho ho' htenant hlayer
    have hlatest := latest_of_open h.wf hr ho
    rw [htenant, hlayer, latest_of_open h.wf hr' ho'] at hlatest
    exact (Option.some.inj hlatest).symm
  one_rewrite := by
    intro r hr r' hr' ho ho' hrw hrw' htenant
    have hmay : ∀ r ∈ w.rows, r.isOpen = true → r.rewrite.isSome = true → r.mayBePushed = true := by
      intro r hr ho hrw
      unfold Request.mayBePushed
      rw [(h.wf.heads r hr ho).2, hrw, Bool.or_true]
    exact h.wf.eq_of_id hr hr' (h.wf.alone r hr r' hr' ho ho' (hmay r hr ho hrw)
      (hmay r' hr' ho' hrw') htenant)
  order := h.order
  reached_kept := by
    intro id rewrite hd
    obtain ⟨r, hr, hid, hstate⟩ := h.arrived id rewrite hd
    refine ⟨r, hr, hid, fun hfailed => ?_⟩
    rcases hstate with hdone | ⟨ho, -⟩
    · rw [hdone] at hfailed
      exact nomatch hfailed
    · unfold Request.isOpen at ho
      rw [hfailed] at ho
      exact Bool.false_ne_true ho
  pushed_map := h.pushed_map

/-- rows that are no longer open stay as they are -/
def ClosedKept (w w' : World ι τ γ) : Prop := ∀ r ∈ w.rows, r.isOpen = false → r ∈ w'.rows

theorem closedKept_update {w : World ι τ γ} (h : Inv G branch w) {i : Item ι τ γ} {r r' : Request ι τ γ}
    (hmine : Mine w.rows i r') (f : Request ι τ γ → Request ι τ γ) (hr : r ∈ w.rows)
    (hclosed : r.isOpen = false) : r ∈ update i.id f w.rows := by
  refine mem_update.mpr (Or.inr ⟨hr, fun hid => ?_⟩)
  obtain rfl := h.wf.eq_of_id hr hmine.1 (hid.trans hmine.2.2.1.symm)
  rw [isOpen_of_running hmine.2.1] at hclosed
  exact absurd hclosed Bool.true_eq_false_eq_False

theorem closedKept_step {w w' : World ι τ γ} {a : Action ι τ γ} (h : Inv G branch w)
    (hstep : step G branch w a = some w') : ClosedKept w w' := by
  intro r hr hclosed
  have hrun : ∀ i, w.phase.attempt = some i → ∀ f, r ∈ update i.id f w.rows := by
    intro i hi f
    obtain ⟨r', hmine⟩ := h.at_phase.mine hi
    exact closedKept_update h hmine f hr hclosed
  cases a with
  | request id tenant layer actor now =>
    rw [step] at hstep
    split at hstep
    · exact nomatch hstep
    · split at hstep
      · rename_i hreq
        obtain rfl := Option.some.inj hstep
        rw [(request_eq_ok hreq).2]
        exact List.mem_append_left _ hr
      · obtain rfl := Option.some.inj hstep
        exact hr
  | regroup tenant names =>
    obtain rfl := Option.some.inj hstep
    exact hr
  | move tenant ref value =>
    rw [step] at hstep
    split at hstep
    · exact nomatch hstep
    · obtain rfl := Option.some.inj hstep
      exact hr
  | land tenant tip =>
    rw [step] at hstep
    split at hstep
    · obtain rfl := Option.some.inj hstep
      exact hr
    · exact nomatch hstep
  | giveUp now =>
    rw [step] at hstep
    split at hstep
    · obtain rfl := Option.some.inj hstep
      refine List.mem_map.mpr ⟨r, hr, if_neg fun hk => ?_⟩
      unfold keptStopping at hk
      rw [Bool.and_eq_true, Bool.and_eq_true, Bool.and_eq_true, beq_iff_eq] at hk
      rw [isOpen_of_running hk.1.1.1] at hclosed
      exact absurd hclosed Bool.true_eq_false_eq_False
    · exact nomatch hstep
  | claim now =>
    rw [step] at hstep
    split at hstep
    · split at hstep
      · obtain rfl := Option.some.inj hstep
        exact hr
      · rename_i hclaim
        obtain rfl := Option.some.inj hstep
        unfold Erasure.claim at hclaim
        obtain ⟨r₀, hfind, heq⟩ := Option.map_eq_some_iff.mp hclaim
        obtain ⟨rfl, rfl⟩ := Prod.mk.inj heq
        have hdue := List.find?_some hfind
        unfold due at hdue
        rw [Bool.and_eq_true, Bool.and_eq_true] at hdue
        refine mem_update.mpr (Or.inr ⟨hr, fun hid => ?_⟩)
        obtain rfl := h.wf.eq_of_id hr (List.mem_of_find?_eq_some hfind) hid
        rw [hdue.1.1] at hclosed
        exact absurd hclosed Bool.true_eq_false_eq_False
    · exact nomatch hstep
  | names found =>
    rw [step] at hstep
    split at hstep
    · rename_i i hat
      split at hstep
      · obtain rfl := Option.some.inj hstep
        exact hrun i (by rw [hat]; rfl) _
      · obtain rfl := Option.some.inj hstep
        exact hr
    · exact nomatch hstep
  | look | mirror | check =>
    rw [step] at hstep
    split at hstep
    · obtain rfl := Option.some.inj hstep
      exact hr
    · exact nomatch hstep
  | record =>
    rw [step] at hstep
    split at hstep
    · rename_i i before hat
      dsimp only at hstep
      split at hstep
      · obtain rfl := Option.some.inj hstep
        exact hr
      · obtain rfl := Option.some.inj hstep
        exact hrun i (by rw [hat]; rfl) _
    · exact nomatch hstep
  | push heard =>
    rw [step] at hstep
    split at hstep
    · split at hstep
      · obtain rfl := Option.some.inj hstep
        exact hr
      · obtain rfl := Option.some.inj hstep
        exact hr
    · exact nomatch hstep
  | mark | collect _ =>
    rw [step] at hstep
    split at hstep
    · rename_i i hat
      obtain rfl := Option.some.inj hstep
      exact hrun i (by rw [hat]; rfl) _
    · exact nomatch hstep
  | purge _ _ | finish _ _ =>
    rw [step] at hstep
    split at hstep
    · rename_i i hat
      split at hstep
      · obtain rfl := Option.some.inj hstep
        exact hr
      · obtain rfl := Option.some.inj hstep
        exact hrun i (by rw [hat]; rfl) _
    · exact nomatch hstep
  | raise error =>
    obtain ⟨i, -, rfl⟩ := Option.map_eq_some_iff.mp hstep
    exact hr
  | decide =>
    rw [step] at hstep
    split at hstep
    · obtain rfl := Option.some.inj hstep
      exact hr
    · exact nomatch hstep
  | fail now =>
    rw [step] at hstep
    split at hstep
    · rename_i i error final hat
      obtain rfl := Option.some.inj hstep
      have hp := h.at_phase
      rw [hat] at hp
      obtain ⟨⟨r', hmine⟩, -⟩ := hp
      exact closedKept_update h hmine _ hr hclosed
    · exact nomatch hstep
  | stop =>
    obtain rfl := Option.some.inj hstep
    exact hr

def start (groups : τ → List Text) (remote : τ → Refs γ) (commits : τ → List (Option γ)) :
    World ι τ γ where
  groups := groups
  rows := []
  remote := remote
  commits := commits
  phase := .idle
  events := []

theorem inv_start (groups : τ → List Text) (remote : τ → Refs γ) (commits : τ → List (Option γ)) :
    Inv G branch (start groups remote commits : World ι τ γ) where
  wf := Wf.nil
  order := List.Pairwise.nil
  arrived := fun _ _ hd => absurd hd List.not_mem_nil
  marked := fun _ hr => absurd hr List.not_mem_nil
  pushed_map := fun _ _ hm => absurd hm List.not_mem_nil
  at_phase := trivial

/-- **Erasures over an undisturbed run.** -/
theorem erasures_safe {groups : τ → List Text} {remote : τ → Refs γ} {commits : τ → List (Option γ)}
    {as bs : List (Action ι τ γ)} {v w : World ι τ γ}
    (hP : Runs.along (step G branch) (Undisturbed G branch) (start groups remote commits) (as ++ bs))
    (hv : Runs.exec (step G branch) (start groups remote commits) as = some v)
    (hw : Runs.exec (step G branch) v bs = some w) :
    Safe w ∧ ∀ r ∈ v.rows, r.status = .succeeded → r ∈ w.rows := by
  obtain ⟨hPas, hPbs⟩ := Runs.along_append.mp hP
  have hIv : Inv G branch v :=
    Runs.exec_invariant_along (fun _ _ _ => inv_step) (inv_start groups remote commits) hPas hv
  have hIw : Inv G branch w :=
    Runs.exec_invariant_along (fun _ _ _ => inv_step) hIv (hPbs v hv) hw
  have hkept : ClosedKept v w := by
    refine Runs.exec_stable_along (I := Inv G branch) (P := Undisturbed G branch)
      (fun _ _ hr _ => hr) (fun _ t _ hst htu r hr hclosed => htu r (hst r hr hclosed) hclosed)
      (fun _ _ _ => inv_step) (fun _ _ _ hI _ hstep => closedKept_step hI hstep) hIv (hPbs v hv) hw
  refine ⟨hIw.safe, fun r hr hdone => hkept r hr ?_⟩
  unfold Request.isOpen
  rw [hdone]
  rfl

end

/-! ## Two runs -/

/-- linear histories, newest commit first: a commit is the folder it touches -/
abbrev History := List Text

def suffixes : History → List History
  | [] => []
  | c :: h => (c :: h) :: suffixes h

def without (folder : Text) (h : History) : Option History :=
  match h.filter (· != folder) with
  | [] => none
  | kept => some kept

def filterFolder (folder : Text) (refs : Refs History) : Filtered History where
  refs := refs.entries.foldl (fun kept e => setRef e.1 (without folder e.2) kept) ∅
  commitMap := (refs.entries.flatMap fun e => suffixes e.2).dedup.map fun h =>
    (h, if h.head? = some folder then none else without folder h)
  firstChanged := []

def histories : Git History where
  isAncestor h h' := h.isSuffixOf h'
  isAncestor_refl h := List.isSuffixOf_iff_suffix.mpr (List.suffix_refl h)
  isAncestor_trans _ _ _ h h' := List.isSuffixOf_iff_suffix.mpr
    ((List.isSuffixOf_iff_suffix.mp h).trans (List.isSuffixOf_iff_suffix.mp h'))
  holds folder h := h.contains folder
  filter := filterFolder

def main : Text := "refs/heads/main".toList
def feature : Text := "refs/heads/feature".toList
def wiki : Text := "wiki/".toList

/-- the layer's folder in the knowledge branch and in a second one -/
def twoBranches : World ℕ Unit History :=
  start (fun _ => ["hr".toList])
    (fun _ => setRef feature (some [folderOf "hr".toList, wiki])
      (setRef main (some [wiki, folderOf "hr".toList, wiki]) ∅))
    fun _ => [some [wiki, folderOf "hr".toList, wiki]]

/-- a first attempt that stops between the push and `mark_pushed` -/
def stoppedAfterPush : List (Action ℕ Unit History) :=
  [.request 1 () "hr".toList "morgan".toList 0, .giveUp 0, .claim 0, .names [], .look, .mirror, .record,
    .push true, .stop]

/-- the next attempt, up to the remapped rows -/
def nextAttempt : List (Action ℕ Unit History) :=
  [.giveUp BACKOFF_CAP, .claim BACKOFF_CAP, .names [], .look]

/-- the second branch is deleted in between: the next attempt does not find its push -/
def branchDeleted : List (Action ℕ Unit History) :=
  stoppedAfterPush ++ [.move () feature none] ++ nextAttempt ++
    [.mirror, .record, .push true, .mark, .check, .purge [] []]

theorem not_erasures_safe : ∃ w, Runs.exec (step histories main) twoBranches branchDeleted = some w ∧
    w.commits () = [some [wiki, folderOf "hr".toList, wiki]] ∧ ¬Safe w := by
  have hrun : (Runs.exec (step histories main) twoBranches branchDeleted).any (fun w =>
      w.commits () == [some [wiki, folderOf "hr".toList, wiki]] &&
        !decide (w.events.Pairwise follows)) = true := by
    decide +kernel
  obtain ⟨w, hw, h⟩ := (Option.any_eq_true _ _).mp hrun
  rw [Bool.and_eq_true, beq_iff_eq, Bool.not_eq_true', decide_eq_false_iff_not] at h
  exact ⟨w, hw, h.1, fun hsafe => h.2 hsafe.order⟩

/-- the second branch stays, the knowledge branch moves on: the next attempt finds its push -/
def pushFound : List (Action ℕ Unit History) :=
  stoppedAfterPush ++ [.land () [wiki, wiki, wiki]] ++ nextAttempt ++
    [.mark, .check, .purge [] [], .collect 0, .finish 2 BACKOFF_CAP]

def askedAgain : List (Action ℕ Unit History) :=
  [.request 2 () "hr".toList "morgan".toList BACKOFF_CAP]

theorem erasures_safe_pushFound : ∃ v w,
    Runs.exec (step histories main) twoBranches pushFound = some v ∧
      Runs.exec (step histories main) v askedAgain = some w ∧
      (v.rows.any fun r => r.status == .succeeded) = true ∧
      Safe w ∧ ∀ r ∈ v.rows, r.status = .succeeded → r ∈ w.rows := by
  have hrun : (Runs.exec (step histories main) twoBranches pushFound).any (fun v =>
      (v.rows.any fun r => r.status == .succeeded) &&
        (Runs.exec (step histories main) v askedAgain).isSome) = true := by
    decide +kernel
  have hP : Runs.along (step histories main) (Undisturbed histories main) twoBranches
      (pushFound ++ askedAgain) :=
    Runs.along_of_check (p := undisturbed histories main)
      (fun _ _ => undisturbed_of_check histories main)
      (by decide +kernel)
  obtain ⟨v, hv, h⟩ := (Option.any_eq_true _ _).mp hrun
  rw [Bool.and_eq_true] at h
  obtain ⟨w, hw⟩ := Option.isSome_iff_exists.mp h.2
  exact ⟨v, w, hv, hw, h.1, erasures_safe hP hv hw⟩

end EraseLayer
