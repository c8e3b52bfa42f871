import Mathlib.Data.List.Basic

/-!
# Runs of a partial step function

A system is a function `step : σ → α → Option σ`: the state after an action, or nothing when the
action is not enabled.  A run is a list of actions that are enabled one after the other.

* `exec step s as`      the state a run reaches;
* `exec_invariant`      what every action preserves holds in every state reached;
* `along step P s as`   every action of the run meets the condition `P` where it is taken;
* `exec_invariant_along`  what every action that meets `P` preserves holds in every state a run
                        along `P` reaches;
* `along_append`        a run along `P` cut in two;
* `exec_history`        what every action preserves of a state and the actions so far holds of a run;
* `exec_stable`         a relation to the start state that every action preserves;
* `exec_stable_along`   one that every action that meets `P` preserves;
* `Since P Q as`        some action met `P`, and every later one `Q`.
-/

namespace Runs

section
variable {σ α : Type*} (step : σ → α → Option σ)

def exec : σ → List α → Option σ
  | s, [] => some s
  | s, a :: as => (step s a).bind fun t => exec t as

theorem exec_nil (s : σ) : exec step s [] = some s := rfl

theorem exec_cons (s : σ) (a : α) (as : List α) :
    exec step s (a :: as) = (step s a).bind fun t => exec step t as := rfl

theorem exec_cons_eq_some {s u : σ} {a : α} {as : List α} :
    exec step s (a :: as) = some u ↔ ∃ t, step s a = some t ∧ exec step t as = some u := by
  rw [exec_cons, Option.bind_eq_some_iff]

theorem exec_append (s : σ) (as bs : List α) :
    exec step s (as ++ bs) = (exec step s as).bind fun t => exec step t bs := by
  induction as generalizing s with
  | nil => rfl
  | cons a as ih =>
    rw [List.cons_append, exec_cons, exec_cons, Option.bind_assoc]
    congr 1
    funext t
    exact ih t

theorem exec_append_eq_some {s u : σ} {as bs : List α} :
    exec step s (as ++ bs) = some u ↔ ∃ t, exec step s as = some t ∧ exec step t bs = some u := by
  rw [exec_append, Option.bind_eq_some_iff]

variable {step}

theorem exec_invariant {I : σ → Prop} (hI : ∀ s a t, I s → step s a = some t → I t)
    {s t : σ} {as : List α} (hs : I s) (h : exec step s as = some t) : I t := by
  induction as generalizing s with
  | nil =>
    obtain rfl : s = t := Option.some.inj h
    exact hs
  | cons a as ih =>
    obtain ⟨u, hu, hut⟩ := (exec_cons_eq_some step).mp h
    exact ih (hI s a u hs hu) hut

variable (step) in
/-- every action of the run meets `P` in the state where it is taken -/
def along (P : σ → α → Prop) : σ → List α → Prop
  | _, [] => True
  | s, a :: as => P s a ∧ ∀ t, step s a = some t → along P t as

theorem exec_invariant_along {I : σ → Prop} {P : σ → α → Prop}
    (hI : ∀ s a t, I s → P s a → step s a = some t → I t)
    {s t : σ} {as : List α} (hs : I s) (hP : along step P s as) (h : exec step s as = some t) :
    I t := by
  induction as generalizing s with
  | nil =>
    obtain rfl : s = t := Option.some.inj h
    exact hs
  | cons a as ih =>
    obtain ⟨u, hu, hut⟩ := (exec_cons_eq_some step).mp h
    exact ih (hI s a u hs hP.1 hu) (hP.2 u hu) hut

theorem along_of_forall {P : σ → α → Prop} {s : σ} {as : List α} (h : ∀ a ∈ as, ∀ s, P s a) : along step P s as := by
  induction as generalizing s with
  | nil => trivial
  | cons a as ih =>
    exact ⟨h a List.mem_cons_self s, fun t _ => ih fun b hb => h b (List.mem_cons_of_mem a hb)⟩

variable (step) in
/-- `along` for a condition that computes -/
def alongCheck (p : σ → α → Bool) : σ → List α → Bool
  | _, [] => true
  | s, a :: as => p s a && (step s a).all fun t => alongCheck p t as

theorem along_of_check {p : σ → α → Bool} {P : σ → α → Prop} (hp : ∀ s a, p s a = true → P s a)
    {s : σ} {as : List α} (h : alongCheck step p s as = true) : along step P s as := by
  induction as generalizing s with
  | nil => trivial
  | cons a as ih =>
    unfold alongCheck at h
    rw [Bool.and_eq_true] at h
    refine ⟨hp s a h.1, fun t ht => ih ?_⟩
    have hall := h.2
    rw [ht] at hall
    exact hall

/-- an invariant of the actions so far and the state they led to -/
theorem exec_history {I : List α → σ → Prop} {s : σ} (hs : I [] s)
    (hI : ∀ as t a u, I as t → step t a = some u → I (as ++ [a]) u) {as : List α} {t : σ}
    (h : exec step s as = some t) : I as t := by
  have hrun : ∀ (as bs : List α) (t u : σ), I bs t → exec step t as = some u → I (bs ++ as) u := by
    intro as
    induction as with
    | nil =>
      intro bs t u hb hu
      obtain rfl : t = u := Option.some.inj hu
      rw [List.append_nil]
      exact hb
    | cons a as ih =>
      intro bs t u hb hu
      obtain ⟨v, hv, hvu⟩ := (exec_cons_eq_some step).mp hu
      have hstep := ih (bs ++ [a]) v u (hI bs t a v hb hv) hvu
      rw [List.append_assoc] at hstep
      exact hstep
  exact hrun as [] s t hs h

/-- a reflexive and transitive relation that holds over every action holds over every run; the
invariant `I` may be used at each action -/
theorem exec_stable {I : σ → Prop} {R : σ → σ → Prop} (hrefl : ∀ s, R s s)
    (htrans : ∀ s t u, R s t → R t u → R s u)
    (hI : ∀ s a t, I s → step s a = some t → I t)
    (hR : ∀ s a t, I s → step s a = some t → R s t)
    {s t : σ} {as : List α} (hs : I s) (h : exec step s as = some t) : R s t := by
  induction as generalizing s with
  | nil =>
    obtain rfl : s = t := Option.some.inj h
    exact hrefl s
  | cons a as ih =>
    obtain ⟨u, hu, hut⟩ := (exec_cons_eq_some step).mp h
    exact htrans s u t (hR s a u hs hu) (ih (hI s a u hs hu) hut)

theorem along_append {P : σ → α → Prop} {s : σ} {as bs : List α} :
    along step P s (as ++ bs) ↔
      along step P s as ∧ ∀ t, exec step s as = some t → along step P t bs := by
  induction as generalizing s with
  | nil =>
    refine ⟨fun h => ⟨trivial, fun t ht => ?_⟩, fun h => h.2 s rfl⟩
    obtain rfl : s = t := Option.some.inj ht
    exact h
  | cons a as ih =>
    constructor
    · intro h
      refine ⟨⟨h.1, fun u hu => (ih.mp (h.2 u hu)).1⟩, fun t ht => ?_⟩
      obtain ⟨u, hu, hut⟩ := (exec_cons_eq_some step).mp ht
      exact (ih.mp (h.2 u hu)).2 t hut
    · intro h
      exact ⟨h.1.1, fun u hu => ih.mpr
        ⟨h.1.2 u hu, fun t ht => h.2 t ((exec_cons_eq_some step).mpr ⟨u, hu, ht⟩)⟩⟩

theorem exec_stable_along {I : σ → Prop} {R : σ → σ → Prop} {P : σ → α → Prop} (hrefl : ∀ s, R s s)
    (htrans : ∀ s t u, R s t → R t u → R s u)
    (hI : ∀ s a t, I s → P s a → step s a = some t → I t)
    (hR : ∀ s a t, I s → P s a → step s a = some t → R s t)
    {s t : σ} {as : List α} (hs : I s) (hP : along step P s as) (h : exec step s as = some t) :
    R s t := by
  induction as generalizing s with
  | nil =>
    obtain rfl : s = t := Option.some.inj h
    exact hrefl s
  | cons a as ih =>
    obtain ⟨u, hu, hut⟩ := (exec_cons_eq_some step).mp h
    exact htrans s u t (hR s a u hs hP.1 hu) (ih (hI s a u hs hP.1 hu) (hP.2 u hu) hut)

end

section
variable {α : Type*} {P : List α → α → Prop} {Q : α → Prop} {as : List α} {a : α}

/-- an action that met `P` after the actions before it, and every later one meets `Q` -/
def Since (P : List α → α → Prop) (Q : α → Prop) (as : List α) : Prop :=
  ∃ bs a cs, as = bs ++ a :: cs ∧ P bs a ∧ ∀ c ∈ cs, Q c

theorem Since.now (h : P as a) : Since P Q (as ++ [a]) :=
  ⟨as, a, [], rfl, h, fun _ hc => absurd hc List.not_mem_nil⟩

theorem Since.snoc (h : Since P Q as) (ha : Q a) : Since P Q (as ++ [a]) := by
  obtain ⟨bs, b, cs, rfl, hb, hcs⟩ := h
  refine ⟨bs, b, cs ++ [a], by rw [List.append_assoc, List.cons_append], hb, fun c hc => ?_⟩
  rcases List.mem_append.mp hc with hc | hc
  · exact hcs c hc
  · rw [List.mem_singleton.mp hc]
    exact ha

end

end Runs
