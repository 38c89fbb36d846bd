import Mathlib

/-!
# Library/Runs — runs of a partial step function, and what holds along them

A machine is a step function `σ → ε → Option σ`: the state an event leads to, or `none` when the
event does not complete.  A run is a list of events.  Three ways of speaking about a run:

* `run` — the state it ends in;
* `Guarded` — every completed step meets a condition on the state it starts from;
* `Along` — every state it visits has a property.

`run_invariant` and `run_guarded` are the two induction rules, `along_iff_guarded` says when the
steps of a run decide what holds along it, and `withGhost` adds history to a machine.
-/

namespace Runs

variable {σ ε γ : Type*}

/-- The state a list of events leads to. -/
def run (step : σ → ε → Option σ) : σ → List ε → Option σ
  | s, [] => some s
  | s, e :: es => (step s e).bind fun s' => run step s' es

/-- Every completed step of the run starts from a state that meets the condition `G`. -/
def Guarded (step : σ → ε → Option σ) (G : σ → ε → Prop) : σ → List ε → Prop
  | _, [] => True
  | s, e :: es => ∀ s', step s e = some s' → G s e ∧ Guarded step G s' es

/-- `P` holds of every state the run visits, the first one included. -/
def Along (step : σ → ε → Option σ) (P : σ → Prop) : σ → List ε → Prop
  | s, [] => P s
  | s, e :: es => P s ∧ ∀ s', step s e = some s' → Along step P s' es

variable {step : σ → ε → Option σ} {G : σ → ε → Prop} {I P : σ → Prop}

theorem run_cons (s : σ) (e : ε) (es : List ε) :
    run step s (e :: es) = (step s e).bind fun s' => run step s' es := rfl

/-- The first step of a completed run, and the run after it. -/
theorem run_cons_eq_some {s s'' : σ} {e : ε} {es : List ε} :
    run step s (e :: es) = some s'' ↔ ∃ s', step s e = some s' ∧ run step s' es = some s'' := by
  rw [run_cons, Option.bind_eq_some_iff]

/-! ## Induction along a run -/

/-- **What every step preserves, every run preserves.** -/
theorem run_invariant (hstep : ∀ s e s', I s → step s e = some s' → I s') {s s'' : σ}
    {es : List ε} (hs : I s) (h : run step s es = some s'') : I s'' := by
  induction es generalizing s with
  | nil => exact Option.some.inj h ▸ hs
  | cons e es ih =>
    obtain ⟨s', hs', h'⟩ := run_cons_eq_some.mp h
    exact ih (hstep s e s' hs hs') h'

/-- **A run seen from a part of the state.**  Events that the part does not take part in leave it
alone, and the others are events of its own machine. -/
theorem run_filterMap {τ δ : Type*} {step' : τ → δ → Option τ} (view : σ → τ) (f : ε → Option δ)
    (hstep : ∀ s e s', step s e = some s' →
      (f e).elim (view s' = view s) fun d => step' (view s) d = some (view s'))
    {s s'' : σ} {es : List ε} (h : run step s es = some s'') :
    run step' (view s) (es.filterMap f) = some (view s'') := by
  induction es generalizing s with
  | nil => exact congrArg (some ∘ view) (Option.some.inj h)
  | cons e es ih =>
    obtain ⟨s', hs', h'⟩ := run_cons_eq_some.mp h
    have hview := hstep s e s' hs'
    cases hf : f e with
    | none =>
      rw [hf, Option.elim_none] at hview
      rw [List.filterMap_cons_none hf, ← hview]
      exact ih h'
    | some d =>
      rw [hf, Option.elim_some] at hview
      rw [List.filterMap_cons_some hf]
      exact run_cons_eq_some.mpr ⟨view s', hview, ih h'⟩

/-- **What every step meeting `G` preserves, every run of such steps preserves.** -/
theorem run_guarded (hstep : ∀ s e s', I s → G s e → step s e = some s' → I s') {s s'' : σ}
    {es : List ε} (hs : I s) (hg : Guarded step G s es) (h : run step s es = some s'') : I s'' := by
  induction es generalizing s with
  | nil => exact Option.some.inj h ▸ hs
  | cons e es ih =>
    obtain ⟨s', hs', h'⟩ := run_cons_eq_some.mp h
    obtain ⟨he, hes⟩ := hg s' hs'
    exact ih (hstep s e s' hs he hs') hes h'

/-- A run of events that meet `G` in every state. -/
theorem guarded_of_forall {es : List ε} (h : ∀ e ∈ es, ∀ s, G s e) (s : σ) :
    Guarded step G s es := by
  induction es generalizing s with
  | nil => trivial
  | cons e es ih =>
    obtain ⟨he, hes⟩ := List.forall_mem_cons.mp h
    exact fun s' _ => ⟨he s, ih hes s'⟩

/-- The condition `G` checked step by step, for runs on concrete inputs. -/
def check (step : σ → ε → Option σ) (G : σ → ε → Prop) [∀ s e, Decidable (G s e)] :
    σ → List ε → Bool
  | _, [] => true
  | s, e :: es => (step s e).all fun s' => decide (G s e) && check step G s' es

theorem guarded_of_check [∀ s e, Decidable (G s e)] {s : σ} {es : List ε}
    (h : check step G s es = true) : Guarded step G s es := by
  induction es generalizing s with
  | nil => trivial
  | cons e es ih =>
    intro s' hs'
    rw [check, hs', Option.all_some, Bool.and_eq_true, decide_eq_true_eq] at h
    exact ⟨h.1, ih h.2⟩

/-- **When the steps decide.**  If, among the states of an invariant, a step keeps `P` exactly when
it meets `G`, then `P` holds along a run exactly when every step of the run meets `G`. -/
theorem along_iff_guarded (hinv : ∀ s e s', I s → step s e = some s' → I s')
    (hiff : ∀ s e s', I s → P s → step s e = some s' → (P s' ↔ G s e)) {s : σ} (hs : I s)
    (hp : P s) (es : List ε) : Along step P s es ↔ Guarded step G s es := by
  induction es generalizing s with
  | nil => exact iff_of_true hp trivial
  | cons e es ih =>
    refine ⟨fun h s' hs' => ?_, fun h => ⟨hp, fun s' hs' => ?_⟩⟩
    · have hP : P s' := by
        have := h.2 s' hs'
        cases es with
        | nil => exact this
        | cons _ _ => exact this.1
      exact ⟨(hiff s e s' hs hp hs').mp hP, (ih (hinv s e s' hs hs') hP).mp (h.2 s' hs')⟩
    · obtain ⟨hG, hes⟩ := h s' hs'
      exact (ih (hinv s e s' hs hs') ((hiff s e s' hs hp hs').mpr hG)).mpr hes

/-- Two conditions that agree in the states of an invariant guard the same runs from there. -/
theorem guarded_congr {G' : σ → ε → Prop} (hinv : ∀ s e s', I s → step s e = some s' → I s')
    (hiff : ∀ s e, I s → (G s e ↔ G' s e)) {s : σ} (hs : I s) (es : List ε) :
    Guarded step G s es ↔ Guarded step G' s es := by
  induction es generalizing s with
  | nil => exact Iff.rfl
  | cons e es ih =>
    refine forall_congr' fun s' => ?_
    refine imp_congr_right fun hs' => ?_
    exact and_congr (hiff s e hs) (ih (hinv s e s' hs hs'))

/-! ## History

A ghost is a value the machine does not read: `upd` computes the next one from the step taken. -/

/-- The machine with a history beside its state. -/
def withGhost (step : σ → ε → Option σ) (upd : σ → ε → σ → γ → γ) :
    σ × γ → ε → Option (σ × γ)
  | (s, g), e => (step s e).map fun s' => (s', upd s e s' g)

theorem withGhost_eq_some {upd : σ → ε → σ → γ → γ} {s s' : σ} {g g' : γ} {e : ε} :
    withGhost step upd (s, g) e = some (s', g') ↔ step s e = some s' ∧ g' = upd s e s' g := by
  constructor
  · intro h
    obtain ⟨a, ha, hag⟩ := Option.map_eq_some_iff.mp h
    obtain ⟨rfl, rfl⟩ := Prod.mk.inj hag
    exact ⟨ha, rfl⟩
  · rintro ⟨h, rfl⟩
    exact Option.map_eq_some_iff.mpr ⟨s', h, rfl⟩

end Runs
