import Mathlib.Logic.Basic

/-!
# Runs of a labelled transition system

`Reachable init step s` says that `s` is reached from a state satisfying `init`
by any number of labelled steps.  An invariant is proved from its initial case
and its preservation by one step (`Reachable.invariant`).  A condition on the
state before each step restricts the runs (`Guarded`); a system with fewer
steps reaches fewer states (`Reachable.mono`).
-/

namespace LabelledRuns

universe u v w x

section Runs

variable {σ : Type u}
variable {α : Type v}

/-- The states a run can reach. -/
inductive Reachable
    (init : σ → Prop)
    (step : σ → α → σ → Prop) :
    σ → Prop
  | start
      {s : σ}
      (h : init s) :
      Reachable init step s
  | next
      {s s' : σ}
      {a : α}
      (run : Reachable init step s)
      (h : step s a s') :
      Reachable init step s'

/-- The steps that meet a condition on the state before them and their label. -/
def Guarded
    (guard : σ → α → Prop)
    (step : σ → α → σ → Prop)
    (s : σ) (a : α) (s' : σ) : Prop :=
  guard s a ∧ step s a s'

variable {init : σ → Prop}
variable {step : σ → α → σ → Prop}

/-- What holds initially and is preserved by every step holds along every run. -/
theorem Reachable.invariant
    {Inv : σ → Prop}
    (hinit : ∀ s, init s → Inv s)
    (hstep : ∀ s a s', Inv s → step s a s' → Inv s')
    {s : σ}
    (h : Reachable init step s) :
    Inv s := by
  induction h with
  | start h =>
      exact hinit _ h
  | next run h ih =>
      exact hstep _ _ _ ih h

/-- A run is a run of every system with the same start and more steps. -/
theorem Reachable.mono
    {step' : σ → α → σ → Prop}
    (hstep : ∀ s a s', step s a s' → step' s a s')
    {s : σ}
    (h : Reachable init step s) :
    Reachable init step' s := by
  induction h with
  | start h =>
      exact .start h
  | next run h ih =>
      exact .next ih (hstep _ _ _ h)

/-- A guarded run goes on with every step that meets the guard. -/
theorem Reachable.next_guarded
    {guard : σ → α → Prop}
    {s s' : σ}
    {a : α}
    (run : Reachable init (Guarded guard step) s)
    (h : step s a s')
    (hguard : guard s a) :
    Reachable init (Guarded guard step) s' :=
  .next run ⟨hguard, h⟩

/-- A property that no step can establish held along the whole run to a state that has it. -/
theorem Reachable.guarded_of_final
    {guard : σ → α → Prop}
    {P : σ → Prop}
    (hback : ∀ s a s', step s a s' → P s' → P s)
    {s : σ}
    (h : Reachable init (Guarded guard step) s)
    (hs : P s) :
    Reachable init (Guarded (fun s a => P s ∧ guard s a) step) s := by
  induction h with
  | start h =>
      exact .start h
  | next run h ih =>
      have hbefore := hback _ _ _ h.2 hs
      exact (ih hbefore).next_guarded h.2 ⟨hbefore, h.1⟩

/-- A sequence of possible actions leads from a reachable state to a reachable one. -/
theorem Reachable.of_foldlM
    {act : σ → α → Option σ}
    (hact : ∀ s a s', act s a = some s' → step s a s')
    {as : List α} :
    ∀ {s s' : σ}, Reachable init step s → as.foldlM act s = some s' →
      Reachable init step s' := by
  induction as with
  | nil =>
      intro s s' hs h
      obtain rfl := Option.some.inj h
      exact hs
  | cons a as ih =>
      intro s s' hs h
      rw [List.foldlM_cons] at h
      obtain ⟨s₁, hfirst, hrest⟩ := Option.bind_eq_some_iff.mp h
      exact ih (.next hs (hact s a s₁ hfirst)) hrest

end Runs

end LabelledRuns
