import Mathlib.Logic.Basic

/-!
# Refinement of objects that answer calls

An object is a state with a partial function from calls to a next state and an
answer; `none` stands for a call whose behaviour is undefined.  A specification
object is total.  If a relation between the two states is kept by every call and
the answers agree (`Refines`), every sequence of calls is defined and is answered
as the specification answers it (`Refines.answers`).
-/

namespace ObjectRefinement

universe u v w x

section Objects

variable {σ : Type u}
variable {τ : Type v}
variable {ι : Type w}
variable {ο : Type x}

/-- The answers to a sequence of calls, `none` once a call is undefined. -/
def answers
    (call : σ → ι → Option (σ × ο)) :
    σ → List ι → Option (List ο)
  | _, [] => some []
  | s, i :: is =>
      (call s i).bind fun r => (answers call r.1 is).map fun os => r.2 :: os

/-- The answers of an object that is defined on every call. -/
def specAnswers
    (spec : τ → ι → τ × ο) :
    τ → List ι → List ο
  | _, [] => []
  | t, i :: is => (spec t i).2 :: specAnswers spec (spec t i).1 is

/-- Related states answer a call alike and stay related. -/
def Refines
    (R : σ → τ → Prop)
    (call : σ → ι → Option (σ × ο))
    (spec : τ → ι → τ × ο) : Prop :=
  ∀ s t i, R s t → ∃ s', call s i = some (s', (spec t i).2) ∧ R s' (spec t i).1

variable {R : σ → τ → Prop}
variable {call : σ → ι → Option (σ × ο)}
variable {spec : τ → ι → τ × ο}

/-- Every sequence of calls is defined and answered as specified. -/
theorem Refines.answers
    (h : Refines R call spec)
    (is : List ι) :
    ∀ {s : σ} {t : τ}, R s t →
      ObjectRefinement.answers call s is = some (specAnswers spec t is) := by
  induction is with
  | nil =>
      intro s t hR
      rfl
  | cons i is ih =>
      intro s t hR
      obtain ⟨s', hcall, hR'⟩ := h s t i hR
      rw [ObjectRefinement.answers, hcall, Option.bind_some, ih hR']
      rfl

end Objects

end ObjectRefinement
