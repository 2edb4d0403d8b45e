import Mathlib.Logic.Function.Basic

/-!
# Mutexes and their owners

A mutex holds the name of its owner, and some places of the threads' code lie
between acquiring and releasing it.  While the owner is exactly the thread at
such a place (`Owned`), at most one thread is there (`Owned.unique`).  Acquiring
a free mutex, releasing it from inside and moving on without crossing its border
keep this relation; each thread stands at one place, so a step of one thread
changes the place of that thread only.
-/

namespace MutexOwnership

universe u v

variable {τ : Type u} [DecidableEq τ]
variable {π : Type v}

/-- A thread is between acquiring and releasing the mutex exactly when it owns it. -/
def Owned (inside : π → Prop) (owner : Option τ) (place : τ → π) : Prop :=
  ∀ t, inside (place t) ↔ owner = some t

variable {inside : π → Prop} {owner : Option τ} {place : τ → π}
variable {t : τ} {p : π}

omit [DecidableEq τ] in
theorem Owned.unique
    (h : Owned inside owner place)
    {t' : τ}
    (ht : inside (place t))
    (ht' : inside (place t')) :
    t = t' :=
  Option.some.inj (((h t).mp ht).symm.trans ((h t').mp ht'))

theorem Owned.acquire
    (h : Owned inside none place)
    (t : τ)
    (hp : inside p) :
    Owned inside (some t) (Function.update place t p) := by
  intro t'
  by_cases heq : t' = t
  · subst heq
    rw [Function.update_self]
    exact ⟨fun _ => rfl, fun _ => hp⟩
  · rw [Function.update_of_ne heq]
    constructor
    · intro hin
      cases (h t').mp hin
    · intro howner
      exact absurd (Option.some.inj howner).symm heq

theorem Owned.release
    (h : Owned inside owner place)
    (ht : inside (place t))
    (hp : ¬ inside p) :
    Owned inside none (Function.update place t p) := by
  intro t'
  by_cases heq : t' = t
  · subst heq
    rw [Function.update_self]
    exact ⟨fun hin => absurd hin hp, fun howner => nomatch howner⟩
  · rw [Function.update_of_ne heq]
    exact ⟨fun hin => absurd (h.unique hin ht) heq, fun howner => nomatch howner⟩

theorem Owned.move
    (h : Owned inside owner place)
    (hp : inside p ↔ inside (place t)) :
    Owned inside owner (Function.update place t p) := by
  intro t'
  by_cases heq : t' = t
  · subst heq
    rw [Function.update_self, hp]
    exact h t'
  · rw [Function.update_of_ne heq]
    exact h t'

end MutexOwnership
