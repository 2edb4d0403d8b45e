import Mathlib.Data.List.Infix

/-!
# Logs in which every entry has a cause

A log is a list of entries, newest first.  `Causal rule log` says that every
entry `e` satisfies `rule e earlier`, where `earlier` is the part of the log
before it.  A rule is read off an entry with its earlier part (`Causal.cause`),
and the first entry with a property is found with an earlier part that has no
such entry (`exists_first`), which replaces an induction over the log.
-/

namespace CausalLog

universe u

section Logs

variable {α : Type u}

/-- Every entry of the log satisfies the rule with the entries before it. -/
def Causal (rule : α → List α → Prop) : List α → Prop
  | [] => True
  | e :: earlier => rule e earlier ∧ Causal rule earlier

variable {rule : α → List α → Prop}

theorem Causal.of_append
    {later log : List α}
    (h : Causal rule (later ++ log)) :
    Causal rule log := by
  induction later with
  | nil =>
      exact h
  | cons e later ih =>
      exact ih h.2

/-- The rule of an entry, at its place in the log. -/
theorem Causal.cause
    {later earlier : List α} {e : α}
    (h : Causal rule (later ++ e :: earlier)) :
    rule e earlier :=
  h.of_append.1

/-- An entry of the log with its place. -/
theorem Causal.exists_of_mem
    {log : List α} {e : α}
    (h : Causal rule log)
    (he : e ∈ log) :
    ∃ later earlier, log = later ++ e :: earlier ∧ rule e earlier := by
  obtain ⟨later, earlier, rfl⟩ := List.append_of_mem he
  exact ⟨later, earlier, rfl, h.cause⟩

/-- The first entry with a property has no such entry before it. -/
theorem exists_first
    {p : α → Prop} {log : List α}
    (h : ∃ e ∈ log, p e) :
    ∃ later e earlier, log = later ++ e :: earlier ∧ p e ∧ ∀ x ∈ earlier, ¬ p x := by
  classical
  induction log with
  | nil =>
      obtain ⟨e, he, _⟩ := h
      cases he
  | cons a log ih =>
      by_cases hin : ∃ e ∈ log, p e
      · obtain ⟨later, e, earlier, rfl, hp, hno⟩ := ih hin
        exact ⟨a :: later, e, earlier, rfl, hp, hno⟩
      · obtain ⟨e, he, hp⟩ := h
        have hea : e = a := by
          rcases List.mem_cons.mp he with hea | hlog
          · exact hea
          · exact absurd ⟨e, hlog, hp⟩ hin
        subst hea
        exact ⟨[], e, log, rfl, hp, fun x hx hpx => hin ⟨x, hx, hpx⟩⟩

end Logs

end CausalLog
