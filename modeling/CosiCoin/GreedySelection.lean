import Mathlib.Data.List.Pairwise
import Mathlib.Tactic.SplitIfs

/-!
# Greedy selection from a list

`select ok compatible taken pool` goes through `pool` once and keeps every
element that is acceptable by itself and compatible with everything kept so far,
beginning with `taken`.  What is kept is acceptable (`mem_select`) and pairwise
compatible (`select_pairwise`).

`keptPositions` are the positions of the pool at which an element is kept.  They
increase, and an element at any other position is not acceptable or incompatible
with something kept before it (`rejected_of_notMem_keptPositions`): the selection
is maximal.
-/

namespace GreedySelection

universe u

section Select

variable {α : Type u}

/-- Keep what is acceptable and compatible with everything kept before. -/
def select
    (ok : α → Bool)
    (compatible : α → α → Bool) :
    List α → List α → List α
  | taken, [] => taken
  | taken, a :: pool =>
      if ok a && taken.all (fun t => compatible t a) then
        select ok compatible (taken ++ [a]) pool
      else
        select ok compatible taken pool

variable {ok : α → Bool}
variable {compatible : α → α → Bool}

/-- Everything kept was there before or is an acceptable element of the pool. -/
theorem mem_select
    {a : α}
    {pool : List α} :
    ∀ {taken : List α}, a ∈ select ok compatible taken pool →
      a ∈ taken ∨ (a ∈ pool ∧ ok a = true) := by
  induction pool with
  | nil =>
      intro taken h
      exact Or.inl h
  | cons b pool ih =>
      intro taken h
      unfold select at h
      split_ifs at h with hb
      · rw [Bool.and_eq_true] at hb
        rcases ih h with hmem | ⟨hmem, hok⟩
        · rcases List.mem_append.mp hmem with hold | hnew
          · exact Or.inl hold
          · rw [List.mem_singleton.mp hnew]
            exact Or.inr ⟨List.mem_cons_self, hb.1⟩
        · exact Or.inr ⟨List.mem_cons_of_mem _ hmem, hok⟩
      · rcases ih h with hmem | ⟨hmem, hok⟩
        · exact Or.inl hmem
        · exact Or.inr ⟨List.mem_cons_of_mem _ hmem, hok⟩

/-- An element that is kept is compatible with everything kept after it. -/
theorem select_pairwise
    {pool : List α} :
    ∀ {taken : List α}, taken.Pairwise (fun a b => compatible a b = true) →
      (select ok compatible taken pool).Pairwise fun a b => compatible a b = true := by
  induction pool with
  | nil =>
      intro taken h
      exact h
  | cons b pool ih =>
      intro taken h
      unfold select
      split_ifs with hb
      · rw [Bool.and_eq_true] at hb
        apply ih
        rw [List.pairwise_append]
        refine ⟨h, List.pairwise_singleton _ b, ?_⟩
        intro a ha c hc
        rw [List.mem_singleton.mp hc]
        exact List.all_eq_true.mp hb.2 a ha
      · exact ih h

/-- What is kept stands in the order of the pool, after what was there before. -/
theorem select_sublist
    {pool : List α} :
    ∀ {taken : List α}, (select ok compatible taken pool).Sublist (taken ++ pool) := by
  induction pool with
  | nil =>
      intro taken
      simp [select]
  | cons b pool ih =>
      intro taken
      unfold select
      split_ifs
      · rw [List.append_cons taken b pool]
        exact ih
      · exact ih.trans ((List.sublist_cons_self b pool).append_left taken)

end Select

section Positions

variable {α : Type u}

/-- The positions of the pool at which `select` keeps the element. -/
def keptPositions
    (ok : α → Bool)
    (compatible : α → α → Bool) :
    List α → List α → List Nat
  | _, [] => []
  | taken, a :: pool =>
      if ok a && taken.all (fun t => compatible t a) then
        0 :: (keptPositions ok compatible (taken ++ [a]) pool).map Nat.succ
      else
        (keptPositions ok compatible taken pool).map Nat.succ

variable {ok : α → Bool}
variable {compatible : α → α → Bool}

/-- The elements at the later positions of a pool, after the first one. -/
theorem filterMap_map_succ
    (a : α)
    (pool : List α)
    (positions : List Nat) :
    (positions.map Nat.succ).filterMap (fun i => (a :: pool)[i]?) =
      positions.filterMap fun i => pool[i]? := by
  rw [List.filterMap_map]
  rfl

theorem select_eq_append
    {pool : List α} :
    ∀ {taken : List α}, select ok compatible taken pool =
      taken ++ (keptPositions ok compatible taken pool).filterMap fun i => pool[i]? := by
  induction pool with
  | nil =>
      intro taken
      simp [select]
  | cons a pool ih =>
      intro taken
      unfold select keptPositions
      split_ifs with ha
      · have hhead : (a :: pool)[0]? = some a := rfl
        rw [ih, List.filterMap_cons_some hhead, filterMap_map_succ, List.append_assoc,
          List.singleton_append]
      · rw [ih, filterMap_map_succ]

theorem keptPositions_pairwise
    {pool : List α} :
    ∀ {taken : List α}, (keptPositions ok compatible taken pool).Pairwise (· < ·) := by
  induction pool with
  | nil =>
      intro taken
      exact List.Pairwise.nil
  | cons a pool ih =>
      intro taken
      have hshift : ∀ {l : List Nat}, l.Pairwise (· < ·) → (l.map Nat.succ).Pairwise (· < ·) :=
        fun hl => hl.map _ fun _ _ => Nat.succ_lt_succ
      unfold keptPositions
      split_ifs
      · refine List.pairwise_cons.mpr ⟨?_, hshift ih⟩
        intro i hi
        obtain ⟨j, _, rfl⟩ := List.mem_map.mp hi
        exact Nat.succ_pos j
      · exact hshift ih

theorem lt_length_of_mem_keptPositions
    {pool : List α} :
    ∀ {taken : List α} {i : Nat}, i ∈ keptPositions ok compatible taken pool →
      i < pool.length := by
  induction pool with
  | nil =>
      intro taken i hi
      cases hi
  | cons a pool ih =>
      intro taken i hi
      unfold keptPositions at hi
      split_ifs at hi
      · rcases List.mem_cons.mp hi with rfl | hi
        · exact Nat.succ_pos _
        · obtain ⟨j, hj, rfl⟩ := List.mem_map.mp hi
          exact Nat.succ_lt_succ (ih hj)
      · obtain ⟨j, hj, rfl⟩ := List.mem_map.mp hi
        exact Nat.succ_lt_succ (ih hj)

/--
An element that is left out is not acceptable, or incompatible with an element
taken before the pool or kept at an earlier position of it.
-/
theorem rejected_of_notMem_keptPositions
    {pool : List α} :
    ∀ {taken : List α} {i : Nat} {a : α}, pool[i]? = some a →
      i ∉ keptPositions ok compatible taken pool →
      ok a = false ∨ (∃ t ∈ taken, compatible t a = false) ∨
        ∃ j ∈ keptPositions ok compatible taken pool, j < i ∧
          ∃ t, pool[j]? = some t ∧ compatible t a = false := by
  induction pool with
  | nil =>
      intro taken i a ha
      simp at ha
  | cons b pool ih =>
      intro taken i a ha hi
      unfold keptPositions at hi ⊢
      split_ifs at hi ⊢ with hb
      · cases i with
        | zero =>
            exact absurd List.mem_cons_self hi
        | succ i =>
            have hi' : i ∉ keptPositions ok compatible (taken ++ [b]) pool := by
              intro hmem
              exact hi (List.mem_cons_of_mem _ (List.mem_map_of_mem hmem))
            rcases ih ha hi' with hnot | ⟨t, ht, hta⟩ | ⟨j, hj, hji, t, ht, hta⟩
            · exact Or.inl hnot
            · rcases List.mem_append.mp ht with hold | hnew
              · exact Or.inr (Or.inl ⟨t, hold, hta⟩)
              · rw [List.mem_singleton.mp hnew] at hta
                exact Or.inr (Or.inr ⟨0, List.mem_cons_self, Nat.succ_pos i, b, rfl, hta⟩)
            · refine Or.inr (Or.inr ⟨j + 1, ?_, Nat.succ_lt_succ hji, t, ht, hta⟩)
              exact List.mem_cons_of_mem _ (List.mem_map_of_mem hj)
      · cases i with
        | zero =>
            obtain rfl : b = a := Option.some.inj ha
            rw [Bool.and_eq_true, not_and_or, Bool.not_eq_true, Bool.not_eq_true,
              List.all_eq_false] at hb
            rcases hb with hnot | ⟨t, ht, hta⟩
            · exact Or.inl hnot
            · exact Or.inr (Or.inl ⟨t, ht, by simpa using hta⟩)
        | succ i =>
            have hi' : i ∉ keptPositions ok compatible taken pool := by
              intro hmem
              exact hi (List.mem_map_of_mem hmem)
            rcases ih ha hi' with hnot | htaken | ⟨j, hj, hji, t, ht, hta⟩
            · exact Or.inl hnot
            · exact Or.inr (Or.inl htaken)
            · refine Or.inr (Or.inr ⟨j + 1, ?_, Nat.succ_lt_succ hji, t, ht, hta⟩)
              exact List.mem_map_of_mem hj

end Positions

end GreedySelection
