import Mathlib.Data.List.Basic

/-!
# Merkle trees over lists

The root of a list of leaves under a function `combine` of two children.  A
single leaf is its own root; otherwise adjacent leaves are combined, a last one
without a partner with itself, and the root is that of the level above.

`combinedPairs` are the pairs that are combined on the way to the root.  When
`combine` tells the pairs of two lists of the same length apart, their roots
determine the leaves (`root_inj`).  Without the same length they do not: the
lists `[a, b, c]` and `[a, b, c, c]` always have the same root.
-/

namespace MerkleTrees

universe u

section Levels

variable {α : Type u}

/-- The level above: adjacent elements are combined, an odd last one with itself. -/
def level (combine : α → α → α) : List α → List α
  | [] => []
  | [a] => [combine a a]
  | a :: b :: rest => combine a b :: level combine rest

/-- The pairs that are combined to the level above. -/
def levelPairs : List α → List (α × α)
  | [] => []
  | [a] => [(a, a)]
  | a :: b :: rest => (a, b) :: levelPairs rest

variable {combine : α → α → α}

theorem length_level
    (l : List α) :
    (level combine l).length = (l.length + 1) / 2 := by
  induction l using level.induct with
  | case1 =>
      simp [level]
  | case2 a =>
      simp [level]
  | case3 a b rest ih =>
      simp only [level, List.length_cons, ih]
      omega

theorem length_level_lt
    {l : List α}
    (h : 1 < l.length) :
    (level combine l).length < l.length := by
  rw [length_level]
  omega

theorem mem_of_mem_levelPairs
    {l : List α} {p : α × α}
    (h : p ∈ levelPairs l) :
    p.1 ∈ l ∧ p.2 ∈ l := by
  induction l using level.induct with
  | case1 =>
      simp [levelPairs] at h
  | case2 a =>
      obtain rfl : p = (a, a) := by simpa [levelPairs] using h
      simp
  | case3 a b rest ih =>
      rw [levelPairs, List.mem_cons] at h
      rcases h with rfl | h
      · simp
      · exact ⟨by simp [(ih h).1], by simp [(ih h).2]⟩

theorem exists_eq_combine_of_mem_level
    {l : List α} {c : α}
    (h : c ∈ level combine l) :
    ∃ a b, c = combine a b := by
  induction l using level.induct with
  | case1 =>
      simp [level] at h
  | case2 a =>
      exact ⟨a, a, by simpa [level] using h⟩
  | case3 a b rest ih =>
      rw [level, List.mem_cons] at h
      rcases h with rfl | h
      · exact ⟨a, b, rfl⟩
      · exact ih h

/-- Levels of the same width are equal only if what they are combined from is. -/
theorem level_inj
    {l l' : List α}
    (hlen : l.length = l'.length)
    (hinj : ∀ p ∈ levelPairs l, ∀ q ∈ levelPairs l', combine p.1 p.2 = combine q.1 q.2 → p = q)
    (h : level combine l = level combine l') :
    l = l' := by
  induction l using level.induct generalizing l' with
  | case1 =>
      exact (List.length_eq_zero_iff.mp hlen.symm).symm
  | case2 a =>
      obtain ⟨b, rfl⟩ := List.length_eq_one_iff.mp hlen.symm
      have hpair := hinj (a, a) (List.mem_singleton.mpr rfl) (b, b) (List.mem_singleton.mpr rfl)
        (List.head_eq_of_cons_eq h)
      rw [(Prod.mk.inj hpair).1]
  | case3 a b rest ih =>
      match l', hlen, hinj, h with
      | c :: d :: rest', hlen, hinj, h =>
          obtain ⟨hhead, htail⟩ := List.cons.inj h
          have hpair := hinj (a, b) List.mem_cons_self (c, d) List.mem_cons_self hhead
          obtain ⟨rfl, rfl⟩ := Prod.mk.inj hpair
          rw [ih (by simpa using hlen) ?_ htail]
          intro p hp q hq
          exact hinj p (List.mem_cons_of_mem _ hp) q (List.mem_cons_of_mem _ hq)

end Levels

section Roots

variable {α : Type u}

/-- The root of a list of leaves, if there is a leaf. -/
def root (combine : α → α → α) : List α → Option α
  | [] => none
  | [a] => some a
  | a :: b :: rest => root combine (level combine (a :: b :: rest))
termination_by l => l.length
decreasing_by exact length_level_lt (by simp)

/-- All pairs that are combined on the way to the root. -/
def combinedPairs (combine : α → α → α) : List α → List (α × α)
  | [] => []
  | [_] => []
  | a :: b :: rest =>
      levelPairs (a :: b :: rest) ++ combinedPairs combine (level combine (a :: b :: rest))
termination_by l => l.length
decreasing_by exact length_level_lt (by simp)

variable {combine : α → α → α}

/-- Above the leaves the root is that of the next level. -/
theorem root_of_one_lt
    {l : List α}
    (h : 1 < l.length) :
    root combine l = root combine (level combine l) := by
  match l, h with
  | a :: b :: rest, _ => rw [root]

theorem combinedPairs_of_one_lt
    {l : List α}
    (h : 1 < l.length) :
    combinedPairs combine l = levelPairs l ++ combinedPairs combine (level combine l) := by
  match l, h with
  | a :: b :: rest, _ => rw [combinedPairs]

/-- What the leaves have and `combine` makes, all combined elements have. -/
theorem forall_combinedPairs
    {P : α → Prop} {l : List α}
    (hcombine : ∀ a b, P (combine a b))
    (hl : ∀ a ∈ l, P a) :
    ∀ p ∈ combinedPairs combine l, P p.1 ∧ P p.2 := by
  induction l using root.induct combine with
  | case1 =>
      simp [combinedPairs]
  | case2 a =>
      simp [combinedPairs]
  | case3 a b rest ih =>
      intro p hp
      rw [combinedPairs, List.mem_append] at hp
      rcases hp with hp | hp
      · obtain ⟨hfst, hsnd⟩ := mem_of_mem_levelPairs hp
        exact ⟨hl _ hfst, hl _ hsnd⟩
      · refine ih ?_ p hp
        intro c hc
        obtain ⟨x, y, rfl⟩ := exists_eq_combine_of_mem_level hc
        exact hcombine x y

/-- What the leaves have and `combine` makes, the root has. -/
theorem forall_root
    {P : α → Prop} {l : List α} {r : α}
    (hcombine : ∀ a b, P (combine a b))
    (hl : ∀ a ∈ l, P a)
    (h : root combine l = some r) :
    P r := by
  induction l using root.induct combine with
  | case1 =>
      simp [root] at h
  | case2 a =>
      rw [root] at h
      rw [← Option.some.inj h]
      exact hl a (List.mem_singleton.mpr rfl)
  | case3 a b rest ih =>
      rw [root] at h
      refine ih ?_ h
      intro c hc
      obtain ⟨x, y, rfl⟩ := exists_eq_combine_of_mem_level hc
      exact hcombine x y

/-- Lists of the same length with the same root are equal. -/
theorem root_inj
    {l l' : List α}
    (hlen : l.length = l'.length)
    (hinj : ∀ p ∈ combinedPairs combine l, ∀ q ∈ combinedPairs combine l',
      combine p.1 p.2 = combine q.1 q.2 → p = q)
    (h : root combine l = root combine l') :
    l = l' := by
  induction l using root.induct combine generalizing l' with
  | case1 =>
      exact (List.length_eq_zero_iff.mp hlen.symm).symm
  | case2 a =>
      obtain ⟨b, rfl⟩ := List.length_eq_one_iff.mp hlen.symm
      rw [root, root] at h
      rw [Option.some.inj h]
  | case3 a b rest ih =>
      have hone : 1 < (a :: b :: rest).length := by simp
      have hone' : 1 < l'.length := hlen ▸ hone
      rw [combinedPairs_of_one_lt hone, combinedPairs_of_one_lt hone'] at hinj
      rw [root_of_one_lt hone, root_of_one_lt hone'] at h
      -- the levels above are equal by induction, and pairs of one level are told apart
      have hlevel : level combine (a :: b :: rest) = level combine l' := by
        refine ih ?_ ?_ h
        · rw [length_level, length_level, hlen]
        · intro p hp q hq
          exact hinj p (List.mem_append_right _ hp) q (List.mem_append_right _ hq)
      refine level_inj hlen ?_ hlevel
      intro p hp q hq
      exact hinj p (List.mem_append_left _ hp) q (List.mem_append_left _ hq)

end Roots

end MerkleTrees
