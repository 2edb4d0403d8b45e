import Mathlib.Data.Finset.Card
import Mathlib.Order.Defs.Unbundled

/-!
# Sets kept in the order of a comparison

An ordered set is told how to compare its elements and never asks whether two of
them are equal: an element is inserted unless it compares with one of the set in
neither direction.  Here such a set is the increasing list of its elements.

When the comparison is a strict total order, inserting a list one element after
the other leaves as many elements as the list has different ones
(`length_insertAll`).
-/

namespace OrderedSets

universe u

section Insertion

variable {α : Type u}

/-- Insert an element that compares with every element of the set. -/
def insert (lt : α → α → Bool) (a : α) : List α → List α
  | [] => [a]
  | b :: s =>
      if lt a b then a :: b :: s
      else if lt b a then b :: insert lt a s
      else b :: s

/-- Insert the elements of a list, one after the other. -/
def insertAll (lt : α → α → Bool) (s l : List α) : List α :=
  l.foldl (fun s a => insert lt a s) s

variable {lt : α → α → Bool}

@[simp] theorem insertAll_nil
    (s : List α) :
    insertAll lt s [] = s := by
  rfl

@[simp] theorem insertAll_cons
    (s : List α) (a : α) (l : List α) :
    insertAll lt s (a :: l) = insertAll lt (insert lt a s) l := by
  rfl

variable [IsStrictTotalOrder α fun a b => lt a b = true]

theorem mem_insert
    {a x : α} {s : List α} :
    x ∈ insert lt a s ↔ x = a ∨ x ∈ s := by
  induction s with
  | nil =>
      simp [insert]
  | cons b s ih =>
      unfold insert
      split_ifs with hab hba
      · exact List.mem_cons
      · rw [List.mem_cons, ih, List.mem_cons]
        exact or_left_comm
      · have heq : a = b :=
          Std.Trichotomous.trichotomous (r := fun a b => lt a b = true) a b hab hba
        rw [heq, List.mem_cons, ← or_assoc, or_self]

/-- The set stays increasing. -/
theorem insert_pairwise
    {a : α} {s : List α}
    (hs : s.Pairwise fun x y => lt x y = true) :
    (insert lt a s).Pairwise fun x y => lt x y = true := by
  induction s with
  | nil =>
      exact List.pairwise_singleton _ a
  | cons b s ih =>
      obtain ⟨hb, hs'⟩ := List.pairwise_cons.mp hs
      unfold insert
      split_ifs with hab hba
      · refine List.pairwise_cons.mpr ⟨?_, hs⟩
        intro x hx
        rcases List.mem_cons.mp hx with rfl | hx
        · exact hab
        · exact IsTrans.trans (r := fun a b => lt a b = true) a b x hab (hb x hx)
      · refine List.pairwise_cons.mpr ⟨?_, ih hs'⟩
        intro x hx
        rcases mem_insert.mp hx with rfl | hx
        · exact hba
        · exact hb x hx
      · exact hs

theorem mem_insertAll
    {x : α} {l : List α} :
    ∀ {s : List α}, x ∈ insertAll lt s l ↔ x ∈ s ∨ x ∈ l := by
  induction l with
  | nil =>
      intro s
      simp
  | cons a l ih =>
      intro s
      rw [insertAll_cons, ih, mem_insert, List.mem_cons, or_comm (a := x = a), or_assoc]

theorem insertAll_pairwise
    {l : List α} :
    ∀ {s : List α}, s.Pairwise (fun x y => lt x y = true) →
      (insertAll lt s l).Pairwise fun x y => lt x y = true := by
  induction l with
  | nil =>
      intro s hs
      exact hs
  | cons a l ih =>
      intro s hs
      exact ih (insert_pairwise hs)

theorem nodup_of_pairwise
    {s : List α}
    (hs : s.Pairwise fun x y => lt x y = true) :
    s.Nodup := by
  refine hs.imp ?_
  rintro x y hxy rfl
  exact Std.Irrefl.irrefl (r := fun a b => lt a b = true) x hxy

/-- The set has as many elements as the inserted list has different ones. -/
theorem length_insertAll
    [DecidableEq α]
    (l : List α) :
    (insertAll lt [] l).length = l.toFinset.card := by
  have hnodup : (insertAll lt [] l).Nodup :=
    nodup_of_pairwise (insertAll_pairwise List.Pairwise.nil)
  have hsame : (insertAll lt [] l).toFinset = l.toFinset := by
    ext x
    simp [mem_insertAll]
  rw [← hsame, List.toFinset_card_of_nodup hnodup]

end Insertion

end OrderedSets
