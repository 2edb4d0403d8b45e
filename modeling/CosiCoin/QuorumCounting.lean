import Mathlib.Data.Finset.Card
import Mathlib.Data.Finset.Dedup

/-!
# Counting quorums

Votes are a list without repetitions of members of a finite set `V`, some of
which may be in a faulty set `B`.  More votes than faulty members contain one of
a member outside `B`, and two lists that together have more than `|V| + |B|`
votes have a common voter outside `B`.

Two quorums of `q` members share at least `2 q - |V|` members, and some two
quorums share no more (`exists_least_overlap`).
-/

namespace QuorumCounting

universe u

section Quorums

variable {α : Type u} [DecidableEq α]

/-- More votes than faulty members contain one of another member. -/
theorem exists_notMem_of_length
    {l : List α} {B : Finset α}
    (hl : l.Nodup)
    (h : B.card < l.length) :
    ∃ x ∈ l, x ∉ B := by
  rw [← List.toFinset_card_of_nodup hl] at h
  obtain ⟨x, hx, hxB⟩ := Finset.exists_mem_notMem_of_card_lt_card h
  exact ⟨x, List.mem_toFinset.mp hx, hxB⟩

/-- Two large lists of votes have a common voter that is not faulty. -/
theorem exists_common_notMem
    {l l' : List α} {V B : Finset α}
    (hl : l.Nodup) (hl' : l'.Nodup)
    (hV : ∀ x ∈ l, x ∈ V) (hV' : ∀ x ∈ l', x ∈ V)
    (h : V.card + B.card < l.length + l'.length) :
    ∃ x ∈ l, x ∈ l' ∧ x ∉ B := by
  have hunion : (l.toFinset ∪ l'.toFinset).card ≤ V.card := by
    apply Finset.card_le_card
    intro x hx
    rcases Finset.mem_union.mp hx with hx | hx
    · exact hV x (List.mem_toFinset.mp hx)
    · exact hV' x (List.mem_toFinset.mp hx)
  have hsum := Finset.card_union_add_card_inter l.toFinset l'.toFinset
  rw [List.toFinset_card_of_nodup hl, List.toFinset_card_of_nodup hl'] at hsum
  have hinter : B.card < (l.toFinset ∩ l'.toFinset).card := by omega
  obtain ⟨x, hx, hxB⟩ := Finset.exists_mem_notMem_of_card_lt_card hinter
  obtain ⟨hxl, hxl'⟩ := Finset.mem_inter.mp hx
  exact ⟨x, List.mem_toFinset.mp hxl, List.mem_toFinset.mp hxl', hxB⟩

/-- Two subsets share what does not fit beside each other. -/
theorem le_card_inter
    {V A B : Finset α}
    (hA : A ⊆ V) (hB : B ⊆ V) :
    A.card + B.card ≤ V.card + (A ∩ B).card := by
  have hunion : (A ∪ B).card ≤ V.card := Finset.card_le_card (Finset.union_subset hA hB)
  have hsum := Finset.card_union_add_card_inter A B
  omega

/-- Quorums with the least overlap: one holds all members outside the other. -/
theorem exists_least_overlap
    {V : Finset α} {q k : Nat}
    (hq : q ≤ V.card)
    (hk : 2 * q = V.card + k) :
    ∃ A ⊆ V, ∃ B ⊆ V, A.card = q ∧ B.card = q ∧ (A ∩ B).card = k := by
  obtain ⟨A, hA, hAcard⟩ := Finset.exists_subset_card_eq hq
  obtain ⟨C, hC, hCcard⟩ := Finset.exists_subset_card_eq (s := A) (n := k) (by omega)
  have hrest : (V \ A).card = V.card - q := by
    rw [Finset.card_sdiff_of_subset hA, hAcard]
  have hdisj : Disjoint (V \ A) C := Finset.disjoint_of_subset_right hC Finset.sdiff_disjoint
  refine ⟨A, hA, V \ A ∪ C, Finset.union_subset Finset.sdiff_subset (hC.trans hA), hAcard, ?_, ?_⟩
  · rw [Finset.card_union_of_disjoint hdisj, hrest, hCcard]
    omega
  · rw [Finset.inter_union_distrib_left, Finset.inter_sdiff_self, Finset.empty_union,
      Finset.inter_eq_right.mpr hC, hCcard]

end Quorums

end QuorumCounting
