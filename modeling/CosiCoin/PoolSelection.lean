import CosiCoin.BlockProposalControl

/-!
# COSICOIN: what goes from the pool into a block

`CreateBlk` empties the pool from its newest transaction to the oldest.  A
transaction is dropped when it fails the spending conditions on its sender's list
or shares an input with a transaction that went into the block before it, and
goes into the block otherwise.

`Validator.Selects` says which transactions these are without following the loop:
the block is a subsequence of the pool read backwards, without common inputs, and
nothing that was dropped could have been added to the newer transactions.
-/

namespace CosiCoin

open Validator GreedySelection

section Selects

/--
The transactions at the positions `kept` of the pool, newest first, are a maximal
selection without common inputs.
-/
structure Validator.Selects (v : Validator) (kept : List Nat) (txs : List Transaction) : Prop where
  increasing : kept.Pairwise (· < ·)
  inRange : ∀ i ∈ kept, i < v.memoryPool.length
  subsequence : txs = kept.filterMap fun i => v.memoryPool.reverse[i]?
  spendable : ∀ t ∈ txs, v.Spendable t
  disjoint : ∀ (i j : Nat) (t s : Transaction), txs[i]? = some t →
    txs[j]? = some s → i ≠ j → ∀ input ∈ t.inputs, input ∉ s.inputs
  maximal : ∀ (i : Nat) (t : Transaction), v.memoryPool.reverse[i]? = some t → i ∉ kept →
    ¬ v.Spendable t ∨
      ∃ j ∈ kept, j < i ∧ ∃ s, v.memoryPool.reverse[j]? = some s ∧
        ∃ input ∈ s.inputs, input ∈ t.inputs

/-- Two transactions at different positions of the selection share no input. -/
theorem selection_disjoint
    {v : Validator} {i j : Nat} {t s : Transaction}
    (hi : v.selection[i]? = some t)
    (hj : v.selection[j]? = some s)
    (hne : i ≠ j) :
    t.inputs.Disjoint s.inputs := by
  obtain ⟨hilt, rfl⟩ := List.getElem?_eq_some_iff.mp hi
  obtain ⟨hjlt, rfl⟩ := List.getElem?_eq_some_iff.mp hj
  have hpairwise := List.pairwise_iff_getElem.mp (selection_pairwise_disjoint v)
  rcases Nat.lt_or_gt_of_ne hne with hlt | hgt
  · exact hpairwise i j hilt hjlt hlt
  · exact (hpairwise j i hjlt hilt hgt).symm

/-- Transactions that are not disjoint have an input in common. -/
theorem exists_common_input
    {t s : Transaction}
    (h : t.disjoint s = false) :
    ∃ input ∈ t.inputs, input ∈ s.inputs := by
  obtain ⟨input, hin, hnot⟩ := List.all_eq_false.mp h
  exact ⟨input, hin, by simpa using hnot⟩

/-- The selection of `CreateBlk` is a maximal one. -/
theorem exists_selects
    (v : Validator) :
    ∃ kept, v.Selects kept v.selection := by
  refine ⟨keptPositions
    (fun t => t.checkSpendingConditions (UtxoMap.get v.utxoSets t.walletId) v.walletsIds)
    Transaction.disjoint [] v.memoryPool.reverse, ?_⟩
  constructor
  · exact keptPositions_pairwise
  · intro i hi
    rw [← List.length_reverse]
    exact lt_length_of_mem_keptPositions hi
  · exact select_eq_append
  · intro t ht
    exact spendable_of_mem_selection ht
  · intro i j t s hi hj hne input hin hin'
    exact selection_disjoint hi hj hne hin hin'
  · intro i t ht hi
    rcases rejected_of_notMem_keptPositions ht hi with
      hfails | ⟨_, hnone, _⟩ | ⟨j, hj, hji, s, hs, hshare⟩
    · left
      rw [Validator.Spendable, hfails]
      exact Bool.false_ne_true
    · cases hnone
    · exact Or.inr ⟨j, hj, hji, s, hs, exists_common_input hshare⟩

end Selects

/--
From a fresh block and a pool that is not empty, `CreateBlk` returns 1, empties
the pool and freezes a maximal selection of it under its Merkle root; from an
empty pool it returns 0 and changes nothing.
-/
theorem createBlk_selects
    [Platform]
    (v : Validator) (bx : Block)
    (hleader : v.isLeader = true)
    (hmut : bx.isMutable = true)
    (htxs : bx.txs = []) :
    (v.memoryPool ≠ [] → ∃ blk kept,
      v.createBlk bx = .ok (1, blk, { v with memoryPool := [] }) ∧
      blk.isMutable = false ∧ v.Selects kept blk.txs ∧
      blk.header = bx.header.calculateMerkleRoot blk.txs) ∧
    (v.memoryPool = [] → v.createBlk bx = .ok (0, bx, v)) := by
  constructor
  · intro hpool
    obtain ⟨kept, hselects⟩ := exists_selects v
    exact ⟨_, kept, createBlk_eq_selection hleader hmut htxs hpool, rfl, hselects, rfl⟩
  · intro hpool
    simp [createBlk, hleader, hpool]

/-- A pool with two transfers of the same coin. -/
theorem conflicting_pool_is_selected :
    letI := referencePlatform
    ∃ blk kept,
      createBlk { oneCoinLeader with memoryPool := [selfTransfer 100, selfTransfer 101] } {} =
        .ok (1, blk, { oneCoinLeader with memoryPool := [] }) ∧
      blk.isMutable = false ∧
      Validator.Selects { oneCoinLeader with memoryPool := [selfTransfer 100, selfTransfer 101] }
        kept blk.txs := by
  let _ := referencePlatform
  obtain ⟨blk, kept, hcreate, hfrozen, hselects, _⟩ := (createBlk_selects
    { oneCoinLeader with memoryPool := [selfTransfer 100, selfTransfer 101] } {}
    rfl rfl rfl).1 (List.cons_ne_nil _ _)
  exact ⟨blk, kept, hcreate, hfrozen, hselects⟩

end CosiCoin
