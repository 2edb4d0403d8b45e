import CosiCoin.DoubleSpendControl
import CosiCoin.GreedySelection
import CosiCoin.NodeView

/-!
# COSICOIN: the leader's proposal and the nodes' verdict

`CreateBlk` takes the pool newest first and keeps a transaction that meets the
spending conditions on its sender's list and shares no input with the
transactions kept before.  The nodes verify the whole block at once against the
flat list of all coins and compare the number of inputs with the number of
distinct inputs.

The two views of the coins agree.  The counts do not: `verifyTxConsist` compares
a transaction with the others only, so a transaction that lists one of its
inputs twice goes into the block, and every node rejects it.
-/

namespace CosiCoin

open Validator GreedySelection

section Selection

/-- No input of one transaction is an input of the other. -/
def Transaction.disjoint (t s : Transaction) : Bool :=
  t.inputs.all fun i => !s.inputs.contains i

/-- The transactions of the pool that pass both checks of `CreateBlk` at their turn. -/
def Validator.selection (v : Validator) : List Transaction :=
  select (fun t => t.checkSpendingConditions (UtxoMap.get v.utxoSets t.walletId) v.walletsIds)
    Transaction.disjoint [] v.memoryPool.reverse

/-- The loop of `CreateBlk` is the selection. -/
theorem createLoop_eq_select
    (v : Validator)
    {pool : List Transaction} :
    ∀ {bx : Block}, bx.isMutable = true →
      createLoop v pool bx = .ok { bx with
        txs := select
          (fun t => t.checkSpendingConditions (UtxoMap.get v.utxoSets t.walletId) v.walletsIds)
          Transaction.disjoint bx.txs pool } := by
  induction pool with
  | nil =>
      intro bx _
      rfl
  | cons cur pool ih =>
      intro bx hmut
      have hconsist : bx.verifyTxConsist cur = bx.txs.all fun t => t.disjoint cur := rfl
      unfold createLoop select
      rw [hconsist]
      cases hspend :
          cur.checkSpendingConditions (UtxoMap.get v.utxoSets cur.walletId) v.walletsIds with
      | false =>
          simpa using ih hmut
      | true =>
          cases hdisjoint : bx.txs.all fun t => t.disjoint cur with
          | false =>
              simpa using ih hmut
          | true =>
              have hnext : bx.addTransaction cur = .ok { bx with txs := bx.txs ++ [cur] } := by
                simp [Block.addTransaction, hmut]
              rw [hnext]
              exact @ih { bx with txs := bx.txs ++ [cur] } hmut

/-- The block `CreateBlk` makes of a fresh one when there is something in the pool. -/
theorem createBlk_eq_selection
    [Platform]
    {v : Validator} {bx : Block}
    (hleader : v.isLeader = true)
    (hmut : bx.isMutable = true)
    (htxs : bx.txs = [])
    (hpool : v.memoryPool ≠ []) :
    v.createBlk bx = .ok (1,
      { bx with
        txs := v.selection
        isMutable := false
        header := bx.header.calculateMerkleRoot v.selection },
      { v with memoryPool := [] }) := by
  have hloop : createLoop v v.memoryPool.reverse bx = .ok { bx with txs := v.selection } := by
    rw [createLoop_eq_select v hmut, htxs]
    rfl
  unfold createBlk
  rw [if_neg (by simp [hleader]), if_neg hpool, hloop]
  simp only [bind, Except.bind, Block.finalize, hmut]
  rfl

/-- The leader always gets a block out of a fresh one, with the selected transactions. -/
theorem exists_createBlk
    [Platform]
    (v : Validator)
    (hleader : v.isLeader = true) :
    ∃ n blk v', v.createBlk {} = .ok (n, blk, v') ∧ blk.txs = v.selection := by
  by_cases hpool : v.memoryPool = []
  · refine ⟨0, {}, v, ?_, ?_⟩
    · simp [createBlk, hleader, hpool]
    · simp [Validator.selection, hpool, select]
  · exact ⟨1, _, _, createBlk_eq_selection hleader rfl rfl hpool, rfl⟩

theorem spendable_of_mem_selection
    {v : Validator} {t : Transaction}
    (h : t ∈ v.selection) :
    v.Spendable t := by
  rcases mem_select h with hnone | ⟨_, hspend⟩
  · cases hnone
  · exact hspend

/-- No input belongs to two of the selected transactions. -/
theorem selection_pairwise_disjoint
    (v : Validator) :
    v.selection.Pairwise (Function.onFun List.Disjoint Transaction.inputs) := by
  have hpairwise : v.selection.Pairwise fun t s => t.disjoint s = true :=
    select_pairwise List.Pairwise.nil
  refine hpairwise.imp ?_
  intro t s hts i hi hi'
  have hnot := List.all_eq_true.mp hts i hi
  simp [hi'] at hnot

end Selection

section Counting

/-- The `int` counter compares as the number it counted while it does not overflow. -/
theorem intToUInt64_ofNat
    {n : Nat}
    (h : n < 2 ^ 31) :
    intToUInt64 (Int32.ofNat n) = UInt64.ofNat n := by
  have hint : (Int32.ofNat n).toInt = n := Int32.toInt_ofNat_of_lt h
  have hwide : (Int32.ofNat n).toInt64 = Int64.ofNat n := by
    apply Int64.toInt_inj.mp
    rw [Int32.toInt_toInt64, hint, Int64.toInt_ofNat_of_lt (by omega)]
  rw [intToUInt64, hwide]
  rfl

/-- Without overflow the comparison of `verify` asks for distinct inputs. -/
theorem count_eq_card_iff
    {inputs : List Input}
    (h : inputs.length < 2 ^ 31) :
    intToUInt64 (Int32.ofNat inputs.length) = UInt64.ofNat inputs.toFinset.card ↔
      inputs.Nodup := by
  have hcard := List.toFinset_card_le inputs
  rw [intToUInt64_ofNat h]
  constructor
  · intro heq
    have hsame : inputs.length = inputs.toFinset.card := by
      have hnat := congrArg UInt64.toNat heq
      rw [UInt64.toNat_ofNat', UInt64.toNat_ofNat'] at hnat
      omega
    rw [← Multiset.coe_nodup, ← Multiset.toFinset_card_eq_card_iff_nodup]
    exact hsame.symm
  · intro hnodup
    rw [List.toFinset_card_of_nodup hnodup]

end Counting

section Proposal

variable [Platform]

/-- What the leader and the nodes agree on before a block is created. -/
structure ProposalSetting
    (v : Validator) (utxolist : UTXOlist) (walletIds : List UInt32) : Prop where
  leader : v.isLeader = true
  received : ∀ t ∈ v.memoryPool, ∃ v₀ : Validator, v₀.Admits t
  distinct : UtxoMap.DistinctOutpoints v.utxoSets
  concatenation : UtxoMap.Concatenation v.utxoSets utxolist
  sameWallets : walletIds = v.walletsIds

/-- The block that `CreateBlk` builds from a fresh one passes the verification of a node. -/
def Validator.ProposalVerified
    (v : Validator) (utxolist : UTXOlist) (walletIds : List UInt32) : Prop :=
  ∃ n blk v', v.createBlk {} = .ok (n, blk, v') ∧ blk.verify utxolist walletIds = true

/--
No transaction that passes both checks of `CreateBlk` at its turn lists an input
twice.  From `2 ^ 31` inputs on the `int` counter overflows, and what it shows
has to be the number of distinct inputs.
-/
def Validator.ProposesDistinct (v : Validator) : Prop :=
  let inputs := v.selection.flatMap Transaction.inputs
  if inputs.length < 2 ^ 31 then
    ∀ t ∈ v.selection, t.inputs.Nodup
  else
    intToUInt64 (Int32.ofNat inputs.length) = UInt64.ofNat inputs.toFinset.card

/-- A selected transaction meets the spending conditions on the flat list too. -/
theorem ProposalSetting.checkSpendingConditions
    {v : Validator} {utxolist : UTXOlist} {walletIds : List UInt32}
    (h : ProposalSetting v utxolist walletIds)
    {t : Transaction}
    (ht : t ∈ v.selection) :
    t.checkSpendingConditions utxolist walletIds = true := by
  have hspend := spendable_of_mem_selection ht
  have hsame : ∀ i ∈ t.inputs,
      utxolist.find i = UTXOlist.find (UtxoMap.get v.utxoSets t.walletId) i := by
    intro i hi
    exact h.concatenation.find_eq_of_distinct h.distinct
      (Transaction.mem_outpoints_of_checkSpendingConditions hspend i hi)
  rw [Transaction.checkSpendingConditions_congr hsame, h.sameWallets]
  exact hspend

/--
The leader's block is verified by a node exactly when no transaction that goes
into it lists an input twice.
-/
theorem proposalVerified_iff
    (v : Validator) (utxolist : UTXOlist) (walletIds : List UInt32)
    (h : ProposalSetting v utxolist walletIds) :
    v.ProposalVerified utxolist walletIds ↔ v.ProposesDistinct := by
  obtain ⟨n, blk, v', hcreate, htxs⟩ := exists_createBlk v h.leader
  have hblk : v.ProposalVerified utxolist walletIds ↔ blk.verify utxolist walletIds = true := by
    constructor
    · rintro ⟨n', blk', v'', hcreate', hverify⟩
      have hsame := Except.ok.inj (hcreate.symm.trans hcreate')
      rw [Prod.mk.injEq, Prod.mk.injEq] at hsame
      rw [hsame.2.1]
      exact hverify
    · intro hverify
      exact ⟨n, blk, v', hcreate, hverify⟩
  have hall : (blk.txs.all fun t => t.checkSpendingConditions utxolist walletIds) = true := by
    rw [List.all_eq_true, htxs]
    intro t ht
    exact h.checkSpendingConditions ht
  have hinputs : blk.inputs = v.selection.flatMap Transaction.inputs := by
    rw [Block.inputs, htxs]
  rw [hblk, Block.verify, hall, Bool.true_and, beq_iff_eq, hinputs, Validator.ProposesDistinct]
  split_ifs with hcount
  · rw [count_eq_card_iff hcount, List.nodup_flatMap]
    exact and_iff_left (selection_pairwise_disjoint v)
  · exact Iff.rfl

end Proposal

section OneWallet

/-- A leader whose pool holds one transaction of wallet 1. -/
def pooledLeader (tx : Transaction) : Validator :=
  { oneCoinLeader with memoryPool := [tx] }

/-- A spendable transaction is the whole selection of a pool with nothing else. -/
theorem pooledLeader_selection
    {tx : Transaction}
    (hspend : oneCoinLeader.Spendable tx) :
    (pooledLeader tx).selection = [tx] := by
  have hok : tx.checkSpendingConditions
      (UtxoMap.get (pooledLeader tx).utxoSets tx.walletId) (pooledLeader tx).walletsIds = true :=
    hspend
  have hpool : (pooledLeader tx).memoryPool.reverse = [tx] := rfl
  rw [Validator.selection, hpool]
  simp only [select, hok, List.all_nil, Bool.and_self, if_true, List.nil_append]

variable [Platform]

/-- The coin of wallet 1 listed as an input `k` times, signed by the wallet. -/
def repeatedTransfer (k : Nat) (value : UInt64) : Transaction :=
  Transaction.signedWith
    { inputs := List.replicate k ⟨0, 0⟩, outputs := [⟨value, 1⟩], senderID := 1, txID := 100 }
    (uniformKey 1)

theorem repeatedTransfer_spendable
    {k : Nat} {value : UInt64}
    (h : Transaction.checkSpendingConditions
      { inputs := List.replicate k ⟨0, 0⟩, outputs := [⟨value, 1⟩], senderID := 1, txID := 100 }
      [⟨0, 0, ⟨10, 1⟩⟩] [1] = true) :
    oneCoinLeader.Spendable (repeatedTransfer k value) := by
  have hget : UtxoMap.get oneCoinLeader.utxoSets (repeatedTransfer k value).walletId =
      [⟨0, 0, ⟨10, 1⟩⟩] := rfl
  unfold Validator.Spendable
  rw [hget, repeatedTransfer, checkSpendingConditions_signedWith]
  exact h

theorem pooledLeader_setting
    {k : Nat} {value : UInt64}
    (hspend : oneCoinLeader.Spendable (repeatedTransfer k value)) :
    ProposalSetting (pooledLeader (repeatedTransfer k value)) [⟨0, 0, ⟨10, 1⟩⟩] [1] where
  leader := rfl
  received := by
    intro t ht
    rw [List.mem_singleton.mp ht]
    refine ⟨oneCoinLeader, (admits_iff _ _).mpr ⟨?_, hspend⟩⟩
    exact signedWith_verifiesUnder _ (uniformKey_wellFormed 1)
  distinct := UtxoMap.distinctOutpoints_singleton (List.nodup_singleton _)
  concatenation := UtxoMap.concatenation_all _
  sameWallets := rfl

end OneWallet

/--
Wallet 1 lists its coin of value 10 twice and sends 20.  The transaction is
received and proposed, and the node rejects the block.
-/
theorem repeated_input_is_proposed :
    letI := referencePlatform
    ProposalSetting (pooledLeader (repeatedTransfer 2 20)) [⟨0, 0, ⟨10, 1⟩⟩] [1] ∧
      ¬ (pooledLeader (repeatedTransfer 2 20)).ProposalVerified [⟨0, 0, ⟨10, 1⟩⟩] [1] := by
  let _ := referencePlatform
  refine ⟨pooledLeader_setting (repeatedTransfer_spendable (by decide)), ?_⟩
  rintro ⟨n, blk, v', hcreate, hverify⟩
  obtain ⟨n₁, blk₁, v₁, hcreate₁, htxs⟩ :=
    exists_createBlk (pooledLeader (repeatedTransfer 2 20)) rfl
  have hsame := Except.ok.inj (hcreate.symm.trans hcreate₁)
  rw [Prod.mk.injEq, Prod.mk.injEq] at hsame
  rw [pooledLeader_selection (repeatedTransfer_spendable (by decide))] at htxs
  have hinputs : blk.inputs = [⟨0, 0⟩, ⟨0, 0⟩] := by
    rw [hsame.2.1, Block.inputs, htxs]
    rfl
  rw [Block.verify, Bool.and_eq_true, beq_iff_eq, hinputs, count_eq_card_iff (by decide)] at hverify
  simp at hverify

/-- The coin listed once is proposed and verified. -/
theorem single_input_is_verified :
    letI := referencePlatform
    (pooledLeader (repeatedTransfer 1 10)).ProposalVerified [⟨0, 0, ⟨10, 1⟩⟩] [1] := by
  let _ := referencePlatform
  refine (proposalVerified_iff _ _ _
    (pooledLeader_setting (repeatedTransfer_spendable (by decide)))).mpr ?_
  rw [Validator.ProposesDistinct, pooledLeader_selection (repeatedTransfer_spendable (by decide))]
  have hinputs : (repeatedTransfer 1 10).inputs = [⟨0, 0⟩] := rfl
  simp [hinputs]

end CosiCoin
