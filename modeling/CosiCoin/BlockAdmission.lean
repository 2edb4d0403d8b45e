import CosiCoin.NodeView
import CosiCoin.WalletAuthentication

/-!
# COSICOIN: admission to the pool and verification of a block

`OnRecvTx` admits a transaction to the pool when its signature verifies under
the key it carries and the list of its sender holds the coins it spends.  The
nodes judge the transactions of a block with `Block::verify`, which sees one flat
list of coins, no wallet and no key: it reads neither the sender nor the
signature of a transaction.

A verified transaction therefore spends existing coins, each kept under its
receiver, but not necessarily coins of its sender.  What `OnRecvTx` asks for
beyond that is stated in `verified_admits`.
-/

namespace CosiCoin

open Validator

section Verdict

/-- A node that verifies blocks against the coins a validator keeps. -/
structure NodeSetting
    (v : Validator) (utxolist : UTXOlist) (walletIds : List UInt32) : Prop where
  underReceiver : UtxoMap.UnderReceiver v.utxoSets
  concatenation : UtxoMap.Concatenation v.utxoSets utxolist
  sameWallets : walletIds = v.walletsIds

/-- The coins found for the inputs of a transaction were received by its sender. -/
def Transaction.SpendsOwn (t : Transaction) (utxolist : UTXOlist) : Prop :=
  ∀ i ∈ t.inputs, ∀ u, utxolist.find i = some u → u.output.receiverID = t.walletId

/-- The coins of a sender are found in its own list. -/
theorem find_own
    {v : Validator} {utxolist : UTXOlist} {walletIds : List UInt32}
    (h : NodeSetting v utxolist walletIds)
    {t : Transaction}
    (hspend : ∀ i ∈ t.inputs, i ∈ utxolist.outpoints)
    (hown : t.SpendsOwn utxolist) :
    ∀ i ∈ t.inputs, utxolist.find i = UTXOlist.find (UtxoMap.get v.utxoSets t.walletId) i := by
  intro i hi
  obtain ⟨u, hu⟩ := Option.isSome_iff_exists.mp
    ((UTXOlist.find_isSome_iff utxolist i).mpr (hspend i hi))
  have hfind := h.concatenation.find_receiver h.underReceiver hu
  rw [hown i hi u hu] at hfind
  rw [hu, hfind]

variable [Platform]

/--
What the leader enforces, asked of a block that a node verified: every
transaction that spends something spends coins of its sender, is signed under
the key it carries and would be admitted to the pool.
-/
def Validator.EnforcesAdmission
    (v : Validator) (utxolist : UTXOlist) (walletIds : List UInt32) (b : Block) : Prop :=
  b.verify utxolist walletIds = true →
    ∀ t ∈ b.txs, t.inputs ≠ [] →
      t.SpendsOwn utxolist ∧ t.VerifiesUnder t.publicKey ∧ v.Admits t

/--
A transaction in a verified block spends coins that are kept under their
receivers.  It is admitted by `OnRecvTx` if these are the sender's and the
signature verifies under the key it carries; it is not admitted if the signature
does not verify or an input is missing in the sender's list.
-/
theorem verified_admits
    (v : Validator) (utxolist : UTXOlist) (walletIds : List UInt32) (b : Block)
    (h : NodeSetting v utxolist walletIds)
    (hverify : b.verify utxolist walletIds = true)
    (t : Transaction)
    (ht : t ∈ b.txs) :
    (∀ i ∈ t.inputs, ∃ u, utxolist.find i = some u ∧ u.outpoint = i ∧
      u ∈ UtxoMap.get v.utxoSets u.output.receiverID) ∧
    (t.SpendsOwn utxolist → t.VerifiesUnder t.publicKey → v.Admits t) ∧
    (v.Admits t → t.VerifiesUnder t.publicKey ∧
      ∀ i ∈ t.inputs, i ∈ (UtxoMap.get v.utxoSets t.walletId).outpoints) := by
  have hcheck := Block.checkSpendingConditions_of_verify hverify ht
  have hlisted := Transaction.mem_outpoints_of_checkSpendingConditions hcheck
  refine ⟨?_, ?_, ?_⟩
  · intro i hi
    obtain ⟨u, hu⟩ := Option.isSome_iff_exists.mp
      ((UTXOlist.find_isSome_iff utxolist i).mpr (hlisted i hi))
    refine ⟨u, hu, by simpa using List.find?_some hu, ?_⟩
    exact List.mem_of_find?_eq_some (h.concatenation.find_receiver h.underReceiver hu)
  · intro hown hsigned
    refine (admits_iff v t).mpr ⟨hsigned, ?_⟩
    have hsame := Transaction.checkSpendingConditions_congr (find_own h hlisted hown) v.walletsIds
    rw [Validator.Spendable, ← hsame, ← h.sameWallets]
    exact hcheck
  · intro hadmits
    obtain ⟨hsigned, hspend⟩ := (admits_iff v t).mp hadmits
    exact ⟨hsigned, Transaction.mem_outpoints_of_checkSpendingConditions hspend⟩

end Verdict

section Theft

/-- The coin of wallet 1, spent by wallet 2 without a signature. -/
def theft : Transaction :=
  { inputs := [⟨0, 0⟩], outputs := [⟨10, 2⟩], senderID := 2, txID := 100 }

/-- A block with one transaction. -/
def blockOf (tx : Transaction) : Block :=
  { txs := [tx], isMutable := false }

theorem robbedValidator_setting
    [Platform] :
    NodeSetting robbedValidator [⟨0, 0, ⟨10, 1⟩⟩] [1, 2] where
  underReceiver := by
    apply UtxoMap.underReceiver_singleton
    intro u hu
    rw [List.mem_singleton.mp hu]
  concatenation := UtxoMap.concatenation_all _
  sameWallets := rfl

/-- A node verifies a block in which wallet 2 spends the coin of wallet 1 unsigned. -/
theorem theft_is_verified :
    letI := referencePlatform
    NodeSetting robbedValidator [⟨0, 0, ⟨10, 1⟩⟩] [1, 2] ∧
      ¬ robbedValidator.EnforcesAdmission [⟨0, 0, ⟨10, 1⟩⟩] [1, 2] (blockOf theft) := by
  let _ := referencePlatform
  refine ⟨robbedValidator_setting, ?_⟩
  intro henforced
  have hverify : (blockOf theft).verify [⟨0, 0, ⟨10, 1⟩⟩] [1, 2] = true := by decide
  have hown := (henforced hverify theft (List.mem_singleton.mpr rfl) (by decide)).1
  have hreceiver := hown ⟨0, 0⟩ (by decide) ⟨0, 0, ⟨10, 1⟩⟩ (by decide)
  revert hreceiver
  decide

/-- A transfer of its own coin that wallet 1 signs is verified and admitted. -/
theorem own_transfer_is_admitted :
    letI := referencePlatform
    robbedValidator.Admits (transferToTwo.signedWith (uniformKey 2)) := by
  let _ := referencePlatform
  have hverify : (blockOf (transferToTwo.signedWith (uniformKey 2))).verify
      [⟨0, 0, ⟨10, 1⟩⟩] [1, 2] = true := by
    rfl
  refine (verified_admits robbedValidator [⟨0, 0, ⟨10, 1⟩⟩] [1, 2]
    (blockOf (transferToTwo.signedWith (uniformKey 2))) robbedValidator_setting hverify
    (transferToTwo.signedWith (uniformKey 2)) (List.mem_singleton.mpr rfl)).2.1 ?_
      (signedWith_verifiesUnder _ (uniformKey_wellFormed 2))
  intro i hi u hu
  obtain rfl : u = ⟨0, 0, ⟨10, 1⟩⟩ := List.mem_singleton.mp (List.mem_of_find?_eq_some hu)
  rfl

end Theft

end CosiCoin
