import CosiCoin.ValidatorLedger
import CosiCoin.ReferencePlatform

/-!
# COSICOIN: authentication of wallet transactions

`OnRecvTx` announces that it checks a transaction with the key PK_{i,n} stored
for the wallet, but it stores the key PK_{i,n+1} carried by the transaction
first and verifies with what it has just stored.  The key announced earlier is
therefore never consulted: a transaction is admitted exactly when it verifies
under its own key and meets the spending conditions (`admits_iff`).
-/

namespace CosiCoin

open Validator

section Admission

variable [Platform]

/-- The transaction meets the spending conditions on its sender's list. -/
def Validator.Spendable (v : Validator) (tx : Transaction) : Prop :=
  tx.checkSpendingConditions (UtxoMap.get v.utxoSets tx.walletId) v.walletsIds = true

/-- The signature of the transaction verifies under `key`. -/
def Transaction.VerifiesUnder (tx : Transaction) (key : SigKey) : Prop :=
  verify tx.getDigest tx.senderSig key = 1

instance (tx : Transaction) (key : SigKey) : Decidable (tx.VerifiesUnder key) :=
  inferInstanceAs (Decidable (_ = _))

/-- `OnRecvTx` returns 1 and appends the transaction to the pool. -/
def Validator.Admits (v : Validator) (tx : Transaction) : Prop :=
  (v.onRecvTx tx).1 = 1 ∧ (v.onRecvTx tx).2.memoryPool = v.memoryPool ++ [tx]

/-- The two outcomes of `OnRecvTx`. -/
theorem onRecvTx_cases
    (v : Validator) (tx : Transaction) :
    (tx.VerifiesUnder tx.publicKey ∧ v.Spendable tx ∧
      v.onRecvTx tx =
        (1, { v.updateKeys tx.walletId tx with memoryPool := v.memoryPool ++ [tx] })) ∨
    (¬ (tx.VerifiesUnder tx.publicKey ∧ v.Spendable tx) ∧
      v.onRecvTx tx = (0, v.updateKeys tx.walletId tx)) := by
  have hkey : ((v.updateKeys tx.walletId tx).pkSets.lookup tx.walletId).getD {} = tx.publicKey := by
    simp [updateKeys]
  unfold onRecvTx
  simp only [hkey]
  change
    (_ ∧ _ ∧ (if ¬ tx.VerifiesUnder tx.publicKey ∨
      tx.checkSpendingConditions (UtxoMap.get v.utxoSets tx.walletId) v.walletsIds = false
      then _ else _) = _) ∨
    (_ ∧ (if ¬ tx.VerifiesUnder tx.publicKey ∨
      tx.checkSpendingConditions (UtxoMap.get v.utxoSets tx.walletId) v.walletsIds = false
      then _ else _) = _)
  by_cases hv : tx.VerifiesUnder tx.publicKey
  · by_cases hs : v.Spendable tx
    · left
      refine ⟨hv, hs, ?_⟩
      rw [if_neg]
      · rfl
      · rintro (hn | hn)
        · exact hn hv
        · rw [Validator.Spendable] at hs
          simp [hs] at hn
    · right
      refine ⟨fun h => hs h.2, ?_⟩
      rw [if_pos (Or.inr (by simpa [Validator.Spendable] using hs))]
  · right
    refine ⟨fun h => hv h.1, ?_⟩
    rw [if_pos (Or.inl hv)]

/-- The stored key plays no part in the admission of a transaction. -/
theorem admits_iff
    (v : Validator) (tx : Transaction) :
    v.Admits tx ↔ tx.VerifiesUnder tx.publicKey ∧ v.Spendable tx := by
  unfold Validator.Admits
  rcases onRecvTx_cases v tx with ⟨hv, hs, h⟩ | ⟨hn, h⟩
  · rw [h]
    exact ⟨fun _ => ⟨hv, hs⟩, fun _ => ⟨rfl, rfl⟩⟩
  · rw [h]
    constructor
    · rintro ⟨hone, _⟩
      simp at hone
    · intro hboth
      exact absurd hboth hn

/-- Admission authenticates the transaction against the key stored before. -/
def Validator.Authenticates (v : Validator) (tx : Transaction) : Prop :=
  ∀ K : SigKey, v.pkSets.lookup tx.walletId = some K → v.Admits tx → tx.VerifiesUnder K

/--
Admission respects the stored key `K` exactly when every transaction that
verifies under the key it carries itself, and is spendable, also verifies
under `K`.
-/
theorem onRecvTx_authenticates_iff
    (v : Validator) (tx : Transaction) (K : SigKey)
    (hK : v.pkSets.lookup tx.walletId = some K) :
    v.Authenticates tx ↔
      (tx.VerifiesUnder tx.publicKey → v.Spendable tx → tx.VerifiesUnder K) := by
  constructor
  · intro h hv hs
    exact h K hK ((admits_iff v tx).mpr ⟨hv, hs⟩)
  · intro h K' hK' hadm
    have hsame : K = K' := Option.some.inj (hK.symm.trans hK')
    subst hsame
    obtain ⟨hv, hs⟩ := (admits_iff v tx).mp hadm
    exact h hv hs

end Admission

section StolenCoin

/-- Sign a transaction with a key pair whose public key it announces. -/
def Transaction.signedWith [Platform] (tx : Transaction) (pair : Signature) : Transaction :=
  { tx with
    publicKey := pair.publicKey
    senderSig := sign tx.getDigest pair.privateKey }

theorem signedWith_verifiesUnder
    [Platform]
    (tx : Transaction)
    {pair : Signature}
    (hpair : pair.WellFormed) :
    (tx.signedWith pair).VerifiesUnder pair.publicKey :=
  verify_sign hpair _

theorem checkSpendingConditions_signedWith
    [Platform]
    (tx : Transaction) (pair : Signature)
    (utxo : UTXOlist) (receiverIDs : List UInt32) :
    (tx.signedWith pair).checkSpendingConditions utxo receiverIDs =
      tx.checkSpendingConditions utxo receiverIDs := by
  rfl

/-- A signature under one uniform key does not verify under another. -/
theorem not_verifiesUnder_uniformKey
    [Platform]
    (tx : Transaction)
    {k k' : UInt8}
    (hne : hash (equalBytes k) ≠ hash (equalBytes k')) :
    ¬ (tx.signedWith (uniformKey k')).VerifiesUnder (uniformKey k).publicKey := by
  exact verify_sign_uniformKey_ne _ hne

/-- The coin of wallet 1, sent to wallet 2. -/
def transferToTwo : Transaction :=
  { inputs := [⟨0, 0⟩], outputs := [⟨10, 2⟩], senderID := 1, txID := 100 }

/-- Wallet 1 owns one coin of value 10 and has announced the key of secret bytes 1. -/
def robbedValidator [Platform] : Validator where
  walletsIds := [1, 2]
  pkSets := AList.singleton 1 (uniformKey 1).publicKey
  utxoSets := AList.singleton 1 [⟨0, 0, ⟨10, 1⟩⟩]

theorem robbedValidator_spendable
    [Platform] (pair : Signature) :
    robbedValidator.Spendable (transferToTwo.signedWith pair) := by
  show transferToTwo.checkSpendingConditions [⟨0, 0, ⟨10, 1⟩⟩] [1, 2] = true
  decide

/--
A transaction of wallet 1 signed and announced with a foreign key is admitted
although it does not verify under the key stored for wallet 1.
-/
theorem onRecvTx_admits_foreign_key :
    letI := referencePlatform
    ¬ robbedValidator.Authenticates (transferToTwo.signedWith (uniformKey 2)) := by
  let _ := referencePlatform
  intro h
  have hne : hash (equalBytes 1) ≠ hash (equalBytes 2) := by
    show Sha256.digest (equalBytes 1) ≠ Sha256.digest (equalBytes 2)
    decide +kernel
  have hadm : robbedValidator.Admits (transferToTwo.signedWith (uniformKey 2)) :=
    (admits_iff _ _).mpr
      ⟨signedWith_verifiesUnder _ (uniformKey_wellFormed 2), robbedValidator_spendable _⟩
  exact not_verifiesUnder_uniformKey transferToTwo hne
    (h (uniformKey 1).publicKey rfl hadm)

/-- The owner of the announced key is authenticated. -/
theorem onRecvTx_authenticates_owner :
    letI := referencePlatform
    robbedValidator.Authenticates (transferToTwo.signedWith (uniformKey 1)) := by
  let _ := referencePlatform
  exact (onRecvTx_authenticates_iff robbedValidator
    (transferToTwo.signedWith (uniformKey 1)) (uniformKey 1).publicKey rfl).mpr
      (fun hv _ => hv)

end StolenCoin

end CosiCoin
