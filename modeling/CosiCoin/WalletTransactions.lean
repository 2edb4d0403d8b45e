import CosiCoin.JsonReading
import CosiCoin.ReferencePlatform
import CosiCoin.WalletAuthentication
import CosiCoin.WireFormat

/-!
# COSICOIN: the transactions of a wallet

`Wallet::CreateTx` reads a description of the transfer, takes the next
transaction number, draws a new key pair and signs the digest with it.  The
transaction carries the public key of that pair, so the validator that receives
it finds the signature valid whatever it knew of the wallet before
(`described_transaction_arrives`).
-/

namespace CosiCoin

open Validator

section Description

/-- The member name "walletID". -/
def nameWalletID : Str := ascii ['w', 'a', 'l', 'l', 'e', 't', 'I', 'D']

/-- The member name "ins". -/
def nameIns : Str := ascii ['i', 'n', 's']

/-- The member name "outIDX". -/
def nameOutIDX : Str := ascii ['o', 'u', 't', 'I', 'D', 'X']

/-- The member name "outs". -/
def nameOuts : Str := ascii ['o', 'u', 't', 's']

/-- The member name "outwalletID". -/
def nameOutwalletID : Str := ascii ['o', 'u', 't', 'w', 'a', 'l', 'l', 'e', 't', 'I', 'D']

/-- `jsonparser::TransInfo`. -/
structure TransInfo where
  walletid : UInt32
  outValueList : List UInt64
  outWalletIDList : List UInt32
  inOutIDXList : List UInt64
  inTxIDList : List UInt32

namespace TransInfo

/-- One element of "ins". -/
def readIn (value : Json) : Except String (UInt32 × UInt64) := do
  let txID ← (← value.at nameTxID).getUInt32
  let outIDX ← (← value.at nameOutIDX).getUInt64
  return (txID, outIDX)

/-- One element of "outs". -/
def readOut (value : Json) : Except String (UInt64 × UInt32) := do
  let amount ← (← value.at nameValue).getUInt64
  let outwalletID ← (← value.at nameOutwalletID).getUInt32
  return (amount, outwalletID)

/-- `jsonparser::from_json`. -/
def fromJson (j : Json) : Except String TransInfo := do
  let walletid ← (← j.at nameWalletID).getUInt32
  let ins ← (← j.at nameIns).items.mapM readIn
  let outs ← (← j.at nameOuts).items.mapM readOut
  return {
    walletid := walletid
    outValueList := outs.map Prod.fst
    outWalletIDList := outs.map Prod.snd
    inOutIDXList := ins.map Prod.snd
    inTxIDList := ins.map Prod.fst }

end TransInfo

/-- A document that describes a transfer from some inputs to some outputs. -/
structure Describes (j : Json) (ins : List Input) (outs : List Output) : Prop where
  wallet : ∃ id : UInt32, j.at nameWalletID = .ok (.num id.toNat)
  ins : ∃ rows, j.at nameIns = .ok (.arr rows) ∧
    List.Forall₂ (fun row (i : Input) => row.at nameTxID = .ok (.num i.txID.toNat) ∧
      row.at nameOutIDX = .ok (.num i.outputIndex.toNat)) rows ins
  outs : ∃ rows, j.at nameOuts = .ok (.arr rows) ∧
    List.Forall₂ (fun row (o : Output) => row.at nameValue = .ok (.num o.value.toNat) ∧
      row.at nameOutwalletID = .ok (.num o.receiverID.toNat)) rows outs

/-- What is read from a description. -/
theorem fromJson_of_describes
    {j : Json} {ins : List Input} {outs : List Output}
    (h : Describes j ins outs) :
    ∃ id, TransInfo.fromJson j = .ok {
      walletid := id
      outValueList := outs.map Output.value
      outWalletIDList := outs.map Output.receiverID
      inOutIDXList := ins.map Input.outputIndex
      inTxIDList := ins.map Input.txID } := by
  obtain ⟨id, hid⟩ := h.wallet
  obtain ⟨inRows, hins, hinRows⟩ := h.ins
  obtain ⟨outRows, houts, houtRows⟩ := h.outs
  have hreadIns : inRows.mapM TransInfo.readIn =
      .ok (ins.map fun i => (i.txID, i.outputIndex)) := by
    apply mapM_eq_ok_of_forall₂
    rw [List.forall₂_map_right_iff]
    refine hinRows.imp ?_
    rintro row i ⟨htx, hidx⟩
    simp [TransInfo.readIn, htx, hidx, bind, Except.bind, pure, Except.pure]
  have hreadOuts : outRows.mapM TransInfo.readOut =
      .ok (outs.map fun o => (o.value, o.receiverID)) := by
    apply mapM_eq_ok_of_forall₂
    rw [List.forall₂_map_right_iff]
    refine houtRows.imp ?_
    rintro row o ⟨hvalue, hreceiver⟩
    simp [TransInfo.readOut, hvalue, hreceiver, bind, Except.bind, pure, Except.pure]
  refine ⟨id, ?_⟩
  simp [TransInfo.fromJson, hid, hins, houts, Json.items, hreadIns, hreadOuts, bind, Except.bind,
    pure, Except.pure, Function.comp_def]

end Description

section Wallets

variable [P : Platform]

/-- The keys of a wallet, with the random strings its `KeyGen` calls will read. -/
structure Wallet where
  id : UInt32
  pkGenerator : Signature := {}
  pk : SigKey := {}
  sk : SigKey := {}
  urandom : Nat → Draw
  drawn : Nat := 0

namespace Wallet

/-- `Wallet::UpdateKeys`. -/
def updateKeys (w : Wallet) : Wallet :=
  let pair := keyGen (w.urandom w.drawn)
  { w with
    pkGenerator := pair
    pk := pair.publicKey
    sk := pair.privateKey
    drawn := w.drawn + 1 }

/-- A wallet as the constructor leaves it. -/
def new (id : UInt32) (urandom : Nat → Draw) : Wallet :=
  updateKeys { id := id, urandom := urandom }

/-- A transaction with the current public key, signed with the current private key. -/
def signTx (w : Wallet) (txId : UInt32) (inputs : List Input) (outputs : List Output) :
    Transaction :=
  let tx : Transaction :=
    { inputs := inputs
      outputs := outputs
      senderID := w.id.toUInt16
      txID := txId
      publicKey := w.pk }
  { tx with senderSig := sign tx.getDigest w.pkGenerator.privateKey }

/--
`Wallet::CreateTx` on what the parser has read from the file.  The counter
`tx_id_` is shared by all wallets and is passed along; an exception of the parser
or of `from_json` leaves it and the keys as they are.
-/
def createTx (w : Wallet) (txId : UInt32) (parsed : Except String Json) :
    Except String (Transaction × Wallet × UInt32) := do
  let t ← TransInfo.fromJson (← parsed)
  let inputs := List.zipWith Input.mk t.inTxIDList t.inOutIDXList
  let outputs := List.zipWith Output.mk t.outValueList t.outWalletIDList
  let w := w.updateKeys
  return (w.signTx txId inputs outputs, w, txId + 1)

end Wallet

/-- The transaction made of a description. -/
theorem createTx_of_describes
    (w : Wallet) (txId : UInt32)
    {j : Json} {ins : List Input} {outs : List Output}
    (h : Describes j ins outs) :
    w.createTx txId (.ok j) =
      .ok (w.updateKeys.signTx txId ins outs, w.updateKeys, txId + 1) := by
  obtain ⟨id, hread⟩ := fromJson_of_describes h
  have hins : List.zipWith Input.mk (ins.map Input.txID) (ins.map Input.outputIndex) = ins := by
    simp [List.zipWith_map]
  have houts : List.zipWith Output.mk (outs.map Output.value) (outs.map Output.receiverID) =
      outs := by
    simp [List.zipWith_map]
  simp [Wallet.createTx, hread, hins, houts, bind, Except.bind, pure, Except.pure]

/-- After `UpdateKeys` a signature verifies under the key the transaction carries. -/
theorem signTx_verifies
    (w : Wallet) (txId : UInt32) (ins : List Input) (outs : List Output) :
    (w.updateKeys.signTx txId ins outs).VerifiesUnder
      (w.updateKeys.signTx txId ins outs).publicKey := by
  have hpair : w.updateKeys.pkGenerator.WellFormed := keyGen_wellFormed _
  exact verify_sign hpair _

variable [LawfulPlatform P]

/-- A transaction with a generated key is written to the wire and read back. -/
theorem exists_fromProtoTransaction
    (tx : Transaction) (draw : Draw)
    (hkey : tx.publicKey = (keyGen draw).publicKey) :
    ∃ p, tx.toProtoTransaction = .ok p ∧ Transaction.fromProtoTransaction p = .ok tx := by
  have hboth : tx.publicKey.S0 ≠ [] ∧ tx.publicKey.S1 ≠ [] := by
    rw [hkey]
    exact (keyGen_wellFormed draw).publicKey_fullLength.ne_nil
  obtain ⟨text, htext⟩ : ∃ text, keyToProto tx.publicKey = .ok text := by
    rw [keyToProto, if_pos hboth, hkey]
    exact sigKeyToString_keyGen draw
  obtain ⟨key, hread⟩ := exists_keyFromProto htext
  obtain rfl : key = tx.publicKey := by
    rw [keyFromProto_toProto htext hread, if_pos hboth]
  obtain ⟨p, hp⟩ : ∃ p, tx.toProtoTransaction = .ok p := by
    rw [Transaction.toProtoTransaction, htext]
    exact ⟨_, rfl⟩
  obtain ⟨text', htext', hp'⟩ := bind_eq_ok hp
  obtain rfl := Except.ok.inj (htext.symm.trans htext')
  obtain rfl := Except.ok.inj hp'
  refine ⟨_, hp, ?_⟩
  simp [Transaction.fromProtoTransaction, hread, bind, Except.bind, pure, Except.pure]

/--
Every description gives a transaction with the described inputs and outputs.  It
arrives unchanged, and every validator finds its signature valid: it is added to
the pool exactly when it meets the spending conditions on the list of the sender
it carries.
-/
theorem described_transaction_arrives
    (w : Wallet) (txId : UInt32) (j : Json) (ins : List Input) (outs : List Output)
    (h : Describes j ins outs) :
    ∃ tx w' p,
      w.createTx txId (.ok j) = .ok (tx, w', txId + 1) ∧
      tx.inputs = ins ∧ tx.outputs = outs ∧ tx.senderID = w.id.toUInt16 ∧
      tx.toProtoTransaction = .ok p ∧ Transaction.fromProtoTransaction p = .ok tx ∧
      ∀ v : Validator,
        verify tx.getDigest tx.senderSig
          (((v.updateKeys tx.walletId tx).pkSets.lookup tx.walletId).getD {}) = 1 ∧
        ((v.onRecvTx tx).1 = 1 ↔
          tx.checkSpendingConditions (UtxoMap.get v.utxoSets tx.walletId) v.walletsIds = true) ∧
        (v.onRecvTx tx).2.memoryPool =
          if (v.onRecvTx tx).1 = 1 then v.memoryPool ++ [tx] else v.memoryPool := by
  obtain ⟨p, hp, hback⟩ := exists_fromProtoTransaction (w.updateKeys.signTx txId ins outs)
    (w.urandom w.drawn) rfl
  have hverifies := signTx_verifies w txId ins outs
  refine ⟨_, _, p, createTx_of_describes w txId h, rfl, rfl, rfl, hp, hback, ?_⟩
  intro v
  refine ⟨?_, ?_⟩
  · simp only [Validator.updateKeys, AList.lookup_insert, Option.getD_some]
    exact hverifies
  · rcases onRecvTx_cases v (w.updateKeys.signTx txId ins outs) with ⟨_, hspend, hres⟩ | ⟨hnot, hres⟩
    · rw [hres]
      exact ⟨⟨fun _ => hspend, fun _ => rfl⟩, rfl⟩
    · rw [hres]
      refine ⟨⟨?_, ?_⟩, rfl⟩
      · intro hone
        cases hone
      · intro hspend
        exact absurd ⟨hverifies, hspend⟩ hnot

end Wallets

section OneTransfer

/-- Ten coins of transaction 0 for wallet 2. -/
def transferDocument : Json :=
  .obj [(nameIns, .arr [.obj [(nameOutIDX, .num 0), (nameTxID, .num 0)]]),
    (nameOuts, .arr [.obj [(nameOutwalletID, .num 2), (nameValue, .num 10)]]),
    (nameWalletID, .num 1)]

theorem transferDocument_describes : Describes transferDocument [⟨0, 0⟩] [⟨10, 2⟩] where
  wallet := ⟨1, rfl⟩
  ins := ⟨_, rfl, .cons ⟨rfl, rfl⟩ .nil⟩
  outs := ⟨_, rfl, .cons ⟨rfl, rfl⟩ .nil⟩

end OneTransfer

/-- Wallet 1 sends its first coin, and a validator that has just given out the coins accepts. -/
theorem first_coin_is_accepted :
    letI := referencePlatform
    ∃ tx w' p,
      (Wallet.new 1 fun _ _ => (equalBytes 1, equalBytes 1)).createTx 100 (.ok transferDocument) =
        .ok (tx, w', 101) ∧
      tx.toProtoTransaction = .ok p ∧ Transaction.fromProtoTransaction p = .ok tx ∧
      ((Validator.initializeCoins { walletsIds := [1, 2] } 10).onRecvTx tx).1 = 1 := by
  let _ := referencePlatform
  obtain ⟨tx, w', p, hcreate, hins, houts, hsender, hp, hback, hall⟩ :=
    described_transaction_arrives (Wallet.new 1 fun _ _ => (equalBytes 1, equalBytes 1)) 100
      transferDocument _ _ transferDocument_describes
  refine ⟨tx, w', p, hcreate, hp, hback, (hall _).2.1.mpr ?_⟩
  have hwallet : tx.walletId = 1 := by
    rw [Transaction.walletId, hsender]
    rfl
  rw [Transaction.checkSpendingConditions, Transaction.totalOutputValue, hins, houts, hwallet]
  rfl

end CosiCoin
