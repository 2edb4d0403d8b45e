import CosiCoin.TransactionIds

/-!
# COSICOIN: the identity of a wallet at the validator

A wallet id has 32 bits in the settings, in the wallet, in the outputs and in the
maps of the validator.  The sender of a transaction has 16: the constructor of
`Transaction` cuts the id, the wire carries the cut number and the validator uses
it as the key of the sender's list and public key.

The functions of the validator are repeated here with a record of every use of a
list: which transaction was checked, and against the list of which wallet.
Without the record they are the functions of the ledger (`snd_onRecvTxTraced`,
`snd_createBlkTraced`, `snd_onAgreeBlkTraced`), and every use is of the list of
the cut id.
-/

namespace CosiCoin

namespace Validator

/-- A transaction, and the wallet whose list it was checked against. -/
abbrev ListUse := Transaction × UInt32

section Loops

/-- The loop of `CreateBlk`. -/
def createLoopTraced (v : Validator) :
    List Transaction → Block → List ListUse × Except String Block
  | [], bx => ([], .ok bx)
  | cur :: rest, bx =>
      let walletId := cur.walletId
      let r :=
        if cur.checkSpendingConditions (UtxoMap.get v.utxoSets walletId) v.walletsIds = false then
          createLoopTraced v rest bx
        else if bx.verifyTxConsist cur = false then
          createLoopTraced v rest bx
        else
          match bx.addTransaction cur with
          | .ok bx => createLoopTraced v rest bx
          | .error e => ([], .error e)
      ((cur, walletId) :: r.1, r.2)

/-- The loop of `OnAgreeBlk` over the transactions. -/
def agreeLoopTraced : List Transaction → UtxoMap → List ListUse × Option UtxoMap
  | [], m => ([], some m)
  | cur :: rest, m =>
      let walletId := cur.walletId
      let ulist := UtxoMap.get m walletId
      match spendLoop ulist cur.outputs cur.inputs 0 ulist with
      | some live =>
          let r := agreeLoopTraced rest (m.insert walletId live)
          ((cur, walletId) :: r.1, r.2)
      | none => ([(cur, walletId)], none)

/-- `OnAgreeBlk`. -/
def onAgreeBlkTraced (v : Validator) (bx : Block) : List ListUse × Option Validator :=
  let r := agreeLoopTraced bx.txs v.utxoSets
  (r.1, r.2.map fun m => { v with utxoSets := m })

theorem snd_createLoopTraced
    (v : Validator) (pool : List Transaction) (bx : Block) :
    (createLoopTraced v pool bx).2 = createLoop v pool bx := by
  induction pool generalizing bx with
  | nil => rfl
  | cons cur rest ih =>
      rw [createLoopTraced, createLoop]
      dsimp only
      split_ifs with hspend hconsist
      · exact ih bx
      · exact ih bx
      · cases hadd : bx.addTransaction cur with
        | ok bx' => exact ih bx'
        | error e => rfl

theorem snd_agreeLoopTraced
    (txs : List Transaction) (m : UtxoMap) :
    (agreeLoopTraced txs m).2 = txs.foldlM agreeTransaction m := by
  induction txs generalizing m with
  | nil => rfl
  | cons cur rest ih =>
      rw [agreeLoopTraced, List.foldlM_cons, agreeTransaction]
      cases hspend : spendLoop (UtxoMap.get m cur.walletId) cur.outputs cur.inputs 0
          (UtxoMap.get m cur.walletId) with
      | none => rfl
      | some live => exact ih (m.insert cur.walletId live)

theorem snd_onAgreeBlkTraced
    (v : Validator) (bx : Block) :
    (v.onAgreeBlkTraced bx).2 = v.onAgreeBlk bx := by
  rw [onAgreeBlk, ← snd_agreeLoopTraced]
  rfl

/-- Every list that is used belongs to the sender the transaction carries. -/
def OwnLists (uses : List ListUse) : Prop :=
  ∀ u ∈ uses, u.2 = u.1.walletId

theorem ownLists_nil :
    OwnLists [] := by
  intro u hu
  cases hu

theorem ownLists_createLoopTraced
    (v : Validator) (pool : List Transaction) (bx : Block) :
    OwnLists (createLoopTraced v pool bx).1 := by
  induction pool generalizing bx with
  | nil => exact ownLists_nil
  | cons cur rest ih =>
      rw [createLoopTraced]
      refine List.forall_mem_cons.mpr ⟨rfl, ?_⟩
      split_ifs with hspend hconsist
      · exact ih bx
      · exact ih bx
      · cases bx.addTransaction cur with
        | ok bx' => exact ih bx'
        | error e => exact ownLists_nil

theorem ownLists_agreeLoopTraced
    (txs : List Transaction) (m : UtxoMap) :
    OwnLists (agreeLoopTraced txs m).1 := by
  induction txs generalizing m with
  | nil => exact ownLists_nil
  | cons cur rest ih =>
      rw [agreeLoopTraced]
      dsimp only
      split
      · exact List.forall_mem_cons.mpr ⟨rfl, ih _⟩
      · exact List.forall_mem_cons.mpr ⟨rfl, ownLists_nil⟩

end Loops

section Calls

variable [Platform]

/--
`OnRecvTx`.  The list is not looked at after an invalid signature, but a refused
transaction is checked (once more) in the line of the log.
-/
def onRecvTxTraced (v : Validator) (tx : Transaction) : List ListUse × Int × Validator :=
  let walletId := tx.walletId
  let v := v.updateKeys walletId tx
  let valid := CosiCoin.verify tx.getDigest tx.senderSig ((v.pkSets.lookup walletId).getD {})
  if valid ≠ 1 then
    ([(tx, walletId)], 0, v)
  else if tx.checkSpendingConditions (UtxoMap.get v.utxoSets walletId) v.walletsIds = false then
    ([(tx, walletId), (tx, walletId)], 0, v)
  else
    ([(tx, walletId)], 1, { v with memoryPool := v.memoryPool ++ [tx] })

/-- `CreateBlk`. -/
def createBlkTraced (v : Validator) (bx : Block) :
    List ListUse × Except String (Int × Block × Validator) :=
  if v.isLeader = false then
    ([], .error "Assertion failed: node_->isLeader()")
  else if v.memoryPool = [] then
    ([], .ok (0, bx, v))
  else
    let r := createLoopTraced v v.memoryPool.reverse bx
    (r.1, do
      let bx ← r.2
      let bx ← bx.finalize
      return (1, bx, { v with memoryPool := [] }))

theorem snd_onRecvTxTraced
    (v : Validator) (tx : Transaction) :
    (v.onRecvTxTraced tx).2 = v.onRecvTx tx := by
  unfold onRecvTxTraced onRecvTx
  dsimp only
  split_ifs with hvalid hboth hspend hboth hboth
  · rfl
  · exact absurd (Or.inl hvalid) hboth
  · rfl
  · exact absurd (Or.inr hspend) hboth
  · exact absurd hboth (not_or.mpr ⟨hvalid, hspend⟩)
  · rfl

theorem snd_createBlkTraced
    (v : Validator) (bx : Block) :
    (v.createBlkTraced bx).2 = v.createBlk bx := by
  unfold createBlkTraced createBlk
  split_ifs
  · rfl
  · rfl
  · rw [← snd_createLoopTraced]

theorem ownLists_onRecvTxTraced
    (v : Validator) (tx : Transaction) :
    OwnLists (v.onRecvTxTraced tx).1 ∧ ∀ u ∈ (v.onRecvTxTraced tx).1, u.1 = tx := by
  unfold onRecvTxTraced
  dsimp only
  split_ifs <;> simp [OwnLists]

theorem ownLists_createBlkTraced
    (v : Validator) (bx : Block) :
    OwnLists (v.createBlkTraced bx).1 := by
  unfold createBlkTraced
  split_ifs
  · exact ownLists_nil
  · exact ownLists_nil
  · exact ownLists_createLoopTraced v _ bx

end Calls

end Validator

section Identity

open Validator

/-- The number that stands for a wallet in its transactions, and under which its key is kept. -/
def senderNumber (id : UInt32) : UInt32 :=
  id.toUInt16.toUInt32

/-- Cutting a number twice is cutting it once. -/
theorem senderNumber_senderNumber
    (id : UInt32) :
    senderNumber (senderNumber id) = senderNumber id := by
  rw [senderNumber, senderNumber, UInt16.toUInt16_toUInt32]

variable [P : Platform]

/-- The transaction is what arrives of one that a wallet with the id has created. -/
def ArrivesFrom (id : UInt32) (tx : Transaction) : Prop :=
  ∃ (w w' : Wallet) (txId next : UInt32) (parsed : Except String Json) (sent : Transaction)
    (p : ProtoTransaction),
    w.id = id ∧ w.createTx txId parsed = .ok (sent, w', next) ∧
      sent.toProtoTransaction = .ok p ∧ Transaction.fromProtoTransaction p = .ok tx

/--
No transaction of wallet `a` is checked against the list of `b` or overwrites its
key.  The list of a wallet is the one under its id, to which its outputs go; its
key is where the validator puts the keys of its transactions.
-/
structure KeptApart (a b : UInt32) : Prop where
  received : ∀ tx, ArrivesFrom a tx → ∀ v : Validator,
    ∀ u ∈ (v.onRecvTxTraced tx).1, u.1 = tx → u.2 ≠ b
  keys : ∀ tx, ArrivesFrom a tx → ∀ v : Validator,
    (v.onRecvTx tx).2.pkSets.lookup (senderNumber b) = v.pkSets.lookup (senderNumber b)
  created : ∀ tx, ArrivesFrom a tx → ∀ (v : Validator) (bx : Block),
    ∀ u ∈ (v.createBlkTraced bx).1, u.1 = tx → u.2 ≠ b
  agreed : ∀ tx, ArrivesFrom a tx → ∀ (v : Validator) (bx : Block),
    ∀ u ∈ (v.onAgreeBlkTraced bx).1, u.1 = tx → u.2 ≠ b

/-- A transaction carries the cut id of its wallet to the validator. -/
theorem walletId_of_arrivesFrom
    {id : UInt32} {tx : Transaction}
    (h : ArrivesFrom id tx) :
    tx.walletId = senderNumber id := by
  obtain ⟨w, w', txId, next, parsed, sent, p, rfl, hcreate, hsent, hback⟩ := h
  obtain ⟨_, hsender, _⟩ := createTx_txID hcreate
  obtain ⟨key, _, hp⟩ := bind_eq_ok hsent
  obtain rfl := Except.ok.inj hp
  obtain ⟨key', _, htx⟩ := bind_eq_ok hback
  obtain rfl := Except.ok.inj htx
  show sent.senderID.toUInt32.toUInt16.toUInt32 = _
  rw [UInt16.toUInt16_toUInt32, hsender]
  rfl

/-- `OnRecvTx` writes one key. -/
theorem pkSets_onRecvTx
    (v : Validator) (tx : Transaction) :
    (v.onRecvTx tx).2.pkSets = v.pkSets.insert tx.walletId tx.publicKey := by
  unfold onRecvTx
  dsimp only
  split_ifs <;> rfl

/-- A wallet whose cut id is not that of the other is kept apart from it. -/
theorem keptApart_of_ne
    {a b : UInt32}
    (h : senderNumber a ≠ senderNumber b) :
    KeptApart a b := by
  have hlist : senderNumber a ≠ b := by
    rintro rfl
    exact h (senderNumber_senderNumber a).symm
  have huse : ∀ {uses : List ListUse} {tx : Transaction}, OwnLists uses → ArrivesFrom a tx →
      ∀ u ∈ uses, u.1 = tx → u.2 ≠ b := by
    intro uses tx hown harrives u hu htx
    rw [hown u hu, htx, walletId_of_arrivesFrom harrives]
    exact hlist
  refine ⟨?_, ?_, ?_, ?_⟩
  · intro tx harrives v
    exact huse (ownLists_onRecvTxTraced v tx).1 harrives
  · intro tx harrives v
    rw [pkSets_onRecvTx, walletId_of_arrivesFrom harrives, AList.lookup_insert_ne h.symm]
  · intro tx harrives v bx
    exact huse (ownLists_createBlkTraced v bx) harrives
  · intro tx harrives v bx
    exact huse (ownLists_agreeLoopTraced bx.txs v.utxoSets) harrives

variable [LawfulPlatform P]

/-- Every wallet can create a transaction that arrives. -/
theorem exists_arrivesFrom
    (id : UInt32) :
    ∃ tx, ArrivesFrom id tx := by
  let w : Wallet := Wallet.new id fun _ _ => (equalBytes 1, equalBytes 1)
  have hcreate := createTx_of_describes w 100 transferDocument_describes
  obtain ⟨p, hp, hback⟩ := exists_fromProtoTransaction
    (w.updateKeys.signTx 100 [⟨0, 0⟩] [⟨10, 2⟩]) (w.urandom w.drawn) rfl
  exact ⟨_, w, _, 100, _, .ok transferDocument, _, p, rfl, hcreate, hp, hback⟩

/-- The key of a wallet with the same cut id is overwritten. -/
theorem not_keptApart_of_eq
    {a b : UInt32}
    (h : senderNumber a = senderNumber b) :
    ¬ KeptApart a b := by
  intro hapart
  obtain ⟨tx, harrives⟩ := exists_arrivesFrom a
  have hkeys := hapart.keys tx harrives {}
  rw [pkSets_onRecvTx, walletId_of_arrivesFrom harrives, h, AList.lookup_insert] at hkeys
  cases hkeys

/-- Two wallets are kept apart if and only if their ids differ in the low 16 bits. -/
theorem wallets_kept_apart_iff
    (a b : UInt32) :
    KeptApart a b ∧ KeptApart b a ↔ senderNumber a ≠ senderNumber b := by
  constructor
  · rintro ⟨hab, _⟩ hsame
    exact not_keptApart_of_eq hsame hab
  · intro hne
    exact ⟨keptApart_of_ne hne, keptApart_of_ne hne.symm⟩

end Identity

/-- The wallets 1 and 2 are kept apart. -/
theorem first_wallets_kept_apart :
    letI := referencePlatform
    KeptApart 1 2 ∧ KeptApart 2 1 := by
  let _ := referencePlatform
  exact (wallets_kept_apart_iff 1 2).mpr (by decide)

/--
The wallet 65537 is taken for the wallet 1, and the wallets 65537 and 131073
overwrite the same key.
-/
theorem wallet_taken_for_another :
    letI := referencePlatform
    (65537 : UInt32) ≠ 1 ∧ ¬ KeptApart 65537 1 ∧
      (65537 : UInt32) ≠ 131073 ∧ ¬ KeptApart 65537 131073 := by
  let _ := referencePlatform
  exact ⟨by decide, not_keptApart_of_eq (by decide), by decide, not_keptApart_of_eq (by decide)⟩

end CosiCoin
