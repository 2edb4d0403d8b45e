import CosiCoin.BlockModel
import CosiCoin.PositionalErase
import Mathlib.Data.List.AList

/-!
# COSICOIN: the ledger of a validator

The operations of lib/cryptowallet/validator.cc on the coins a validator keeps:
`InitializeCoins`, `OnRecvTx`, `CreateBlk`, `OnAgreeBlk` and `OnSyncReply`.

A validator holds the unspent outputs of every wallet in `utxoSets`, the last
public key announced by every wallet in `pkSets`, and the transactions waiting
for a block in `memoryPool`.  Its node and its server hold copies of the
unspent outputs of their own, which only `InitializeCoins` and `OnSyncReply`
write.

`OnAgreeBlk` looks positions up in a snapshot of the sender's list and erases
them from the live list; the new unspent output it builds is never stored.  An
access outside a vector is undefined behaviour and ends the run (`none`).
-/

namespace CosiCoin

open PositionalErase

/-- `std::unordered_map<uint32_t, UTXOlist>`. -/
abbrev UtxoMap := AList fun _ : UInt32 => UTXOlist

namespace UtxoMap

/-- `operator[]`: the list of a wallet, empty when there is none yet. -/
def get (m : UtxoMap) (id : UInt32) : UTXOlist :=
  (m.lookup id).getD []

@[simp] theorem get_insert_self
    (m : UtxoMap) (id : UInt32) (l : UTXOlist) :
    UtxoMap.get (m.insert id l) id = l := by
  simp [get]

theorem get_insert_of_ne
    (m : UtxoMap) {id id' : UInt32} (l : UTXOlist)
    (h : id' ≠ id) :
    UtxoMap.get (m.insert id l) id' = UtxoMap.get m id' := by
  simp [get, AList.lookup_insert_ne h]

/-- All unspent outputs, the lists of the wallets one after the other. -/
def all (m : UtxoMap) : UTXOlist :=
  m.entries.flatMap fun e => e.2

/-- The exact sum of all amounts of all wallets. -/
def totalValue (m : UtxoMap) : Nat :=
  (m.entries.map fun e => UTXOlist.totalValue e.2).sum

/-- Every outpoint occurs at most once in all lists together. -/
def DistinctOutpoints (m : UtxoMap) : Prop :=
  (∀ w, (UtxoMap.get m w).outpoints.Nodup) ∧
    ∀ w w' i, i ∈ (UtxoMap.get m w).outpoints → i ∈ (UtxoMap.get m w').outpoints → w = w'

/-- Every unspent output is kept under the wallet that received it. -/
def UnderReceiver (m : UtxoMap) : Prop :=
  ∀ w, ∀ u ∈ UtxoMap.get m w, u.output.receiverID = w

section OneWallet

variable {id : UInt32} {l : UTXOlist}

theorem get_singleton
    (w : UInt32) :
    UtxoMap.get (AList.singleton id l) w = if w = id then l else [] := by
  split_ifs with hw
  · rw [hw]
    exact get_insert_self ∅ id l
  · exact get_insert_of_ne ∅ l hw

/-- The outpoints of a single wallet are distinct if they are so in its list. -/
theorem distinctOutpoints_singleton
    (h : l.outpoints.Nodup) :
    DistinctOutpoints (AList.singleton id l) := by
  refine ⟨?_, ?_⟩
  · intro w
    rw [get_singleton]
    split_ifs
    · exact h
    · exact List.nodup_nil
  · intro w w' i hi hi'
    rw [get_singleton] at hi hi'
    split_ifs at hi hi' with hw hw'
    · rw [hw, hw']
    · cases hi'
    · cases hi
    · cases hi

theorem underReceiver_singleton
    (h : ∀ u ∈ l, u.output.receiverID = id) :
    UnderReceiver (AList.singleton id l) := by
  intro w u hu
  rw [get_singleton] at hu
  split_ifs at hu with hw
  · rw [hw]
    exact h u hu
  · cases hu

end OneWallet

end UtxoMap

/-- The state of a validator, with the copies of the coins at its node and server. -/
structure Validator where
  isLeader : Bool := true
  walletsIds : List UInt32 := []
  pkSets : AList (fun _ : UInt32 => SigKey) := ∅
  utxoSets : UtxoMap := ∅
  memoryPool : List Transaction := []
  nodeUtxolist : UTXOlist := []
  nodeWalletIds : List UInt32 := []
  serverUtxolists : UtxoMap := ∅

/-- The wallet on whose list the transactions of a sender are checked. -/
def Transaction.walletId (t : Transaction) : UInt32 :=
  t.senderID.toUInt32

namespace Validator

/-- The loop of `InitializeCoins`: one coin for each wallet, numbered from `initTX`. -/
def initLoop (coins : UInt64) :
    List UInt32 → UInt32 → UtxoMap → UTXOlist → UtxoMap × UTXOlist
  | [], _, m, l => (m, l)
  | id :: rest, initTX, m, l =>
      let utxo : UTXO := ⟨initTX, 0, ⟨coins, id⟩⟩
      initLoop coins rest (initTX + 1) (m.insert id (UtxoMap.get m id ++ [utxo])) (l ++ [utxo])

/-- `Validator::InitializeCoins`. -/
def initializeCoins (v : Validator) (coins : UInt64) : Validator :=
  let r := initLoop coins v.walletsIds 0 v.utxoSets []
  { v with
    utxoSets := r.1
    serverUtxolists := r.1
    nodeUtxolist := r.2
    nodeWalletIds := v.walletsIds }

/-- `Validator::UpdateKeys`. -/
def updateKeys (v : Validator) (senderId : UInt32) (tx : Transaction) : Validator :=
  { v with pkSets := v.pkSets.insert senderId tx.publicKey }

/-- `Validator::OnRecvTx`: the returned number and the state. -/
def onRecvTx [Platform] (v : Validator) (tx : Transaction) : Int × Validator :=
  let v := v.updateKeys tx.walletId tx
  let valid := CosiCoin.verify tx.getDigest tx.senderSig ((v.pkSets.lookup tx.walletId).getD {})
  if valid ≠ 1 ∨ tx.checkSpendingConditions (UtxoMap.get v.utxoSets tx.walletId) v.walletsIds = false then
    (0, v)
  else
    (1, { v with memoryPool := v.memoryPool ++ [tx] })

/-- The loop of `CreateBlk` over the pool, newest transaction first. -/
def createLoop (v : Validator) : List Transaction → Block → Except String Block
  | [], bx => .ok bx
  | cur :: rest, bx =>
      if cur.checkSpendingConditions (UtxoMap.get v.utxoSets cur.walletId) v.walletsIds = false then
        createLoop v rest bx
      else if bx.verifyTxConsist cur = false then
        createLoop v rest bx
      else
        bx.addTransaction cur >>= createLoop v rest

/-- `Validator::CreateBlk`: the returned number, the block and the state. -/
def createBlk [Platform] (v : Validator) (bx : Block) : Except String (Int × Block × Validator) :=
  if v.isLeader = false then
    .error "Assertion failed: node_->isLeader()"
  else if v.memoryPool = [] then
    .ok (0, bx, v)
  else do
    let bx ← createLoop v v.memoryPool.reverse bx
    let bx ← bx.finalize
    return (1, bx, { v with memoryPool := [] })

/--
The loop of `OnAgreeBlk` over the inputs of one transaction.  Positions are
looked up in the snapshot `ulist` and erased from the live list; the output
read with `getOutputAt(i)` must exist.
-/
def spendLoop (ulist : UTXOlist) (outputs : List Output) :
    List Input → Nat → UTXOlist → Option UTXOlist
  | [], _, live => some live
  | cur :: rest, i, live =>
      match ulist.index cur with
      | some idx =>
          match UTXOlist.erase live idx with
          | some live =>
              if i < outputs.length then spendLoop ulist outputs rest (i + 1) live else none
          | none => none
      | none => spendLoop ulist outputs rest (i + 1) live

/-- `OnAgreeBlk` for one transaction. -/
def agreeTransaction (m : UtxoMap) (t : Transaction) : Option UtxoMap :=
  let ulist := UtxoMap.get m t.walletId
  (spendLoop ulist t.outputs t.inputs 0 ulist).map fun live => m.insert t.walletId live

/-- `Validator::OnAgreeBlk`. -/
def onAgreeBlk (v : Validator) (bx : Block) : Option Validator :=
  (bx.txs.foldlM agreeTransaction v.utxoSets).map fun m => { v with utxoSets := m }

/-- `Validator::OnSyncReply`. -/
def onSyncReply (v : Validator) : Validator :=
  { v with serverUtxolists := v.utxoSets }

end Validator

section AgreeTransaction

open Validator

/-- The positions at which the inputs are found in a list. -/
def spentPositions (l : UTXOlist) (inputs : List Input) : List Nat :=
  inputs.filterMap l.index

/-- An input that is not found is passed over. -/
theorem spendLoop_skip
    {ulist : UTXOlist} {outputs : List Output} {cur : Input} {rest : List Input}
    (h : ulist.index cur = none)
    (i : Nat) (live : UTXOlist) :
    spendLoop ulist outputs (cur :: rest) i live = spendLoop ulist outputs rest (i + 1) live := by
  rw [spendLoop, h]

/-- The two accesses for an input that is found. -/
theorem spendLoop_found
    {ulist : UTXOlist} {outputs : List Output} {cur : Input} {rest : List Input}
    {idx : Nat}
    (h : ulist.index cur = some idx)
    (i : Nat) (live : UTXOlist) :
    spendLoop ulist outputs (cur :: rest) i live =
      if i < outputs.length ∧ idx < live.length then
        spendLoop ulist outputs rest (i + 1) (live.eraseIdx idx)
      else none := by
  rw [spendLoop, h]
  dsimp only
  unfold UTXOlist.erase
  by_cases hlt : idx < live.length
  · simp [hlt]
  · simp [hlt]

/-- What the loop over the inputs leaves of the live list. -/
theorem spendLoop_eq_some
    {ulist : UTXOlist} {outputs : List Output} :
    ∀ {inputs : List Input} {i : Nat} {live live' : UTXOlist},
      spendLoop ulist outputs inputs i live = some live' →
      live' = erasePositions live (spentPositions ulist inputs)
  | [], i, live, live', h => by
      simpa [spendLoop, spentPositions] using h.symm
  | cur :: rest, i, live, live', h => by
      cases hidx : ulist.index cur with
      | none =>
          rw [spendLoop_skip hidx] at h
          simpa [spentPositions, hidx] using spendLoop_eq_some h
      | some idx =>
          rw [spendLoop_found hidx] at h
          split_ifs at h
          simpa [spentPositions, hidx] using spendLoop_eq_some h

/-- What one transaction leaves of the unspent outputs. -/
theorem agreeTransaction_eq_some
    {m m' : UtxoMap} {t : Transaction}
    (h : agreeTransaction m t = some m') :
    m' = m.insert t.walletId
      (erasePositions (UtxoMap.get m t.walletId)
        (spentPositions (UtxoMap.get m t.walletId) t.inputs)) := by
  obtain ⟨live, hlive, rfl⟩ := Option.map_eq_some_iff.mp h
  rw [spendLoop_eq_some hlive]

/-- No list grows when a transaction is applied. -/
theorem agreeTransaction_sublist
    {m m' : UtxoMap} {t : Transaction}
    (h : agreeTransaction m t = some m')
    (w : UInt32) :
    (UtxoMap.get m' w).Sublist (UtxoMap.get m w) := by
  rw [agreeTransaction_eq_some h]
  by_cases hw : w = t.walletId
  · subst hw
    rw [UtxoMap.get_insert_self]
    exact erasePositions_sublist _ _
  · rw [UtxoMap.get_insert_of_ne _ _ hw]

/-- No list grows when a block is applied. -/
theorem foldlM_agreeTransaction_sublist
    {txs : List Transaction} :
    ∀ {m m' : UtxoMap}, txs.foldlM agreeTransaction m = some m' →
      ∀ w, (UtxoMap.get m' w).Sublist (UtxoMap.get m w) := by
  induction txs with
  | nil =>
      intro m m' h w
      obtain rfl := Option.some.inj h
      exact List.Sublist.refl _
  | cons t txs ih =>
      intro m m' h w
      rw [List.foldlM_cons] at h
      obtain ⟨m₁, hm₁, h⟩ := Option.bind_eq_some_iff.mp h
      exact (ih h w).trans (agreeTransaction_sublist hm₁ w)

end AgreeTransaction

namespace UtxoMap

/-- Smaller lists still have distinct outpoints. -/
theorem DistinctOutpoints.of_sublist
    {m m' : UtxoMap}
    (hm : DistinctOutpoints m)
    (hsub : ∀ w, (UtxoMap.get m' w).Sublist (UtxoMap.get m w)) :
    DistinctOutpoints m' := by
  refine ⟨?_, ?_⟩
  · intro w
    exact (hm.1 w).sublist ((hsub w).map _)
  · intro w w' i hi hi'
    exact hm.2 w w' i (((hsub w).map _).subset hi) (((hsub w').map _).subset hi')

end UtxoMap

end CosiCoin
