import CosiCoin.BlockProposalControl
import CosiCoin.TransactionIds

/-!
# COSICOIN: where the transactions of the blocks come from

The transactions a validator receives wait in the pool until `CreateBlk` puts
them into a block or drops them.  The runs of `DoubleSpendControl` interleave
the reception of transactions with the creation, the acceptance and the
application of blocks.  Here they also record every received transaction, in
the order of arrival.

Whatever the order of the steps, the transactions of all proposed blocks and of
the pool together are part of the received ones, each as often as it was
received: a block holds nothing that was not sent, and nothing is put into two
blocks.  Each is signed with the key it announces, and since `OnAgreeBlk` never
adds a coin to a list, each spends coins that `InitializeCoins` gave to its
sender: a coin that a transfer creates is never spent.
-/

namespace CosiCoin

open Validator GreedySelection LabelledRuns

section CreateBlk

theorem selection_subperm
    (v : Validator) :
    v.selection.Subperm v.memoryPool := by
  have hsub : v.selection.Sublist ([] ++ v.memoryPool.reverse) := select_sublist
  exact hsub.subperm.trans (List.reverse_perm v.memoryPool).subperm

/-- A block that is returned holds the selection, and the pool is emptied. -/
theorem txs_of_createBlk
    [Platform]
    {v v' : Validator} {blk : Block}
    (h : v.createBlk {} = .ok (1, blk, v')) :
    blk.txs = v.selection ∧ v' = { v with memoryPool := [] } := by
  have hleader : v.isLeader = true := by
    by_contra hl
    unfold createBlk at h
    rw [if_pos (Bool.eq_false_iff.mpr hl)] at h
    cases h
  have hpool : v.memoryPool ≠ [] := by
    intro hp
    simp [createBlk, hleader, hp] at h
  rw [createBlk_eq_selection hleader rfl rfl hpool] at h
  obtain ⟨_, rfl, rfl⟩ : (1 : Int) = 1 ∧ _ = blk ∧ _ = v' := by
    simpa using h
  exact ⟨rfl, rfl⟩

end CreateBlk

section FirstCoins

/-- The list of each wallet is the part of the node's list that it receives. -/
theorem initLoop_get
    (coins : UInt64)
    (ids : List UInt32) :
    ∀ (initTX : UInt32) (m : UtxoMap) (l : UTXOlist),
      (∀ w, UtxoMap.get m w = l.filter fun u => u.output.receiverID = w) →
      ∀ w, UtxoMap.get (initLoop coins ids initTX m l).1 w =
        (initLoop coins ids initTX m l).2.filter fun u => u.output.receiverID = w := by
  induction ids with
  | nil =>
      intro initTX m l h
      exact h
  | cons id ids ih =>
      intro initTX m l h
      unfold initLoop
      refine ih _ _ _ ?_
      intro w
      rw [List.filter_append, ← h w]
      by_cases hw : w = id
      · subst hw
        simp
      · have hother : ¬ id = w := fun heq => hw heq.symm
        rw [UtxoMap.get_insert_of_ne _ _ hw]
        simp [hother]

theorem initializeCoins_get
    (walletsIds : List UInt32) (coins : UInt64)
    (w : UInt32) :
    UtxoMap.get (Validator.initializeCoins { walletsIds := walletsIds } coins).utxoSets w =
      (Validator.firstCoins { walletsIds := walletsIds } coins).filter
        fun u => u.output.receiverID = w :=
  initLoop_get coins walletsIds 0 ∅ [] (fun _ => rfl) w

end FirstCoins

section Records

/-- A run of the ledger with the transactions received so far. -/
structure RecordedState where
  ledger : LedgerState
  received : List Transaction := []

/-- The transactions an action brings in. -/
def LedgerAction.received : LedgerAction → List Transaction
  | .recvTx tx => [tx]
  | _ => []

/-- One step of a run, recorded. -/
def RecordedStep [Platform]
    (s : RecordedState) (a : LedgerAction) (s' : RecordedState) : Prop :=
  LedgerStep s.ledger a s'.ledger ∧ s'.received = s.received ++ a.received

/-- The coins are initialized and nothing is received yet. -/
def RecordedInit (walletsIds : List UInt32) (coins : UInt64) (s : RecordedState) : Prop :=
  LedgerInit walletsIds coins s.ledger ∧ s.received = []

/-- The transactions of the proposed blocks and of the pool. -/
def LedgerState.transactions (s : LedgerState) : List Transaction :=
  s.proposed.flatMap Block.txs ++ s.v.memoryPool

/-- Every input names a coin the sender began with. -/
def Transaction.InputsFrom (t : Transaction) (first : UTXOlist) : Prop :=
  ∀ i ∈ t.inputs, ∃ u ∈ first, u.outpoint = i ∧ u.output.receiverID = t.walletId

/-- What is spendable on a part of the coins a sender began with. -/
theorem inputsFrom_of_spendable
    {v : Validator} {first : UTXOlist} {t : Transaction}
    (hlists : ∀ w, (UtxoMap.get v.utxoSets w).Sublist
      (first.filter fun u => u.output.receiverID = w))
    (hspend : v.Spendable t) :
    t.InputsFrom first := by
  intro i hi
  have hmem := Transaction.mem_outpoints_of_checkSpendingConditions hspend i hi
  obtain ⟨u, hu, hout⟩ := List.mem_map.mp hmem
  have hfirst := (hlists t.walletId).subset hu
  rw [List.mem_filter] at hfirst
  exact ⟨u, hfirst.1, hout, of_decide_eq_true hfirst.2⟩

variable [Platform]

/-- Signed with the announced key, for coins the sender began with. -/
structure Transaction.SpendsFirstCoins (t : Transaction) (first : UTXOlist) : Prop where
  signed : t.VerifiesUnder t.publicKey
  own : t.InputsFrom first

/-- What every state of a run says of its transactions, with the coins at the beginning. -/
structure Provenance (first : UTXOlist) (s : RecordedState) : Prop where
  lists : ∀ w, (UtxoMap.get s.ledger.v.utxoSets w).Sublist
    (first.filter fun u => u.output.receiverID = w)
  once : s.ledger.transactions.Subperm s.received
  spends : ∀ t ∈ s.ledger.transactions, t.SpendsFirstCoins first
  disjoint : ∀ b ∈ s.ledger.proposed,
    b.txs.Pairwise (Function.onFun List.Disjoint Transaction.inputs)

variable {first : UTXOlist} {s s' : RecordedState} {a : LedgerAction}

theorem provenance_recvTx
    (h : Provenance first s)
    (tx : Transaction) :
    Provenance first
      { ledger := { s.ledger with v := (s.ledger.v.onRecvTx tx).2 }
        received := s.received ++ [tx] } := by
  rcases onRecvTx_cases s.ledger.v tx with ⟨hown, hspend, hv⟩ | ⟨_, hv⟩
  · have htxs : ∀ l : List Transaction,
        l ++ (s.ledger.v.memoryPool ++ [tx]) = l ++ s.ledger.v.memoryPool ++ [tx] :=
      fun l => (List.append_assoc l _ _).symm
    rw [hv]
    refine ⟨h.lists, ?_, ?_, h.disjoint⟩
    · unfold LedgerState.transactions
      rw [htxs]
      exact (List.subperm_append_right [tx]).mpr h.once
    · intro t ht
      unfold LedgerState.transactions at ht
      rw [htxs] at ht
      rcases List.mem_append.mp ht with hold | hnew
      · exact h.spends t hold
      · rw [List.mem_singleton.mp hnew]
        exact ⟨hown, inputsFrom_of_spendable h.lists hspend⟩
  · rw [hv]
    refine ⟨h.lists, ?_, h.spends, h.disjoint⟩
    exact h.once.trans (List.sublist_append_left _ _).subperm

theorem provenance_createAndPropose
    (h : Provenance first s)
    {blk : Block} {v' : Validator}
    (hcreate : s.ledger.v.createBlk {} = .ok (1, blk, v')) :
    Provenance first
      { s with ledger := { s.ledger with v := v', proposed := blk :: s.ledger.proposed } } := by
  obtain ⟨htxs, rfl⟩ := txs_of_createBlk hcreate
  -- the transactions of the new block were in the pool
  have hmoved : (s.ledger.v.selection ++ s.ledger.proposed.flatMap Block.txs).Subperm
      s.ledger.transactions := by
    refine List.Subperm.trans ?_ List.perm_append_comm.subperm
    exact (List.subperm_append_right _).mpr (selection_subperm s.ledger.v)
  have hnew : LedgerState.transactions
      { s.ledger with
        v := { s.ledger.v with memoryPool := [] }
        proposed := blk :: s.ledger.proposed } =
      s.ledger.v.selection ++ s.ledger.proposed.flatMap Block.txs := by
    simp [LedgerState.transactions, htxs]
  refine ⟨h.lists, ?_, ?_, ?_⟩
  · rw [hnew]
    exact hmoved.trans h.once
  · intro t ht
    rw [hnew] at ht
    exact h.spends t (hmoved.subset ht)
  · intro b hb
    rcases List.mem_cons.mp hb with rfl | hb
    · rw [htxs]
      exact selection_pairwise_disjoint s.ledger.v
    · exact h.disjoint b hb

theorem provenance_agree
    (h : Provenance first s)
    {b : Block} {v' : Validator}
    (happly : s.ledger.v.onAgreeBlk b = some v') :
    Provenance first
      { s with ledger := { s.ledger with v := v', applied := b :: s.ledger.applied } } := by
  obtain ⟨m', hm', rfl⟩ := Option.map_eq_some_iff.mp happly
  refine ⟨?_, h.once, h.spends, h.disjoint⟩
  intro w
  exact (foldlM_agreeTransaction_sublist hm' w).trans (h.lists w)

theorem provenance_step
    (h : Provenance first s)
    (hstep : RecordedStep s a s') :
    Provenance first s' := by
  obtain ⟨ledger', received'⟩ := s'
  obtain ⟨hstep, hreceived⟩ := hstep
  subst hreceived
  cases hstep with
  | recvTx tx =>
      exact provenance_recvTx h tx
  | createAndPropose blk v' hcreate =>
      simpa [LedgerAction.received] using provenance_createAndPropose h hcreate
  | accept b hprop hverify =>
      simp only [LedgerAction.received, List.append_nil]
      exact ⟨h.lists, h.once, h.spends, h.disjoint⟩
  | agree b v' hacc happly =>
      simpa [LedgerAction.received] using provenance_agree h happly

theorem provenance_init
    {walletsIds : List UInt32} {coins : UInt64}
    (h : RecordedInit walletsIds coins s) :
    Provenance (Validator.firstCoins { walletsIds := walletsIds } coins) s := by
  obtain ⟨ledger, received⟩ := s
  obtain ⟨hinit, hreceived⟩ := h
  subst hinit
  have hnone : LedgerState.transactions
      { v := Validator.initializeCoins { walletsIds := walletsIds } coins } = [] := rfl
  constructor
  · intro w
    rw [initializeCoins_get]
  · rw [hnone]
    exact List.nil_subperm
  · rw [hnone]
    intro t ht
    cases ht
  · intro b hb
    cases hb

/--
In every state of every run from `InitializeCoins`, every transaction in a
proposed block or in the pool was received, as often as it occurs there, is
signed with the key it announces, and spends coins its sender began with.
-/
theorem provenance_of_reachable
    (walletsIds : List UInt32) (coins : UInt64)
    (s : RecordedState)
    (hrun : Reachable (RecordedInit walletsIds coins) RecordedStep s) :
    Provenance (Validator.firstCoins { walletsIds := walletsIds } coins) s :=
  hrun.invariant (fun _ hinit => provenance_init hinit)
    fun _ _ _ h hstep => provenance_step h hstep

end Records

/-- The only coin is sent once: the transfer is in a block and the pool is empty. -/
theorem provenance_once :
    letI := referencePlatform
    ∃ s : RecordedState, s.received = [selfTransfer 100] ∧
      s.ledger.proposed = [singleBlock (selfTransfer 100)] ∧
      Provenance (Validator.firstCoins { walletsIds := [1] } 10) s := by
  let _ := referencePlatform
  have hstart : Reachable (RecordedInit [1] 10) RecordedStep
      { ledger := { v := oneCoinLeader } } := .start ⟨rfl, rfl⟩
  have hrecv := ledgerStep_recvTx (s := { v := oneCoinLeader })
    (selfTransfer_verifiesUnder 100) (oneCoinLeader_spendable 100)
  have hcreate := ledgerStep_create (s := { v := { oneCoinLeader.updateKeys 1 (selfTransfer 100)
    with memoryPool := [selfTransfer 100] } }) rfl rfl (oneCoinLeader_spendable 100)
  have hreceived : Reachable (RecordedInit [1] 10) RecordedStep
      { ledger := { v := { oneCoinLeader.updateKeys 1 (selfTransfer 100)
          with memoryPool := [selfTransfer 100] } }
        received := [selfTransfer 100] } := hstart.next ⟨hrecv, rfl⟩
  have hproposed : Reachable (RecordedInit [1] 10) RecordedStep
      ⟨_, [selfTransfer 100]⟩ := hreceived.next ⟨hcreate, rfl⟩
  exact ⟨_, rfl, rfl, provenance_of_reachable [1] 10 _ hproposed⟩

end CosiCoin
