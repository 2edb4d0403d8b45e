import CosiCoin.LabelledRuns
import CosiCoin.WalletAuthentication

/-!
# COSICOIN: double spending across blocks

The leader keeps the unspent outputs in `utxoSets`, the nodes verify proposed
blocks against a list that only `InitializeCoins` writes, and transactions wait
in the memory pool.  A run interleaves the reception of transactions, the
creation and proposal of blocks, their acceptance by the nodes and their
application by `OnAgreeBlk` in any order.

`CreateBlk` prevents a double spend inside one block.  Across blocks it relies
on `OnAgreeBlk` having removed the spent coins, which fails in two ways: a block
may be created while an earlier one that spends the same coin is still to be
applied, and `OnAgreeBlk` erases positions of a snapshot from the live list, so
it removes the right coins only when the inputs of each transaction stand in
decreasing order of position.  `noDoubleSpend_of_careful` shows that nothing
else is needed.
-/

namespace CosiCoin

open Validator PositionalErase LabelledRuns

section Descending

/-- The inputs that are found in the list stand in decreasing order of position. -/
def Descending (l : UTXOlist) (inputs : List Input) : Prop :=
  inputs.Pairwise fun i j => ∀ p q, l.index i = some p → l.index j = some q → q ≤ p

theorem index_eq_idxOf
    {l : UTXOlist} {i : Input} {p : Nat}
    (h : l.index i = some p) :
    p = l.outpoints.idxOf i := by
  have hfind := (List.findIdx?_eq_some_iff_findIdx_eq.mp h).2
  rw [List.idxOf, UTXOlist.outpoints, List.findIdx_map]
  exact hfind.symm

theorem spentPositions_pairwise
    {l : UTXOlist} {inputs : List Input}
    (h : Descending l inputs) :
    (spentPositions l inputs).Pairwise (· ≥ ·) := by
  unfold spentPositions
  rw [List.pairwise_filterMap]
  exact h.imp (fun hij p hp q hq => hij p q hp hq)

/-- Erasing coins keeps the order of the others. -/
theorem Descending.of_sublist
    {l l' : UTXOlist} {inputs : List Input}
    (h : Descending l inputs)
    (hsub : l'.Sublist l)
    (hl : l.outpoints.Nodup) :
    Descending l' inputs := by
  refine h.imp ?_
  intro i j hij p' q' hp' hq'
  have hi' : i ∈ l'.outpoints := (UTXOlist.index_isSome_iff l' i).mp ⟨p', hp'⟩
  have hj' : j ∈ l'.outpoints := (UTXOlist.index_isSome_iff l' j).mp ⟨q', hq'⟩
  have hsub' : l'.outpoints.Sublist l.outpoints := hsub.map _
  obtain ⟨p, hp⟩ := (UTXOlist.index_isSome_iff l i).mpr (hsub'.subset hi')
  obtain ⟨q, hq⟩ := (UTXOlist.index_isSome_iff l j).mpr (hsub'.subset hj')
  have hle := hij p q hp hq
  rw [index_eq_idxOf hp, index_eq_idxOf hq] at hle
  rw [index_eq_idxOf hp', index_eq_idxOf hq']
  exact idxOf_le_idxOf_of_sublist hsub' hl hj' hi' hle

/-- After a careful transaction none of its inputs is left with the sender. -/
theorem agreeTransaction_gone
    {m m' : UtxoMap} {t : Transaction}
    (h : agreeTransaction m t = some m')
    (hm : UtxoMap.DistinctOutpoints m)
    (hdesc : Descending (UtxoMap.get m t.walletId) t.inputs)
    {i : Input}
    (hi : i ∈ t.inputs) :
    i ∉ (UtxoMap.get m' t.walletId).outpoints := by
  rw [agreeTransaction_eq_some h, UtxoMap.get_insert_self]
  set l := UtxoMap.get m t.walletId
  intro hleft
  have hin : i ∈ l.outpoints := ((erasePositions_sublist _ _).map _).subset hleft
  obtain ⟨p, hp⟩ := (UTXOlist.index_isSome_iff l i).mpr hin
  obtain ⟨hplt, hpi⟩ := UTXOlist.index_spec hp
  have hmem : p ∈ spentPositions l t.inputs := List.mem_filterMap.mpr ⟨i, hi, hp⟩
  have hgone := getElem_notMem_erasePositions (f := UTXO.outpoint) (hm.1 t.walletId)
    (spentPositions_pairwise hdesc) hmem hplt
  rw [hpi] at hgone
  exact hgone hleft

/-- After a careful block none of its inputs is left with its sender. -/
theorem foldlM_agreeTransaction_gone
    {txs : List Transaction} :
    ∀ {m m' : UtxoMap}, txs.foldlM agreeTransaction m = some m' →
      UtxoMap.DistinctOutpoints m →
      (∀ t ∈ txs, Descending (UtxoMap.get m t.walletId) t.inputs) →
      ∀ t ∈ txs, ∀ i ∈ t.inputs, i ∉ (UtxoMap.get m' t.walletId).outpoints := by
  induction txs with
  | nil =>
      intro m m' _ _ _ t ht
      simp at ht
  | cons t txs ih =>
      intro m m' h hm hdesc u hu i hi
      rw [List.foldlM_cons] at h
      obtain ⟨m₁, hm₁, hrest⟩ := Option.bind_eq_some_iff.mp h
      have hsub := agreeTransaction_sublist hm₁
      rcases List.mem_cons.mp hu with rfl | hu
      · intro hleft
        apply agreeTransaction_gone hm₁ hm (hdesc u (by simp)) hi
        exact ((foldlM_agreeTransaction_sublist hrest u.walletId).map _).subset hleft
      · refine ih hrest (hm.of_sublist hsub) ?_ u hu i hi
        intro s hs
        exact (hdesc s (List.mem_cons_of_mem _ hs)).of_sublist (hsub s.walletId)
          (hm.1 s.walletId)

end Descending

section CreateBlk

theorem Block.mem_inputs
    {b : Block} {i : Input} :
    i ∈ b.inputs ↔ ∃ t ∈ b.txs, i ∈ t.inputs := by
  simp [Block.inputs]

/-- The transactions of a created block come from the pool and are spendable. -/
theorem createLoop_mem
    {v : Validator} {pool : List Transaction} :
    ∀ {bx bx' : Block}, createLoop v pool bx = .ok bx' →
      ∀ t ∈ bx'.txs, t ∈ bx.txs ∨ (t ∈ pool ∧ v.Spendable t) := by
  induction pool with
  | nil =>
      intro bx bx' h t ht
      obtain rfl := Except.ok.inj h
      exact Or.inl ht
  | cons cur rest ih =>
      intro bx bx' h t ht
      unfold createLoop at h
      split_ifs at h with hspend hconsist
      · rcases ih h t ht with hin | ⟨hrest, hs⟩
        · exact Or.inl hin
        · exact Or.inr ⟨List.mem_cons_of_mem _ hrest, hs⟩
      · rcases ih h t ht with hin | ⟨hrest, hs⟩
        · exact Or.inl hin
        · exact Or.inr ⟨List.mem_cons_of_mem _ hrest, hs⟩
      · cases hadd : bx.addTransaction cur with
        | error e =>
            rw [hadd] at h
            cases h
        | ok bx₁ =>
            rw [hadd] at h
            rcases ih h t ht with hin | ⟨hrest, hs⟩
            · unfold Block.addTransaction at hadd
              split_ifs at hadd
              obtain rfl := Except.ok.inj hadd
              rcases List.mem_append.mp hin with hin | hcur
              · exact Or.inl hin
              · rw [List.mem_singleton.mp hcur]
                exact Or.inr ⟨by simp, by simpa [Validator.Spendable] using hspend⟩
            · exact Or.inr ⟨List.mem_cons_of_mem _ hrest, hs⟩

/-- What `CreateBlk` returns from a fresh block. -/
theorem createBlk_eq_ok
    [Platform]
    {v v' : Validator} {blk : Block}
    (h : v.createBlk {} = .ok (1, blk, v')) :
    v' = { v with memoryPool := [] } ∧
    ∀ t ∈ blk.txs, t ∈ v.memoryPool ∧ v.Spendable t := by
  unfold createBlk at h
  split_ifs at h with hl hpool
  · have hzero := congrArg Prod.fst (Except.ok.inj h)
    simp at hzero
  · cases hloop : createLoop v v.memoryPool.reverse {} with
    | error e =>
        rw [hloop] at h
        cases h
    | ok bx =>
        rw [hloop] at h
        cases hfin : bx.finalize with
        | error e =>
            simp only [bind, Except.bind, hfin] at h
            cases h
        | ok bx' =>
            simp only [bind, Except.bind, hfin, pure, Except.pure, Except.ok.injEq,
              Prod.mk.injEq, true_and] at h
            obtain ⟨rfl, rfl⟩ := h
            refine ⟨rfl, ?_⟩
            intro t ht
            have htx : bx'.txs = bx.txs := by
              unfold Block.finalize at hfin
              split_ifs at hfin
              rw [← Except.ok.inj hfin]
            rw [htx] at ht
            rcases createLoop_mem hloop t ht with hin | ⟨hin, hs⟩
            · simp at hin
            · exact ⟨List.mem_reverse.mp hin, hs⟩

end CreateBlk

section InitializeCoins

/-- A fresh outpoint may be added to the list of any wallet. -/
theorem DistinctOutpoints.insert_append
    {m : UtxoMap} {u : UTXO}
    (hm : UtxoMap.DistinctOutpoints m)
    (hfresh : ∀ w, u.outpoint ∉ (UtxoMap.get m w).outpoints)
    (id : UInt32) :
    UtxoMap.DistinctOutpoints (m.insert id (UtxoMap.get m id ++ [u])) := by
  have hmem : ∀ w i, i ∈ (UtxoMap.get (m.insert id (UtxoMap.get m id ++ [u])) w).outpoints →
      i ∈ (UtxoMap.get m w).outpoints ∨ (i = u.outpoint ∧ w = id) := by
    intro w i hi
    by_cases hw : w = id
    · subst hw
      rw [UtxoMap.get_insert_self] at hi
      simp only [UTXOlist.outpoints, List.map_append, List.map_cons, List.map_nil,
        List.mem_append, List.mem_singleton] at hi
      rcases hi with hi | hi
      · exact Or.inl hi
      · exact Or.inr ⟨hi, rfl⟩
    · rw [UtxoMap.get_insert_of_ne _ _ hw] at hi
      exact Or.inl hi
  refine ⟨?_, ?_⟩
  · intro w
    by_cases hw : w = id
    · subst hw
      rw [UtxoMap.get_insert_self]
      simp only [UTXOlist.outpoints, List.map_append, List.map_cons, List.map_nil]
      refine (hm.1 w).append (List.nodup_singleton _) ?_
      rw [List.disjoint_singleton]
      exact hfresh w
    · rw [UtxoMap.get_insert_of_ne _ _ hw]
      exact hm.1 w
  · intro w w' i hi hi'
    rcases hmem w i hi with hold | ⟨rfl, rfl⟩
    · rcases hmem w' i hi' with hold' | ⟨rfl, rfl⟩
      · exact hm.2 w w' i hold hold'
      · exact absurd hold (hfresh w)
    · rcases hmem w' _ hi' with hold' | ⟨_, rfl⟩
      · exact absurd hold' (hfresh w')
      · rfl

/-- The numbers given by `InitializeCoins` do not repeat while they fit in 32 bits. -/
theorem initLoop_distinctOutpoints
    (coins : UInt64)
    (ids : List UInt32) :
    ∀ (k : Nat) (m : UtxoMap) (l : UTXOlist), k + ids.length ≤ 2 ^ 32 →
      UtxoMap.DistinctOutpoints m →
      (∀ w, ∀ i ∈ (UtxoMap.get m w).outpoints, i.txID.toNat < k) →
      UtxoMap.DistinctOutpoints (initLoop coins ids (UInt32.ofNat k) m l).1 := by
  induction ids with
  | nil =>
      intro k m l _ hm _
      exact hm
  | cons id ids ih =>
      intro k m l hk hm hlt
      rw [List.length_cons] at hk
      have hnext : UInt32.ofNat k + 1 = UInt32.ofNat (k + 1) := by
        rw [UInt32.ofNat_add]
        rfl
      have htoNat : (UInt32.ofNat k).toNat = k := by
        rw [UInt32.toNat_ofNat']
        omega
      unfold initLoop
      rw [hnext]
      refine ih (k + 1) _ _ (by omega) ?_ ?_
      · refine DistinctOutpoints.insert_append hm ?_ id
        intro w hin
        have := hlt w _ hin
        simp only [UTXO.outpoint, htoNat] at this
        omega
      · intro w i hi
        by_cases hw : w = id
        · subst hw
          rw [UtxoMap.get_insert_self] at hi
          simp only [UTXOlist.outpoints, List.map_append, List.map_cons, List.map_nil,
            List.mem_append, List.mem_singleton] at hi
          rcases hi with hi | rfl
          · have := hlt w i hi
            omega
          · simp only [UTXO.outpoint, htoNat]
            omega
        · rw [UtxoMap.get_insert_of_ne _ _ hw] at hi
          have := hlt w i hi
          omega

end InitializeCoins

section Runs

/-- A validator with its blocks on the way through consensus. -/
structure LedgerState where
  v : Validator
  proposed : List Block := []
  accepted : List Block := []
  applied : List Block := []

/-- The steps of the leader and the nodes. -/
inductive LedgerAction where
  | recvTx (tx : Transaction)
  | createAndPropose
  | accept (b : Block)
  | agree (b : Block)

/-- One step of a run. -/
inductive LedgerStep [Platform] : LedgerState → LedgerAction → LedgerState → Prop
  | recvTx
      (s : LedgerState) (tx : Transaction) :
      LedgerStep s (.recvTx tx) { s with v := (s.v.onRecvTx tx).2 }
  | createAndPropose
      (s : LedgerState) (blk : Block) (v' : Validator)
      (hcreate : s.v.createBlk {} = .ok (1, blk, v')) :
      LedgerStep s .createAndPropose { s with v := v', proposed := blk :: s.proposed }
  | accept
      (s : LedgerState) (b : Block)
      (hprop : b ∈ s.proposed)
      (hverify : b.verify s.v.nodeUtxolist s.v.nodeWalletIds = true) :
      LedgerStep s (.accept b) { s with accepted := b :: s.accepted }
  | agree
      (s : LedgerState) (b : Block) (v' : Validator)
      (hacc : b ∈ s.accepted)
      (happly : s.v.onAgreeBlk b = some v') :
      LedgerStep s (.agree b) { s with v := v', applied := b :: s.applied }

/-- A leader that has just initialized the coins of its wallets. -/
def LedgerInit (walletsIds : List UInt32) (coins : UInt64) (s : LedgerState) : Prop :=
  s = { v := Validator.initializeCoins { walletsIds := walletsIds } coins }

/-- No outpoint is an input of two different accepted blocks. -/
def NoDoubleSpend (s : LedgerState) : Prop :=
  ∀ b ∈ s.accepted, ∀ b' ∈ s.accepted, b ≠ b' → ∀ i ∈ b.inputs, i ∉ b'.inputs

/--
The condition on a step: a block is created only when the pool spends no input
of an acceptable block that is still to be applied, and a block is applied only
when the inputs of each of its transactions stand in decreasing order of
position in the sender's list.
-/
def Careful (s : LedgerState) : LedgerAction → Prop
  | .createAndPropose =>
      ∀ b ∈ s.proposed, b ∉ s.applied →
        b.verify s.v.nodeUtxolist s.v.nodeWalletIds = true →
        ∀ t ∈ s.v.memoryPool, ∀ i ∈ t.inputs, i ∉ b.inputs
  | .agree b => ∀ t ∈ b.txs, Descending (UtxoMap.get s.v.utxoSets t.walletId) t.inputs
  | _ => True

/-- The views of the unspent coins stay in step. -/
structure LedgerInv (s : LedgerState) : Prop where
  distinct : UtxoMap.DistinctOutpoints s.v.utxoSets
  owned : ∀ b ∈ s.proposed, ∀ t ∈ b.txs, ∀ i ∈ t.inputs, ∀ w,
    i ∈ (UtxoMap.get s.v.utxoSets w).outpoints → w = t.walletId
  gone : ∀ b ∈ s.applied, ∀ i ∈ b.inputs, ∀ w, i ∉ (UtxoMap.get s.v.utxoSets w).outpoints
  accepted_proposed : ∀ b ∈ s.accepted, b ∈ s.proposed ∧
    b.verify s.v.nodeUtxolist s.v.nodeWalletIds = true
  disjoint : ∀ b ∈ s.proposed, ∀ b' ∈ s.proposed,
    b.verify s.v.nodeUtxolist s.v.nodeWalletIds = true →
    b'.verify s.v.nodeUtxolist s.v.nodeWalletIds = true →
    b ≠ b' → ∀ i ∈ b.inputs, i ∉ b'.inputs

/-- Receiving a transaction changes neither the coins nor the blocks. -/
theorem ledgerInv_recvTx
    [Platform]
    {s : LedgerState}
    (h : LedgerInv s)
    (tx : Transaction) :
    LedgerInv { s with v := (s.v.onRecvTx tx).2 } := by
  have hsame :
      (s.v.onRecvTx tx).2.utxoSets = s.v.utxoSets ∧
      (s.v.onRecvTx tx).2.nodeUtxolist = s.v.nodeUtxolist ∧
      (s.v.onRecvTx tx).2.nodeWalletIds = s.v.nodeWalletIds := by
    rcases onRecvTx_cases s.v tx with ⟨_, _, hv⟩ | ⟨_, hv⟩
    · rw [hv]
      exact ⟨rfl, rfl, rfl⟩
    · rw [hv]
      exact ⟨rfl, rfl, rfl⟩
  obtain ⟨hu, hn, hw⟩ := hsame
  constructor
  · simpa only [hu] using h.distinct
  · simpa only [hu] using h.owned
  · simpa only [hu] using h.gone
  · simpa only [hn, hw] using h.accepted_proposed
  · simpa only [hn, hw] using h.disjoint

/-- A block created carefully shares no input with an acceptable earlier block. -/
theorem created_disjoint
    {s : LedgerState}
    (h : LedgerInv s)
    (hcare : Careful s .createAndPropose)
    {blk : Block}
    (hblk : ∀ t ∈ blk.txs, t ∈ s.v.memoryPool ∧ s.v.Spendable t)
    {b : Block}
    (hb : b ∈ s.proposed)
    (hverify : b.verify s.v.nodeUtxolist s.v.nodeWalletIds = true)
    {i : Input}
    (hi : i ∈ blk.inputs) :
    i ∉ b.inputs := by
  obtain ⟨t, ht, hit⟩ := Block.mem_inputs.mp hi
  obtain ⟨hpool, hspend⟩ := hblk t ht
  by_cases happ : b ∈ s.applied
  · intro hib
    exact h.gone b happ i hib t.walletId
      (Transaction.mem_outpoints_of_checkSpendingConditions hspend i hit)
  · exact hcare b hb happ hverify t hpool i hit

theorem ledgerInv_createAndPropose
    [Platform]
    {s : LedgerState} {blk : Block} {v' : Validator}
    (h : LedgerInv s)
    (hcare : Careful s .createAndPropose)
    (hcreate : s.v.createBlk {} = .ok (1, blk, v')) :
    LedgerInv { s with v := v', proposed := blk :: s.proposed } := by
  obtain ⟨rfl, hblk⟩ := createBlk_eq_ok hcreate
  constructor
  · exact h.distinct
  · intro b hb t ht i hi w hw
    rcases List.mem_cons.mp hb with rfl | hb
    · exact h.distinct.2 w t.walletId i hw
        (Transaction.mem_outpoints_of_checkSpendingConditions (hblk t ht).2 i hi)
    · exact h.owned b hb t ht i hi w hw
  · exact h.gone
  · intro b hb
    obtain ⟨hp, hv⟩ := h.accepted_proposed b hb
    exact ⟨List.mem_cons_of_mem _ hp, hv⟩
  · intro b hb b' hb' hv hv' hne i hi
    rcases List.mem_cons.mp hb with hnew | hold
    · subst hnew
      rcases List.mem_cons.mp hb' with hnew' | hold'
      · exact absurd hnew'.symm hne
      · exact created_disjoint h hcare hblk hold' hv' hi
    · rcases List.mem_cons.mp hb' with hnew' | hold'
      · subst hnew'
        intro hi'
        exact created_disjoint h hcare hblk hold hv hi' hi
      · exact h.disjoint b hold b' hold' hv hv' hne i hi

theorem ledgerInv_accept
    {s : LedgerState} {b : Block}
    (h : LedgerInv s)
    (hprop : b ∈ s.proposed)
    (hverify : b.verify s.v.nodeUtxolist s.v.nodeWalletIds = true) :
    LedgerInv { s with accepted := b :: s.accepted } := by
  refine ⟨h.distinct, h.owned, h.gone, ?_, h.disjoint⟩
  intro b' hb'
  rcases List.mem_cons.mp hb' with rfl | hb'
  · exact ⟨hprop, hverify⟩
  · exact h.accepted_proposed b' hb'

theorem ledgerInv_agree
    {s : LedgerState} {b : Block} {v' : Validator}
    (h : LedgerInv s)
    (hcare : Careful s (.agree b))
    (hacc : b ∈ s.accepted)
    (happly : s.v.onAgreeBlk b = some v') :
    LedgerInv { s with v := v', applied := b :: s.applied } := by
  obtain ⟨m', hm', rfl⟩ := Option.map_eq_some_iff.mp happly
  have hsub := foldlM_agreeTransaction_sublist hm'
  have hback : ∀ w i, i ∈ (UtxoMap.get m' w).outpoints →
      i ∈ (UtxoMap.get s.v.utxoSets w).outpoints := by
    intro w i hi
    exact ((hsub w).map _).subset hi
  constructor
  · exact h.distinct.of_sublist hsub
  · intro b' hb' t ht i hi w hw
    exact h.owned b' hb' t ht i hi w (hback w i hw)
  · intro b' hb' i hi w hw
    rcases List.mem_cons.mp hb' with rfl | hb'
    · obtain ⟨t, ht, hit⟩ := Block.mem_inputs.mp hi
      have hw' : w = t.walletId :=
        h.owned b' (h.accepted_proposed b' hacc).1 t ht i hit w (hback w i hw)
      subst hw'
      exact foldlM_agreeTransaction_gone hm' h.distinct hcare t ht i hit hw
    · exact h.gone b' hb' i hi w (hback w i hw)
  · exact h.accepted_proposed
  · exact h.disjoint

theorem ledgerInv_step
    [Platform]
    (s : LedgerState) (a : LedgerAction) (s' : LedgerState)
    (h : LedgerInv s)
    (hstep : Guarded Careful LedgerStep s a s') :
    LedgerInv s' := by
  obtain ⟨hcare, hstep⟩ := hstep
  cases hstep with
  | recvTx tx =>
      exact ledgerInv_recvTx h tx
  | createAndPropose blk v' hcreate =>
      exact ledgerInv_createAndPropose h hcare hcreate
  | accept b hprop hverify =>
      exact ledgerInv_accept h hprop hverify
  | agree b v' hacc happly =>
      exact ledgerInv_agree h hcare hacc happly

theorem ledgerInv_init
    {walletsIds : List UInt32} {coins : UInt64}
    (hlen : walletsIds.length ≤ 2 ^ 32)
    (s : LedgerState)
    (h : LedgerInit walletsIds coins s) :
    LedgerInv s := by
  subst h
  have hempty : ∀ w, UtxoMap.get ∅ w = [] := fun _ => rfl
  constructor
  · refine initLoop_distinctOutpoints coins walletsIds 0 ∅ [] (by omega) ?_ ?_
    · constructor
      · intro w
        simp [hempty, UTXOlist.outpoints]
      · intro w w' i hi
        simp [hempty, UTXOlist.outpoints] at hi
    · intro w i hi
      simp [hempty, UTXOlist.outpoints] at hi
  all_goals
    intro b hb
    cases hb

/--
In a run from `InitializeCoins` with at most `2 ^ 32` wallets whose steps are
all careful, no outpoint is spent by two different accepted blocks.
-/
theorem noDoubleSpend_of_careful
    [Platform]
    (walletsIds : List UInt32) (coins : UInt64)
    (hlen : walletsIds.length ≤ 2 ^ 32)
    (s : LedgerState)
    (hrun : Reachable (LedgerInit walletsIds coins) (Guarded Careful LedgerStep) s) :
    NoDoubleSpend s := by
  have hinv : LedgerInv s :=
    hrun.invariant (ledgerInv_init hlen) ledgerInv_step
  intro b hb b' hb' hne
  obtain ⟨hp, hv⟩ := hinv.accepted_proposed b hb
  obtain ⟨hp', hv'⟩ := hinv.accepted_proposed b' hb'
  exact hinv.disjoint b hp b' hp' hv hv' hne

end Runs

section OneCoinRuns

variable [Platform]

/-- The block `CreateBlk` makes of a pool with one spendable transaction. -/
def singleBlock (tx : Transaction) : Block :=
  { txs := [tx], isMutable := false, header := Header.calculateMerkleRoot {} [tx] }

theorem ledgerStep_recvTx
    {s : LedgerState} {tx : Transaction}
    (hown : tx.VerifiesUnder tx.publicKey)
    (hspend : s.v.Spendable tx) :
    LedgerStep s (.recvTx tx)
      { s with
        v := { s.v.updateKeys tx.walletId tx with memoryPool := s.v.memoryPool ++ [tx] } } := by
  have hstep := LedgerStep.recvTx s tx
  rcases onRecvTx_cases s.v tx with ⟨_, _, hv⟩ | ⟨hn, _⟩
  · rw [hv] at hstep
    exact hstep
  · exact absurd ⟨hown, hspend⟩ hn

theorem ledgerStep_create
    {s : LedgerState} {tx : Transaction}
    (hleader : s.v.isLeader = true)
    (hpool : s.v.memoryPool = [tx])
    (hspend : s.v.Spendable tx) :
    LedgerStep s .createAndPropose
      { s with
        v := { s.v with memoryPool := [] }
        proposed := singleBlock tx :: s.proposed } := by
  refine LedgerStep.createAndPropose s (singleBlock tx) _ ?_
  unfold createBlk
  rw [Validator.Spendable] at hspend
  simp [hleader, hpool, createLoop, hspend, Block.verifyTxConsist, Block.addTransaction,
    Block.finalize, singleBlock, bind, Except.bind, pure, Except.pure]

/-- The coin of wallet 1 sent back to wallet 1, under a given transaction number. -/
def selfTransfer (txID : UInt32) : Transaction :=
  Transaction.signedWith
    { inputs := [⟨0, 0⟩], outputs := [⟨10, 1⟩], senderID := 1, txID := txID }
    (uniformKey 1)

theorem selfTransfer_verifiesUnder
    (txID : UInt32) :
    (selfTransfer txID).VerifiesUnder (selfTransfer txID).publicKey :=
  signedWith_verifiesUnder _ (uniformKey_wellFormed 1)

/-- Wallet 1 holds the only coin, of value 10. -/
def oneCoinLeader : Validator :=
  Validator.initializeCoins { walletsIds := [1] } 10

/-- The first transfer of the coin is in an accepted block that is not applied yet. -/
def onceAccepted : LedgerState where
  v := oneCoinLeader.updateKeys 1 (selfTransfer 100)
  proposed := [singleBlock (selfTransfer 100)]
  accepted := [singleBlock (selfTransfer 100)]

theorem selfTransfer_checkSpendingConditions
    (txID : UInt32) :
    (selfTransfer txID).checkSpendingConditions [⟨0, 0, ⟨10, 1⟩⟩] [1] = true := by
  rw [selfTransfer, checkSpendingConditions_signedWith]
  rfl

theorem oneCoinLeader_spendable
    (txID : UInt32) :
    oneCoinLeader.Spendable (selfTransfer txID) := by
  have hget : UtxoMap.get oneCoinLeader.utxoSets (selfTransfer txID).walletId =
      [⟨0, 0, ⟨10, 1⟩⟩] := rfl
  unfold Validator.Spendable
  rw [hget]
  exact selfTransfer_checkSpendingConditions txID

theorem oneCoinLeader_verify
    (txID : UInt32) :
    (singleBlock (selfTransfer txID)).verify oneCoinLeader.nodeUtxolist
      oneCoinLeader.nodeWalletIds = true := by
  have hsame : (singleBlock (selfTransfer txID)).txs = [selfTransfer txID] := rfl
  show (singleBlock (selfTransfer txID)).verify [⟨0, 0, ⟨10, 1⟩⟩] [1] = true
  unfold Block.verify
  simp only [hsame, List.all_cons, selfTransfer_checkSpendingConditions]
  rfl

/-- Nothing is proposed before the first transfer, so its steps are careful. -/
theorem onceAccepted_reachable :
    Reachable (LedgerInit [1] 10) (Guarded Careful LedgerStep) onceAccepted := by
  have hstart : Reachable (LedgerInit [1] 10) (Guarded Careful LedgerStep)
      { v := oneCoinLeader } := .start rfl
  have hrecv := ledgerStep_recvTx (s := { v := oneCoinLeader })
    (selfTransfer_verifiesUnder 100) (oneCoinLeader_spendable 100)
  have hcreate := ledgerStep_create (s := { v := { oneCoinLeader.updateKeys 1 (selfTransfer 100)
    with memoryPool := [selfTransfer 100] } }) rfl rfl (oneCoinLeader_spendable 100)
  have haccept := LedgerStep.accept
    { v := oneCoinLeader.updateKeys 1 (selfTransfer 100)
      proposed := [singleBlock (selfTransfer 100)] }
    (singleBlock (selfTransfer 100)) (List.mem_singleton.mpr rfl) (oneCoinLeader_verify 100)
  have hcare : Careful { v := { oneCoinLeader.updateKeys 1 (selfTransfer 100)
      with memoryPool := [selfTransfer 100] } } .createAndPropose := by
    intro b hb
    cases hb
  exact ((hstart.next_guarded hrecv trivial).next_guarded hcreate hcare).next_guarded haccept trivial

/-- The accepted transfer has a single input, so it is applied carefully. -/
theorem onceApplied_reachable :
    ∃ v', Reachable (LedgerInit [1] 10) (Guarded Careful LedgerStep)
      { onceAccepted with v := v', applied := [singleBlock (selfTransfer 100)] } := by
  have happly : (onceAccepted.v.onAgreeBlk (singleBlock (selfTransfer 100))).isSome = true := by
    rfl
  obtain ⟨v', hv'⟩ := Option.isSome_iff_exists.mp happly
  have hcare : Careful onceAccepted (.agree (singleBlock (selfTransfer 100))) := by
    intro t ht
    rw [List.mem_singleton.mp ht]
    exact List.pairwise_singleton _ _
  exact ⟨v', onceAccepted_reachable.next
    ⟨hcare, LedgerStep.agree onceAccepted _ v' (List.mem_singleton.mpr rfl) hv'⟩⟩

end OneCoinRuns

/--
The coin of wallet 1 is sent twice: the second block is created before the
first one is applied, and both are accepted.
-/
theorem two_accepted_blocks_spend_one_coin :
    letI := referencePlatform
    ∃ s : LedgerState, Reachable (LedgerInit [1] 10) LedgerStep s ∧ ¬ NoDoubleSpend s := by
  let _ := referencePlatform
  have honce : Reachable (LedgerInit [1] 10) LedgerStep onceAccepted :=
    onceAccepted_reachable.mono fun _ _ _ h => h.2
  have hrecv := honce.next
    (ledgerStep_recvTx (selfTransfer_verifiesUnder 101) (oneCoinLeader_spendable 101))
  have hcreate := hrecv.next (ledgerStep_create rfl rfl (oneCoinLeader_spendable 101))
  have htwice := hcreate.next (LedgerStep.accept _ (singleBlock (selfTransfer 101))
    (by simp) (oneCoinLeader_verify 101))
  refine ⟨_, htwice, ?_⟩
  intro hsafe
  have hne : singleBlock (selfTransfer 101) ≠ singleBlock (selfTransfer 100) := by
    intro heq
    have hids := congrArg (fun b => b.txs.map Transaction.txID) heq
    simp [singleBlock, selfTransfer, Transaction.signedWith] at hids
  have hin : ∀ txID, (⟨0, 0⟩ : Input) ∈ (singleBlock (selfTransfer txID)).inputs := by
    intro txID
    simp [singleBlock, selfTransfer, Transaction.signedWith, Block.inputs]
  exact hsafe _ (by simp) _ (by simp [onceAccepted]) hne ⟨0, 0⟩ (hin 101) (hin 100)

/-- A careful run that accepts and applies a block. -/
theorem noDoubleSpend_once :
    letI := referencePlatform
    ∃ s : LedgerState, singleBlock (selfTransfer 100) ∈ s.accepted ∧
      singleBlock (selfTransfer 100) ∈ s.applied ∧ NoDoubleSpend s := by
  let _ := referencePlatform
  obtain ⟨v', hrun⟩ := onceApplied_reachable
  exact ⟨_, by simp [onceAccepted], by simp,
    noDoubleSpend_of_careful [1] 10 (by decide) _ hrun⟩

end CosiCoin
