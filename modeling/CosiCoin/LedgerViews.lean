import CosiCoin.LabelledRuns
import CosiCoin.ValidatorLedger

/-!
# COSICOIN: the three copies of the ledger

A validator keeps the coins of the wallets in `utxo_sets_`, its node verifies
blocks against a flat list of its own, and the server hands a third copy to the
wallets.  `InitializeCoins` writes all three.  `OnAgreeBlk` changes the first
one only and `OnSyncReply` copies it to the server; nothing writes the list of
the node again.

So the copies agree exactly as long as no applied block takes a coin from its
sender (`oneView_iff`): `OnAgreeBlk` never adds a coin, and a coin that is gone
from `utxo_sets_` stays in the node's list.
-/

namespace CosiCoin

open Validator PositionalErase LabelledRuns

section Union

/-- The coins of one wallet and those of the others. -/
theorem flatMap_perm_kerase
    (w : UInt32)
    (l : List (Sigma fun _ : UInt32 => UTXOlist)) :
    (l.flatMap fun e => e.2).Perm
      ((l.dlookup w).getD [] ++ (l.kerase w).flatMap fun e => e.2) := by
  induction l with
  | nil =>
      exact List.Perm.refl _
  | cons e l ih =>
      obtain ⟨k, c⟩ := e
      by_cases hk : w = k
      · subst hk
        simp [List.dlookup_cons_eq]
      · rw [List.dlookup_cons_ne l ⟨k, c⟩ hk, List.kerase_cons_ne hk]
        simp only [List.flatMap_cons]
        refine (ih.append_left c).trans ?_
        rw [← List.append_assoc, ← List.append_assoc]
        exact List.perm_append_comm.append_right _

namespace UtxoMap

/-- The coins of all wallets but one. -/
def others (m : UtxoMap) (w : UInt32) : UTXOlist :=
  (m.entries.kerase w).flatMap fun e => e.2

theorem all_perm
    (m : UtxoMap) (w : UInt32) :
    (all m).Perm (UtxoMap.get m w ++ others m w) :=
  flatMap_perm_kerase w m.entries

theorem all_insert
    (m : UtxoMap) (w : UInt32) (l : UTXOlist) :
    all (m.insert w l) = l ++ others m w := by
  simp [all, others, AList.entries_insert]

end UtxoMap

end Union

section Application

variable {m m' : UtxoMap}

/-- The transaction names no coin of its sender. -/
def Transaction.TakesNothing (t : Transaction) (m : UtxoMap) : Prop :=
  ∀ i ∈ t.inputs, i ∉ (UtxoMap.get m t.walletId).outpoints

/-- A transaction that names no coin of its sender changes no list. -/
theorem agreeTransaction_of_takesNothing
    {t : Transaction}
    (h : agreeTransaction m t = some m')
    (hnone : t.TakesNothing m) :
    (∀ w, UtxoMap.get m' w = UtxoMap.get m w) ∧
      (UtxoMap.all m').Perm (UtxoMap.all m) := by
  have hpositions : spentPositions (UtxoMap.get m t.walletId) t.inputs = [] := by
    rw [spentPositions, List.filterMap_eq_nil_iff]
    intro i hi
    exact (UTXOlist.index_eq_none_iff _ i).mpr (hnone i hi)
  have hm' := agreeTransaction_eq_some h
  rw [hpositions, erasePositions_nil] at hm'
  subst hm'
  refine ⟨?_, ?_⟩
  · intro w
    by_cases hw : w = t.walletId
    · subst hw
      rw [UtxoMap.get_insert_self]
    · rw [UtxoMap.get_insert_of_ne _ _ hw]
  · rw [UtxoMap.all_insert]
    exact (UtxoMap.all_perm m t.walletId).symm

theorem agreeTransaction_length_le
    {t : Transaction}
    (h : agreeTransaction m t = some m') :
    (UtxoMap.all m').length ≤ (UtxoMap.all m).length := by
  rw [agreeTransaction_eq_some h, UtxoMap.all_insert, (UtxoMap.all_perm m t.walletId).length_eq]
  simp only [List.length_append]
  exact Nat.add_le_add_right (erasePositions_sublist _ _).length_le _

/-- A coin that a transaction names is taken, or another one in its place. -/
theorem agreeTransaction_length_lt
    {t : Transaction}
    (h : agreeTransaction m t = some m')
    (htakes : ¬ t.TakesNothing m) :
    (UtxoMap.all m').length < (UtxoMap.all m).length := by
  simp only [Transaction.TakesNothing, not_forall, not_not] at htakes
  obtain ⟨i, hi, hin⟩ := htakes
  obtain ⟨p, hp⟩ := (UTXOlist.index_isSome_iff _ i).mpr hin
  obtain ⟨hplt, _⟩ := UTXOlist.index_spec hp
  have hmem : p ∈ spentPositions (UtxoMap.get m t.walletId) t.inputs :=
    List.mem_filterMap.mpr ⟨i, hi, hp⟩
  rw [agreeTransaction_eq_some h, UtxoMap.all_insert, (UtxoMap.all_perm m t.walletId).length_eq]
  simp only [List.length_append]
  exact Nat.add_lt_add_right (length_erasePositions_lt hmem hplt) _

/-- A block either leaves the union of all lists alone or makes it shorter. -/
theorem foldlM_agreeTransaction_cases
    {txs : List Transaction} :
    ∀ {m : UtxoMap}, txs.foldlM agreeTransaction m = some m' →
      ((∀ t ∈ txs, t.TakesNothing m) → (UtxoMap.all m').Perm (UtxoMap.all m)) ∧
      (UtxoMap.all m').length ≤ (UtxoMap.all m).length ∧
      ((¬ ∀ t ∈ txs, t.TakesNothing m) → (UtxoMap.all m').length < (UtxoMap.all m).length) := by
  induction txs with
  | nil =>
      intro m h
      obtain rfl := Option.some.inj h
      refine ⟨fun _ => List.Perm.refl _, le_refl _, ?_⟩
      intro htakes
      exact absurd (fun t ht => absurd ht List.not_mem_nil) htakes
  | cons t txs ih =>
      intro m h
      rw [List.foldlM_cons] at h
      obtain ⟨m₁, hm₁, h⟩ := Option.bind_eq_some_iff.mp h
      obtain ⟨hperm, hle, hlt⟩ := ih h
      have hle₁ := agreeTransaction_length_le hm₁
      by_cases hnone : t.TakesNothing m
      · obtain ⟨hget, hperm₁⟩ := agreeTransaction_of_takesNothing hm₁ hnone
        have hsame : (∀ s ∈ txs, s.TakesNothing m₁) ↔ ∀ s ∈ txs, s.TakesNothing m := by
          simp only [Transaction.TakesNothing, hget]
        refine ⟨?_, hle.trans hle₁, ?_⟩
        · intro hall
          exact (hperm (hsame.mpr (List.forall_mem_cons.mp hall).2)).trans hperm₁
        · intro htakes
          have hrest : ¬ ∀ s ∈ txs, s.TakesNothing m₁ := by
            intro hall
            exact htakes (List.forall_mem_cons.mpr ⟨hnone, hsame.mp hall⟩)
          exact lt_of_lt_of_le (hlt hrest) hle₁
      · have hlt₁ := agreeTransaction_length_lt hm₁ hnone
        refine ⟨?_, hle.trans hle₁, fun _ => lt_of_le_of_lt hle hlt₁⟩
        intro hall
        exact absurd (hall t List.mem_cons_self) hnone

end Application

section Initialization

/-- `InitializeCoins` gives every coin to a wallet and to the node. -/
theorem initLoop_perm
    (coins : UInt64)
    (ids : List UInt32) :
    ∀ (initTX : UInt32) (m : UtxoMap) (l : UTXOlist), (UtxoMap.all m).Perm l →
      (UtxoMap.all (initLoop coins ids initTX m l).1).Perm (initLoop coins ids initTX m l).2 := by
  induction ids with
  | nil =>
      intro initTX m l h
      exact h
  | cons id ids ih =>
      intro initTX m l h
      unfold initLoop
      apply ih
      rw [UtxoMap.all_insert, List.append_assoc]
      have hsplit := (UtxoMap.all_perm m id).symm.trans h
      refine (List.perm_append_comm.append_left _).trans ?_
      rw [← List.append_assoc]
      exact hsplit.append_right _

end Initialization

section Runs

/-- A validator, and whether `OnSyncReply` was the last step. -/
structure ViewState where
  v : Validator
  synced : Bool := false

/-- The steps that write a copy of the ledger. -/
inductive ViewAction where
  | agree (b : Block)
  | sync

/-- One step of a run. -/
inductive ViewStep : ViewState → ViewAction → ViewState → Prop
  | agree
      (s : ViewState) (b : Block) (v' : Validator)
      (hverify : b.verify s.v.nodeUtxolist s.v.nodeWalletIds = true)
      (happly : s.v.onAgreeBlk b = some v') :
      ViewStep s (.agree b) { v := v', synced := false }
  | sync
      (s : ViewState) :
      ViewStep s .sync { v := s.v.onSyncReply, synced := true }

/-- A validator without coins has just called `InitializeCoins`. -/
def ViewInit (s : ViewState) : Prop :=
  ∃ (v : Validator) (coins : UInt64), v.utxoSets = ∅ ∧ s = { v := v.initializeCoins coins }

/--
The copies agree as multisets: that of the validator and that of the node, and
right after `OnSyncReply` that of the server.
-/
def OneView (s : ViewState) : Prop :=
  (UtxoMap.all s.v.utxoSets).Perm s.v.nodeUtxolist ∧
    (s.synced = true → (UtxoMap.all s.v.serverUtxolists).Perm s.v.nodeUtxolist)

/-- The condition on a step: no transaction of an applied block names a coin of its sender. -/
def TakesNoCoin (s : ViewState) : ViewAction → Prop
  | .agree b => ∀ t ∈ b.txs, t.TakesNothing s.v.utxoSets
  | .sync => True

theorem oneView_init
    {s : ViewState}
    (h : ViewInit s) :
    OneView s := by
  obtain ⟨v, coins, hempty, rfl⟩ := h
  refine ⟨?_, fun hsynced => absurd hsynced Bool.false_ne_true⟩
  apply initLoop_perm
  rw [hempty]
  exact List.Perm.refl _

/-- A careful step keeps the copies together. -/
theorem oneView_step
    (s : ViewState) (a : ViewAction) (s' : ViewState)
    (h : OneView s)
    (hstep : Guarded TakesNoCoin ViewStep s a s') :
    OneView s' := by
  obtain ⟨hguard, hstep⟩ := hstep
  cases hstep with
  | agree b v' hverify happly =>
      obtain ⟨m', hm', rfl⟩ := Option.map_eq_some_iff.mp happly
      refine ⟨((foldlM_agreeTransaction_cases hm').1 hguard).trans h.1, ?_⟩
      intro hsynced
      exact absurd hsynced Bool.false_ne_true
  | sync =>
      exact ⟨h.1, fun _ => h.1⟩

/-- The union of the lists never outgrows the list of the node. -/
theorem length_le_of_step
    {s s' : ViewState} {a : ViewAction}
    (hstep : ViewStep s a s') :
    (UtxoMap.all s'.v.utxoSets).length ≤ (UtxoMap.all s.v.utxoSets).length ∧
    s'.v.nodeUtxolist = s.v.nodeUtxolist ∧
    (¬ TakesNoCoin s a →
      (UtxoMap.all s'.v.utxoSets).length < (UtxoMap.all s.v.utxoSets).length) := by
  cases hstep with
  | agree b v' hverify happly =>
      obtain ⟨m', hm', rfl⟩ := Option.map_eq_some_iff.mp happly
      obtain ⟨_, hle, hlt⟩ := foldlM_agreeTransaction_cases hm'
      exact ⟨hle, rfl, hlt⟩
  | sync =>
      exact ⟨le_refl _, rfl, fun h => absurd trivial h⟩

/--
In a run the union of the lists has at most as many coins as the list of the
node, and as many only if every step was careful.
-/
theorem carefulRun_of_length_eq
    {s : ViewState}
    (hrun : Reachable ViewInit ViewStep s) :
    (UtxoMap.all s.v.utxoSets).length ≤ s.v.nodeUtxolist.length ∧
    ((UtxoMap.all s.v.utxoSets).length = s.v.nodeUtxolist.length →
      Reachable ViewInit (Guarded TakesNoCoin ViewStep) s) := by
  induction hrun with
  | start hinit =>
      exact ⟨(oneView_init hinit).1.length_eq.le, fun _ => .start hinit⟩
  | @next s s' a run hstep ih =>
      obtain ⟨hle, hnode, hlt⟩ := length_le_of_step hstep
      obtain ⟨hbound, hcareful⟩ := ih
      rw [hnode]
      refine ⟨hle.trans hbound, ?_⟩
      intro heq
      have hguard : TakesNoCoin s a := by
        by_contra htakes
        have := hlt htakes
        omega
      exact .next (hcareful (by omega)) ⟨hguard, hstep⟩

/--
In every state of every run the three copies agree if and only if no applied
block took a coin of a sender.
-/
theorem oneView_iff
    (s : ViewState)
    (hrun : Reachable ViewInit ViewStep s) :
    OneView s ↔ Reachable ViewInit (Guarded TakesNoCoin ViewStep) s := by
  constructor
  · intro hview
    exact (carefulRun_of_length_eq hrun).2 hview.1.length_eq
  · intro hcareful
    exact hcareful.invariant (fun _ hinit => oneView_init hinit) oneView_step

end Runs

section OneCoin

/-- Wallet 1 holds the only coin and no block has been applied. -/
def oneCoinView : ViewState where
  v := Validator.initializeCoins { walletsIds := [1] } 10

theorem oneCoinView_reachable : Reachable ViewInit ViewStep oneCoinView :=
  .start ⟨{ walletsIds := [1] }, 10, rfl, rfl⟩

/-- Wallet 1 sends its coin to itself. -/
def ownTransferBlock : Block :=
  { txs := [{ inputs := [⟨0, 0⟩], outputs := [⟨10, 1⟩], senderID := 1, txID := 100 }]
    isMutable := false }

/-- A verified block is applied, and the node goes on verifying against the spent coin. -/
theorem node_keeps_spent_coin :
    ∃ s : ViewState, Reachable ViewInit ViewStep s ∧ ¬ OneView s := by
  have happly : (oneCoinView.v.onAgreeBlk ownTransferBlock).isSome = true := by rfl
  obtain ⟨v', hv'⟩ := Option.isSome_iff_exists.mp happly
  refine ⟨_, oneCoinView_reachable.next (.agree oneCoinView ownTransferBlock v' ?_ hv'), ?_⟩
  · rfl
  · intro hview
    have hlengths : (oneCoinView.v.onAgreeBlk ownTransferBlock).map (fun v =>
        ((UtxoMap.all v.utxoSets).length, v.nodeUtxolist.length)) = some (0, 1) := by rfl
    rw [hv', Option.map_some, Option.some.injEq, Prod.mk.injEq] at hlengths
    have heq : (UtxoMap.all v'.utxoSets).length = v'.nodeUtxolist.length :=
      hview.1.length_eq
    omega

/-- Wallet 2, which has no coin, names the coin of wallet 1 and gives it back. -/
def foreignTransferBlock : Block :=
  { txs := [{ inputs := [⟨0, 0⟩], outputs := [⟨10, 1⟩], senderID := 2, txID := 100 }]
    isMutable := false }

/-- A block that takes no coin of its sender is applied, and the three copies agree again. -/
theorem oneView_after_block :
    ∃ s : ViewState, s.synced = true ∧ Reachable ViewInit ViewStep s ∧ OneView s := by
  have happly : (oneCoinView.v.onAgreeBlk foreignTransferBlock).isSome = true := by rfl
  obtain ⟨v', hv'⟩ := Option.isSome_iff_exists.mp happly
  have hagree := ViewStep.agree oneCoinView foreignTransferBlock v' (by rfl) hv'
  have hnone : TakesNoCoin oneCoinView (.agree foreignTransferBlock) := by
    intro t ht
    obtain rfl := List.mem_singleton.mp ht
    intro i _
    exact List.not_mem_nil
  have happlied : Reachable ViewInit (Guarded TakesNoCoin ViewStep) _ :=
    (Reachable.start ⟨{ walletsIds := [1] }, 10, rfl, rfl⟩).next_guarded hagree hnone
  have hcareful := happlied.next_guarded (.sync _) trivial
  have hrun := hcareful.mono fun _ _ _ h => h.2
  exact ⟨_, rfl, hrun, (oneView_iff _ hrun).mpr hcareful⟩

end OneCoin

end CosiCoin
