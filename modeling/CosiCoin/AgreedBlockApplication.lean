import CosiCoin.ValidatorLedger
import Mathlib.Algebra.Order.BigOperators.Group.List
import Mathlib.Algebra.Order.Group.Nat

/-!
# COSICOIN: applying an agreed block

`OnAgreeBlk` is documented to update the unspent outputs: "delete the used
UTXOs, updates with the new".  It builds the new unspent output of a position
in a local variable and drops it, so applying a block can only lose coins:
every list becomes a sublist of what it was.

The coins are moved and conserved when no transaction of the block has an
input.  Conversely, when they are, either no transaction has an input, or every
coin the block should have created was held already and a sender owned a coin
of value zero.
-/

namespace CosiCoin

open Validator PositionalErase

namespace UTXOlist

theorem totalValue_le_of_sublist
    {l l' : UTXOlist}
    (h : l'.Sublist l) :
    totalValue l' ≤ totalValue l := by
  exact (h.map _).sum_le_sum (fun _ _ => Nat.zero_le _)

/-- Dropping a coin that is worth something lowers the sum. -/
theorem totalValue_lt_of_sublist
    {l l' : UTXOlist}
    (h : l'.Sublist l)
    (hlen : l'.length < l.length)
    (hpos : ∀ u ∈ l, u.output.value ≠ 0) :
    totalValue l' < totalValue l := by
  induction h with
  | slnil =>
      simp at hlen
  | @cons l₁ l₂ u hsub ih =>
      have hle := totalValue_le_of_sublist hsub
      have hu : 0 < u.output.value.toNat := by
        have hne := hpos u (by simp)
        rw [Nat.pos_iff_ne_zero]
        intro hzero
        exact hne (UInt64.toNat_inj.mp hzero)
      simp only [totalValue, List.map_cons, List.sum_cons] at hle ⊢
      omega
  | @cons_cons l₁ l₂ u hsub ih =>
      have hlt := ih (by simpa using hlen) (fun v hv => hpos v (List.mem_cons_of_mem _ hv))
      simp only [totalValue, List.map_cons, List.sum_cons] at hlt ⊢
      omega

end UTXOlist

namespace UtxoMap

theorem sum_eq_lookup_add_kerase
    (w : UInt32)
    (l : List (Sigma fun _ : UInt32 => UTXOlist)) :
    (l.map fun e => UTXOlist.totalValue e.2).sum =
      UTXOlist.totalValue ((l.dlookup w).getD []) +
        ((l.kerase w).map fun e => UTXOlist.totalValue e.2).sum := by
  induction l with
  | nil =>
      rfl
  | cons e l ih =>
      obtain ⟨k, c⟩ := e
      by_cases hk : w = k
      · subst hk
        simp [List.dlookup_cons_eq]
      · rw [List.dlookup_cons_ne l ⟨k, c⟩ hk, List.kerase_cons_ne hk]
        simp only [List.map_cons, List.sum_cons, ih]
        omega

/-- Replacing the list of one wallet changes the total by the difference. -/
theorem totalValue_insert
    (m : UtxoMap) (w : UInt32) (l : UTXOlist) :
    totalValue (m.insert w l) + UTXOlist.totalValue (UtxoMap.get m w) =
      totalValue m + UTXOlist.totalValue l := by
  have h := sum_eq_lookup_add_kerase w m.entries
  simp only [totalValue, AList.entries_insert, List.map_cons, List.sum_cons, h]
  show _ = _
  simp only [UtxoMap.get, AList.lookup]
  omega

end UtxoMap

section Effect

/-- A transaction without inputs leaves every list and the total alone. -/
theorem agreeTransaction_of_no_inputs
    (m : UtxoMap) {t : Transaction}
    (ht : t.inputs = []) :
    ∃ m', agreeTransaction m t = some m' ∧
      (∀ w, UtxoMap.get m' w = UtxoMap.get m w) ∧
      UtxoMap.totalValue m' = UtxoMap.totalValue m := by
  refine ⟨m.insert t.walletId (UtxoMap.get m t.walletId), ?_, ?_, ?_⟩
  · simp [agreeTransaction, ht, spendLoop]
  · intro w
    by_cases hw : w = t.walletId
    · subst hw
      rw [UtxoMap.get_insert_self]
    · rw [UtxoMap.get_insert_of_ne _ _ hw]
  · have h := UtxoMap.totalValue_insert m t.walletId (UtxoMap.get m t.walletId)
    omega

theorem foldlM_agreeTransaction_of_no_inputs
    {txs : List Transaction}
    (h : ∀ t ∈ txs, t.inputs = []) :
    ∀ m : UtxoMap, ∃ m', txs.foldlM agreeTransaction m = some m' ∧
      UtxoMap.totalValue m' = UtxoMap.totalValue m := by
  induction txs with
  | nil =>
      intro m
      exact ⟨m, rfl, rfl⟩
  | cons t txs ih =>
      intro m
      obtain ⟨m₁, hm₁, _, htotal₁⟩ := agreeTransaction_of_no_inputs m (h t (by simp))
      obtain ⟨m', hm', htotal⟩ := ih (fun u hu => h u (List.mem_cons_of_mem _ hu)) m₁
      refine ⟨m', ?_, htotal.trans htotal₁⟩
      simp [List.foldlM_cons, hm₁, hm']

theorem agreeTransaction_totalValue_le
    {m m' : UtxoMap} {t : Transaction}
    (h : agreeTransaction m t = some m') :
    UtxoMap.totalValue m' ≤ UtxoMap.totalValue m := by
  have hsub := agreeTransaction_sublist h t.walletId
  have hle := UTXOlist.totalValue_le_of_sublist hsub
  rw [agreeTransaction_eq_some h, UtxoMap.get_insert_self] at hle
  rw [agreeTransaction_eq_some h]
  have hins := UtxoMap.totalValue_insert m t.walletId
    (erasePositions (UtxoMap.get m t.walletId)
      (spentPositions (UtxoMap.get m t.walletId) t.inputs))
  omega

theorem foldlM_agreeTransaction_totalValue_le
    {txs : List Transaction} :
    ∀ {m m' : UtxoMap}, txs.foldlM agreeTransaction m = some m' →
      UtxoMap.totalValue m' ≤ UtxoMap.totalValue m := by
  induction txs with
  | nil =>
      intro m m' h
      obtain rfl := Option.some.inj h
      exact le_refl _
  | cons t txs ih =>
      intro m m' h
      rw [List.foldlM_cons] at h
      obtain ⟨m₁, hm₁, h⟩ := Option.bind_eq_some_iff.mp h
      exact (ih h).trans (agreeTransaction_totalValue_le hm₁)

/-- A transaction that spends coins of value loses value. -/
theorem agreeTransaction_totalValue_lt
    {m m' : UtxoMap} {t : Transaction}
    (h : agreeTransaction m t = some m')
    (hin : t.inputs ≠ [])
    (hown : ∀ i ∈ t.inputs, i ∈ (UtxoMap.get m t.walletId).outpoints)
    (hpos : ∀ u ∈ UtxoMap.get m t.walletId, u.output.value ≠ 0) :
    UtxoMap.totalValue m' < UtxoMap.totalValue m := by
  set l := UtxoMap.get m t.walletId with hl
  obtain ⟨i, rest, hcons⟩ := List.exists_cons_of_ne_nil hin
  obtain ⟨p, hp⟩ := (UTXOlist.index_isSome_iff l i).mpr (hown i (by simp [hcons]))
  obtain ⟨hplt, _⟩ := UTXOlist.index_spec hp
  have hmem : p ∈ spentPositions l t.inputs :=
    List.mem_filterMap.mpr ⟨i, by simp [hcons], hp⟩
  have hsub : (erasePositions l (spentPositions l t.inputs)).Sublist l :=
    erasePositions_sublist _ _
  have hlen := length_erasePositions_lt hmem hplt
  have hlt := UTXOlist.totalValue_lt_of_sublist hsub hlen hpos
  have hins := UtxoMap.totalValue_insert m t.walletId
    (erasePositions l (spentPositions l t.inputs))
  rw [agreeTransaction_eq_some h, ← hl]
  rw [← hl] at hins
  omega

/-- If the total is kept and every spender's coins have value, nothing is spent. -/
theorem no_inputs_of_totalValue_eq
    {txs : List Transaction} :
    ∀ {m m' : UtxoMap}, txs.foldlM agreeTransaction m = some m' →
      UtxoMap.totalValue m' = UtxoMap.totalValue m →
      (∀ t ∈ txs, ∀ i ∈ t.inputs, i ∈ (UtxoMap.get m t.walletId).outpoints) →
      (∀ t ∈ txs, t.inputs ≠ [] → ∀ u ∈ UtxoMap.get m t.walletId, u.output.value ≠ 0) →
      ∀ t ∈ txs, t.inputs = [] := by
  induction txs with
  | nil =>
      intro m m' _ _ _ _ t ht
      simp at ht
  | cons t txs ih =>
      intro m m' h htotal hown hpos
      rw [List.foldlM_cons] at h
      obtain ⟨m₁, hm₁, h⟩ := Option.bind_eq_some_iff.mp h
      have hle := foldlM_agreeTransaction_totalValue_le h
      have hnil : t.inputs = [] := by
        by_contra hin
        have hlt := agreeTransaction_totalValue_lt hm₁ hin (hown t (by simp))
          (hpos t (by simp) hin)
        omega
      obtain ⟨m₂, hm₂, hget, htotal₁⟩ := agreeTransaction_of_no_inputs m hnil
      obtain rfl := Option.some.inj (hm₁.symm.trans hm₂)
      intro u hu
      rcases List.mem_cons.mp hu with rfl | hu
      · exact hnil
      · refine ih h (by omega) ?_ ?_ u hu
        · intro s hs i hi
          rw [hget]
          exact hown s (List.mem_cons_of_mem _ hs) i hi
        · intro s hs hne w hw
          rw [hget] at hw
          exact hpos s (List.mem_cons_of_mem _ hs) hne w hw

end Effect

section MovesCoins

/-- The unspent output a block creates for position `i` of a transaction. -/
def Transaction.createdCoin (t : Transaction) (i : Nat) (o : Output) : UTXO :=
  ⟨t.txID, Int32.ofNat i, o⟩

/-- Every coin the block creates is held by the receiver. -/
def Block.CoinsHeld (b : Block) (m : UtxoMap) : Prop :=
  ∀ t ∈ b.txs, ∀ (i : Nat) (o : Output), t.outputs[i]? = some o →
    t.createdCoin i o ∈ UtxoMap.get m o.receiverID

/-- Applying the block gives every receiver its coins and keeps the total. -/
def Validator.MovesCoins (v : Validator) (b : Block) : Prop :=
  ∃ v', v.onAgreeBlk b = some v' ∧ b.CoinsHeld v'.utxoSets ∧
    UtxoMap.totalValue v'.utxoSets = UtxoMap.totalValue v.utxoSets

/-- The state and the block an honest consensus run presents to `OnAgreeBlk`. -/
structure AgreedBlock (v : Validator) (b : Block) : Prop where
  distinct : UtxoMap.DistinctOutpoints v.utxoSets
  underReceiver : UtxoMap.UnderReceiver v.utxoSets
  verified : b.verify (UtxoMap.all v.utxoSets) v.walletsIds = true
  ownCoins : ∀ t ∈ b.txs, ∀ i ∈ t.inputs, i ∈ (UtxoMap.get v.utxoSets t.walletId).outpoints

/-- No transaction of the block spends anything. -/
def Block.NoInputs (b : Block) : Prop :=
  ∀ t ∈ b.txs, t.inputs = []

/--
The coincidence under which lost coins go unnoticed: everything the block
should create is held already, and a spender owns a coin of value zero.
-/
def Block.Unnoticed (b : Block) (m : UtxoMap) : Prop :=
  b.CoinsHeld m ∧
    ∃ t ∈ b.txs, t.inputs ≠ [] ∧ ∃ u ∈ UtxoMap.get m t.walletId, u.output.value = 0

/--
Coins are moved and conserved when no transaction has an input, and otherwise
only by the coincidence `Block.Unnoticed`.
-/
theorem onAgreeBlk_movesCoins
    (v : Validator) (b : Block)
    (h : AgreedBlock v b) :
    (b.NoInputs → v.MovesCoins b) ∧
    (v.MovesCoins b → b.NoInputs ∨ b.Unnoticed v.utxoSets) := by
  constructor
  · intro hno
    obtain ⟨m', hm', htotal⟩ := foldlM_agreeTransaction_of_no_inputs hno v.utxoSets
    refine ⟨{ v with utxoSets := m' }, ?_, ?_, htotal⟩
    · simp [onAgreeBlk, hm']
    · intro t ht i o ho
      have hout : t.outputs = [] :=
        Transaction.outputs_eq_nil_of_checkSpendingConditions
          (Block.checkSpendingConditions_of_verify h.verified ht) (hno t ht)
      simp [hout] at ho
  · rintro ⟨v', hv', hheld, htotal⟩
    obtain ⟨m', hm', rfl⟩ := Option.map_eq_some_iff.mp hv'
    have hsub := foldlM_agreeTransaction_sublist hm'
    have hbefore : b.CoinsHeld v.utxoSets := by
      intro t ht i o ho
      exact (hsub o.receiverID).subset (hheld t ht i o ho)
    by_cases hzero :
        ∃ t ∈ b.txs, t.inputs ≠ [] ∧ ∃ u ∈ UtxoMap.get v.utxoSets t.walletId, u.output.value = 0
    · exact Or.inr ⟨hbefore, hzero⟩
    · left
      refine no_inputs_of_totalValue_eq hm' htotal h.ownCoins ?_
      intro t ht hin u hu hval
      exact hzero ⟨t, ht, hin, u, hu, hval⟩

/-- Wallet 1 holds one coin of value 10. -/
def oneCoinValidator : Validator where
  walletsIds := [1]
  utxoSets := AList.singleton 1 [⟨0, 0, ⟨10, 1⟩⟩]

/-- The wallet sends its coin to itself. -/
def oneTransferBlock : Block :=
  { txs := [{ inputs := [⟨0, 0⟩], outputs := [⟨10, 1⟩], senderID := 1, txID := 100 }]
    isMutable := false }

theorem oneTransferBlock_agreed : AgreedBlock oneCoinValidator oneTransferBlock where
  distinct := UtxoMap.distinctOutpoints_singleton (List.nodup_singleton _)
  underReceiver := by
    apply UtxoMap.underReceiver_singleton
    intro u hu
    rw [List.mem_singleton.mp hu]
  verified := by decide
  ownCoins := by decide

/-- The coin of value 10 is gone and nothing takes its place. -/
theorem onAgreeBlk_loses_coin :
    AgreedBlock oneCoinValidator oneTransferBlock ∧
      ¬ oneCoinValidator.MovesCoins oneTransferBlock := by
  refine ⟨oneTransferBlock_agreed, ?_⟩
  rintro ⟨v', hv', _, htotal⟩
  have happlied :
      (oneCoinValidator.onAgreeBlk oneTransferBlock).map
        (fun v => UtxoMap.totalValue v.utxoSets) = some 0 := by
    decide
  rw [hv'] at happlied
  simp only [Option.map_some, Option.some.injEq] at happlied
  rw [happlied] at htotal
  revert htotal
  decide

/-- A block of one transaction without inputs and outputs. -/
def emptyTransferBlock : Block :=
  { txs := [{ senderID := 1, txID := 100 }], isMutable := false }

/-- A block that spends nothing is applied as documented. -/
theorem onAgreeBlk_movesCoins_emptyTransfer :
    oneCoinValidator.MovesCoins emptyTransferBlock :=
  (onAgreeBlk_movesCoins oneCoinValidator emptyTransferBlock
    { distinct := oneTransferBlock_agreed.distinct
      underReceiver := oneTransferBlock_agreed.underReceiver
      verified := by decide
      ownCoins := by decide }).1 (by
        intro t ht
        rw [List.mem_singleton.mp ht])

end MovesCoins

end CosiCoin
