import CosiCoin.ValidatorLedger

/-!
# COSICOIN: the bounds of the vectors in OnAgreeBlk

For every input it finds, `OnAgreeBlk` erases a position of the live list and reads
the output with the number of the input.  Neither is checked.  The position was
looked up in a copy of the list that does not get shorter, and a transaction may
have more inputs than outputs.

`Transaction.InRange` says for one transaction and the list before it that both
accesses are inside their vectors; `onAgreeBlk_accessesInRange_iff` says that these
are the accesses of `OnAgreeBlk`, one transaction after the other.
-/

namespace CosiCoin

open Validator PositionalErase

section Accesses

/--
The accesses for the inputs of a transaction, with the list of its sender before
it: the output with the number of the input exists, and the position is inside
the list, which has lost one coin for every input found before.
-/
def Transaction.InRange (t : Transaction) (l : UTXOlist) : Prop :=
  ∀ k input, t.inputs[k]? = some input → ∀ p, l.index input = some p →
    k < t.outputs.length ∧ p + (spentPositions l (t.inputs.take k)).length < l.length

/-- What is left of the list of a wallet after some transactions. -/
def UTXOlist.afterSpending (w : UInt32) (l : UTXOlist) (txs : List Transaction) : UTXOlist :=
  (txs.filter fun t => t.walletId = w).foldl
    (fun l t => erasePositions l (spentPositions l t.inputs)) l

/-- No access outside a vector ends `OnAgreeBlk`. -/
def Validator.AccessesInRange (v : Validator) (b : Block) : Prop :=
  (v.onAgreeBlk b).isSome = true

/-- Statements about all entries of a list, with their numbers, by head and tail. -/
theorem forall_getElem?_cons
    {α : Type} {P : Nat → α → Prop} {a : α} {l : List α} :
    (∀ k x, (a :: l)[k]? = some x → P k x) ↔ P 0 a ∧ ∀ k x, l[k]? = some x → P (k + 1) x := by
  constructor
  · intro h
    exact ⟨h 0 a rfl, fun k x hx => h (k + 1) x hx⟩
  · rintro ⟨hhead, htail⟩ k x hx
    cases k with
    | zero =>
        obtain rfl : a = x := Option.some.inj hx
        exact hhead
    | succ k =>
        exact htail k x hx

/-- The loop over the inputs, from input `i` on and with some of the list erased. -/
theorem spendLoop_isSome_iff
    {ulist : UTXOlist} {outputs : List Output} {inputs : List Input} :
    ∀ {i : Nat} {live : UTXOlist},
      (spendLoop ulist outputs inputs i live).isSome = true ↔
        ∀ k input, inputs[k]? = some input → ∀ p, ulist.index input = some p →
          i + k < outputs.length ∧
          p + (spentPositions ulist (inputs.take k)).length < live.length := by
  induction inputs with
  | nil =>
      intro i live
      simp [spendLoop]
  | cons cur rest ih =>
      intro i live
      rw [forall_getElem?_cons]
      cases hidx : ulist.index cur with
      | none =>
          have htake : ∀ k, spentPositions ulist (cur :: rest.take k) =
              spentPositions ulist (rest.take k) :=
            fun _ => List.filterMap_cons_none hidx
          rw [spendLoop_skip hidx, ih]
          simp [htake, Nat.add_assoc, Nat.add_comm 1]
      | some idx =>
          have htake : ∀ k, spentPositions ulist ((cur :: rest).take (k + 1)) =
              idx :: spentPositions ulist (rest.take k) :=
            fun _ => List.filterMap_cons_some hidx
          rw [spendLoop_found hidx]
          by_cases hin : i < outputs.length ∧ idx < live.length
          · rw [if_pos hin, ih, List.length_eraseIdx_of_lt hin.2]
            constructor
            · intro h
              refine ⟨?_, ?_⟩
              · intro p hp
                obtain rfl := Option.some.inj hp
                exact hin
              · intro k input hk p hp
                obtain ⟨hout, hlt⟩ := h k input hk p hp
                rw [htake, List.length_cons]
                omega
            · rintro ⟨_, h⟩ k input hk p hp
              obtain ⟨hout, hlt⟩ := h k input hk p hp
              rw [htake, List.length_cons] at hlt
              omega
          · rw [if_neg hin]
            constructor
            · intro h
              cases h
            · rintro ⟨h, _⟩
              exact absurd (h idx rfl) hin

theorem agreeTransaction_isSome_iff
    (m : UtxoMap) (t : Transaction) :
    (agreeTransaction m t).isSome = true ↔ t.InRange (UtxoMap.get m t.walletId) := by
  unfold agreeTransaction Transaction.InRange
  rw [Option.isSome_map, spendLoop_isSome_iff]
  simp only [Nat.zero_add]

/-- The list of a wallet after one more transaction. -/
theorem afterSpending_cons
    {m m₁ : UtxoMap} {t : Transaction}
    (h : agreeTransaction m t = some m₁)
    (w : UInt32) (txs : List Transaction) :
    UTXOlist.afterSpending w (UtxoMap.get m w) (t :: txs) =
      UTXOlist.afterSpending w (UtxoMap.get m₁ w) txs := by
  unfold UTXOlist.afterSpending
  rw [agreeTransaction_eq_some h]
  by_cases hw : t.walletId = w
  · subst hw
    rw [List.filter_cons_of_pos (by simp), UtxoMap.get_insert_self]
    rfl
  · rw [List.filter_cons_of_neg (by simpa using hw), UtxoMap.get_insert_of_ne _ _ (Ne.symm hw)]

theorem foldlM_agreeTransaction_isSome_iff
    {txs : List Transaction} :
    ∀ m : UtxoMap, (txs.foldlM agreeTransaction m).isSome = true ↔
      ∀ n (t : Transaction), txs[n]? = some t →
        t.InRange (UTXOlist.afterSpending t.walletId (UtxoMap.get m t.walletId) (txs.take n)) := by
  induction txs with
  | nil =>
      intro m
      simp
  | cons t txs ih =>
      intro m
      rw [List.foldlM_cons]
      cases hm₁ : agreeTransaction m t with
      | none =>
          have hout : ¬ t.InRange (UtxoMap.get m t.walletId) := by
            rw [← agreeTransaction_isSome_iff, hm₁]
            decide
          constructor
          · intro h
            cases h
          · intro h
            exact absurd (h 0 t rfl) hout
      | some m₁ =>
          have hhead : t.InRange (UtxoMap.get m t.walletId) := by
            rw [← agreeTransaction_isSome_iff, hm₁]
            rfl
          rw [Option.bind_eq_bind, Option.bind_some, ih m₁, forall_getElem?_cons]
          simp only [List.take_succ_cons, afterSpending_cons hm₁]
          exact ⟨fun h => ⟨hhead, h⟩, fun h => h.2⟩

/--
Every access of `OnAgreeBlk` is inside its vector if and only if each transaction
is in range for the list its sender has after the transactions before it.
-/
theorem onAgreeBlk_accessesInRange_iff
    (v : Validator) (b : Block) :
    v.AccessesInRange b ↔
      ∀ n (t : Transaction), b.txs[n]? = some t →
        t.InRange (UTXOlist.afterSpending t.walletId (UtxoMap.get v.utxoSets t.walletId)
          (b.txs.take n)) := by
  unfold Validator.AccessesInRange onAgreeBlk
  rw [Option.isSome_map]
  exact foldlM_agreeTransaction_isSome_iff v.utxoSets

end Accesses

section Joining

/-- A block that is verified against some list and spends only coins of its senders. -/
structure SpendsOwnCoins (v : Validator) (b : Block) : Prop where
  distinct : UtxoMap.DistinctOutpoints v.utxoSets
  verified : ∃ utxolist receiverIDs, b.verify utxolist receiverIDs = true
  ownCoins : ∀ t ∈ b.txs, ∀ i ∈ t.inputs, i ∈ (UtxoMap.get v.utxoSets t.walletId).outpoints

/-- Wallet 1 holds coins of values 10, 5 and 1. -/
def threeCoinValidator : Validator where
  walletsIds := [1]
  utxoSets := AList.singleton 1 [⟨0, 0, ⟨10, 1⟩⟩, ⟨1, 0, ⟨5, 1⟩⟩, ⟨2, 0, ⟨1, 1⟩⟩]

/-- The wallet joins two of its coins to one. -/
def joiningBlock : Block :=
  { txs := [{ inputs := [⟨1, 0⟩, ⟨0, 0⟩], outputs := [⟨15, 1⟩], senderID := 1, txID := 100 }]
    isMutable := false }

theorem threeCoinValidator_distinct :
    UtxoMap.DistinctOutpoints threeCoinValidator.utxoSets :=
  UtxoMap.distinctOutpoints_singleton (by decide)

/-- Output 1 of the transaction that joins two coins is read, which does not exist. -/
theorem joining_reads_out_of_range :
    SpendsOwnCoins threeCoinValidator joiningBlock ∧
      ¬ threeCoinValidator.AccessesInRange joiningBlock := by
  refine ⟨⟨threeCoinValidator_distinct, ?_, by decide⟩, ?_⟩
  · exact ⟨UtxoMap.all threeCoinValidator.utxoSets, threeCoinValidator.walletsIds, by decide⟩
  · unfold Validator.AccessesInRange
    decide

end Joining

end CosiCoin
