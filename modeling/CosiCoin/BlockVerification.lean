import CosiCoin.BlockProposalControl
import CosiCoin.OrderedSets
import CosiCoin.TransferBalance
import Mathlib.Data.List.Flatten

/-!
# COSICOIN: the verification of a block

`Block::verify` goes through the transactions once.  It leaves with the first one
that fails the spending conditions, adds up the numbers of inputs in an `int` and
collects the inputs in a `std::set` ordered by `operator<` of `Input`; at the end
it compares the count with the size of the set.

`verifyLoop` is that loop.  Its outcome is the one of `Block.verify`, and below
2 ^ 31 inputs it is true exactly when every transaction passes by itself and no
input occurs twice (`verify_exact`), so neither the order of the transactions nor
that of the inputs matters.
-/

namespace CosiCoin

open OrderedSets

section InputOrder

/-- `operator<` of `Input`. -/
def Input.lt (i j : Input) : Bool :=
  if i.txID < j.txID then true
  else if i.txID = j.txID then decide (i.outputIndex < j.outputIndex)
  else false

theorem Input.lt_iff
    (i j : Input) :
    i.lt j = true ↔
      i.txID < j.txID ∨ (i.txID = j.txID ∧ i.outputIndex < j.outputIndex) := by
  unfold Input.lt
  split_ifs with hlt heq
  · simp [hlt]
  · simp [heq]
  · simp [hlt, heq]

/-- The comparison of inputs is a strict total order. -/
instance Input.lt_isStrictTotalOrder :
    IsStrictTotalOrder Input fun i j => i.lt j = true where
  irrefl i := by
    rw [Input.lt_iff]
    rintro (hlt | ⟨_, hlt⟩)
    · exact UInt32.lt_irrefl _ hlt
    · exact UInt64.lt_irrefl _ hlt
  trans i j k := by
    rw [Input.lt_iff, Input.lt_iff, Input.lt_iff]
    rintro (hij | ⟨hij, hij'⟩) (hjk | ⟨hjk, hjk'⟩)
    · exact Or.inl (UInt32.lt_trans hij hjk)
    · exact Or.inl (hjk ▸ hij)
    · exact Or.inl (hij ▸ hjk)
    · exact Or.inr ⟨hij.trans hjk, UInt64.lt_trans hij' hjk'⟩
  trichotomous i j := by
    rw [Input.lt_iff, Input.lt_iff]
    intro hij hji
    have htx : i.txID = j.txID := by
      rcases UInt32.lt_or_eq_of_le (UInt32.not_lt.mp fun hlt => hji (Or.inl hlt)) with hlt | heq
      · exact absurd (Or.inl hlt) hij
      · exact heq
    have hout : i.outputIndex = j.outputIndex := by
      rcases UInt64.lt_or_eq_of_le
          (UInt64.not_lt.mp fun hlt => hji (Or.inr ⟨htx.symm, hlt⟩)) with hlt | heq
      · exact absurd (Or.inr ⟨htx, hlt⟩) hij
      · exact heq
    cases i
    cases j
    cases htx
    cases hout
    rfl

end InputOrder

section Loop

/--
The loop of `Block::verify`, with `number_of_inputs` and `all_inputs`; the last
comparison is made when no transaction is left.
-/
def Block.verifyLoop (utxolist : UTXOlist) (receiverIDs : List UInt32) :
    List Transaction → Int32 → List Input → Bool
  | [], numberOfInputs, allInputs =>
      intToUInt64 numberOfInputs == UInt64.ofNat allInputs.length
  | t :: rest, numberOfInputs, allInputs =>
      if t.checkSpendingConditions utxolist receiverIDs = false then false
      else
        verifyLoop utxolist receiverIDs rest
          (Transaction.addToTotal numberOfInputs (UInt64.ofNat t.inputs.length))
          (insertAll Input.lt allInputs t.inputs)

theorem addToTotal_length
    (n k : Nat) :
    Transaction.addToTotal (Int32.ofNat n) (UInt64.ofNat k) = Int32.ofNat (n + k) := by
  rw [Transaction.addToTotal_ofNat, Transaction.ofNat_eq_ofNat_iff, UInt64.toNat_ofNat']
  omega

/-- The loop after the inputs `seen`: count and set are those of all inputs together. -/
theorem verifyLoop_eq
    (utxolist : UTXOlist) (receiverIDs : List UInt32)
    {txs : List Transaction} :
    ∀ seen : List Input,
      Block.verifyLoop utxolist receiverIDs txs (Int32.ofNat seen.length)
          (insertAll Input.lt [] seen) =
        ((txs.all fun t => t.checkSpendingConditions utxolist receiverIDs) &&
          intToUInt64 (Int32.ofNat (seen ++ txs.flatMap Transaction.inputs).length) ==
            UInt64.ofNat (seen ++ txs.flatMap Transaction.inputs).toFinset.card) := by
  induction txs with
  | nil =>
      intro seen
      rw [Block.verifyLoop, length_insertAll, List.all_nil, List.flatMap_nil, List.append_nil,
        Bool.true_and]
  | cons t txs ih =>
      intro seen
      have hset : insertAll Input.lt (insertAll Input.lt [] seen) t.inputs =
          insertAll Input.lt [] (seen ++ t.inputs) := by
        simp [insertAll]
      unfold Block.verifyLoop
      rw [addToTotal_length, hset, ← List.length_append, ih (seen ++ t.inputs), List.all_cons,
        List.flatMap_cons, List.append_assoc]
      cases t.checkSpendingConditions utxolist receiverIDs with
      | false => rfl
      | true => rfl

/-- The early exit and the running count do not change the verdict. -/
theorem verifyLoop_eq_verify
    (b : Block) (utxolist : UTXOlist) (receiverIDs : List UInt32) :
    Block.verifyLoop utxolist receiverIDs b.txs 0 [] = b.verify utxolist receiverIDs :=
  verifyLoop_eq utxolist receiverIDs []

end Loop

section Exactness

variable {utxolist : UTXOlist} {receiverIDs : List UInt32}

theorem verify_iff_nodup
    {b : Block}
    (h : b.inputs.length < 2 ^ 31) :
    b.verify utxolist receiverIDs = true ↔
      (∀ t ∈ b.txs, t.checkSpendingConditions utxolist receiverIDs = true) ∧ b.inputs.Nodup := by
  rw [Block.verify, Bool.and_eq_true, List.all_eq_true, beq_iff_eq, count_eq_card_iff h]

/-- The same transaction with its inputs in another order. -/
def Transaction.Reordered (t t' : Transaction) : Prop :=
  t'.inputs.Perm t.inputs ∧ t' = { t with inputs := t'.inputs }

theorem Transaction.Reordered.checkSpendingConditions
    {t t' : Transaction}
    (h : t.Reordered t') :
    t'.checkSpendingConditions utxolist receiverIDs =
      t.checkSpendingConditions utxolist receiverIDs := by
  obtain ⟨hperm, heq⟩ := h
  have houtputs : t'.outputs = t.outputs := by rw [heq]
  by_cases hnil : t.inputs = []
  · have hnil' : t'.inputs = [] := by
      rw [hnil] at hperm
      exact hperm.eq_nil
    simp [Transaction.checkSpendingConditions, hnil, hnil', houtputs]
  · have hnil' : t'.inputs ≠ [] := by
      intro hempty
      rw [hempty] at hperm
      exact hnil hperm.symm.eq_nil
    have hin : t'.inputSum utxolist = t.inputSum utxolist := (hperm.map _).sum_nat
    have hout : t'.outputSum = t.outputSum := by
      rw [Transaction.outputSum, Transaction.outputSum, houtputs]
    have hwell : t'.WellFormed utxolist receiverIDs ↔ t.WellFormed utxolist receiverIDs := by
      constructor
      · rintro ⟨hfound, hknown⟩
        exact ⟨fun i hi => hfound i (hperm.mem_iff.mpr hi), houtputs ▸ hknown⟩
      · rintro ⟨hfound, hknown⟩
        exact ⟨fun i hi => hfound i (hperm.mem_iff.mp hi), houtputs.symm ▸ hknown⟩
    rw [Bool.eq_iff_iff, Transaction.checkSpendingConditions_iff hnil',
      Transaction.checkSpendingConditions_iff hnil, hwell, hin, hout]

/-- Reordering the inputs of every transaction permutes the inputs of the block. -/
theorem flatMap_inputs_perm
    {txs txs' : List Transaction}
    (h : List.Forall₂ Transaction.Reordered txs txs') :
    (txs'.flatMap Transaction.inputs).Perm (txs.flatMap Transaction.inputs) := by
  induction h with
  | nil =>
      exact List.Perm.refl _
  | cons ht _ ih =>
      rw [List.flatMap_cons, List.flatMap_cons]
      exact ht.1.append ih

theorem forall_checkSpendingConditions_iff
    {txs txs' : List Transaction}
    (h : List.Forall₂ Transaction.Reordered txs txs') :
    (∀ t ∈ txs', t.checkSpendingConditions utxolist receiverIDs = true) ↔
      ∀ t ∈ txs, t.checkSpendingConditions utxolist receiverIDs = true := by
  induction h with
  | nil =>
      exact Iff.rfl
  | cons ht _ ih =>
      rw [List.forall_mem_cons, List.forall_mem_cons, ih, ht.checkSpendingConditions]

end Exactness

/--
Below 2 ^ 31 inputs a block is verified if and only if its transactions pass one
by one and no input occurs twice.  The verdict does not depend on the order of
the transactions and of their inputs, and removing transactions keeps it true.
-/
theorem verify_exact
    (b : Block) (utxolist : UTXOlist) (receiverIDs : List UInt32)
    (h : b.inputs.length < 2 ^ 31) :
    Block.verifyLoop utxolist receiverIDs b.txs 0 [] = b.verify utxolist receiverIDs ∧
    (b.verify utxolist receiverIDs = true ↔
      (∀ t ∈ b.txs, t.checkSpendingConditions utxolist receiverIDs = true) ∧ b.inputs.Nodup) ∧
    (∀ b' : Block, b'.txs.Perm b.txs →
      b'.verify utxolist receiverIDs = b.verify utxolist receiverIDs) ∧
    (∀ b' : Block, List.Forall₂ Transaction.Reordered b.txs b'.txs →
      b'.verify utxolist receiverIDs = b.verify utxolist receiverIDs) ∧
    ∀ b' : Block, b'.txs.Sublist b.txs →
      b.verify utxolist receiverIDs = true → b'.verify utxolist receiverIDs = true := by
  refine ⟨verifyLoop_eq_verify b utxolist receiverIDs, verify_iff_nodup h, ?_, ?_, ?_⟩
  · intro b' hperm
    have hinputs : b'.inputs.Perm b.inputs := hperm.flatMap_right _
    have hlen : b'.inputs.length < 2 ^ 31 := hinputs.length_eq ▸ h
    rw [Bool.eq_iff_iff, verify_iff_nodup hlen, verify_iff_nodup h, hinputs.nodup_iff]
    simp only [hperm.mem_iff]
  · intro b' hreordered
    have hinputs : b'.inputs.Perm b.inputs := flatMap_inputs_perm hreordered
    have hlen : b'.inputs.length < 2 ^ 31 := hinputs.length_eq ▸ h
    rw [Bool.eq_iff_iff, verify_iff_nodup hlen, verify_iff_nodup h, hinputs.nodup_iff,
      forall_checkSpendingConditions_iff hreordered]
  · intro b' hsub hverify
    have hinputs : b'.inputs.Sublist b.inputs := hsub.flatMap _
    have hlen : b'.inputs.length < 2 ^ 31 := lt_of_le_of_lt hinputs.length_le h
    obtain ⟨hall, hnodup⟩ := (verify_iff_nodup h).mp hverify
    exact (verify_iff_nodup hlen).mpr ⟨fun t ht => hall t (hsub.subset ht), hnodup.sublist hinputs⟩

/-- Two transfers of wallet 1, of coins of values 10 and 5. -/
def twoTransfersBlock : Block :=
  { txs :=
      [{ inputs := [⟨0, 0⟩], outputs := [⟨10, 1⟩], senderID := 1, txID := 100 },
        { inputs := [⟨1, 0⟩], outputs := [⟨5, 1⟩], senderID := 1, txID := 101 }]
    isMutable := false }

/-- The two transfers are verified in either order. -/
theorem twoTransfersBlock_verify_reverse :
    Block.verify { twoTransfersBlock with txs := twoTransfersBlock.txs.reverse }
      [⟨0, 0, ⟨10, 1⟩⟩, ⟨1, 0, ⟨5, 1⟩⟩] [1] = true := by
  obtain ⟨_, hexact, hperm, _⟩ := verify_exact twoTransfersBlock
    [⟨0, 0, ⟨10, 1⟩⟩, ⟨1, 0, ⟨5, 1⟩⟩] [1] (by decide)
  rw [hperm _ (List.reverse_perm _), hexact]
  decide

end CosiCoin
