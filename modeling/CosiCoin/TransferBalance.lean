import CosiCoin.TransactionModel

/-!
# COSICOIN: the balance of a transaction

`checkSpendingConditions` compares the total of the outputs with the total of the
unspent outputs they are paid from.  Both totals are kept in `int` variables, so
what is compared are the exact sums modulo 2 ^ 32.  A transaction whose sums
differ by a multiple of 2 ^ 32 passes (`conservesValue_iff`).
-/

namespace CosiCoin

namespace Transaction

section Totals

/-- The exact sum of the amounts of the outputs. -/
def outputSum (t : Transaction) : Nat :=
  (t.outputs.map fun o => o.value.toNat).sum

/-- The amount of the first unspent output an input refers to. -/
def spentValue (utxo : UTXOlist) (input : Input) : Nat :=
  ((utxo.find input).map fun u => u.output.value.toNat).getD 0

/-- The exact sum of the amounts of the unspent outputs referred to. -/
def inputSum (t : Transaction) (utxo : UTXOlist) : Nat :=
  (t.inputs.map (spentValue utxo)).sum

/-- A total in an `int` variable is the exact sum modulo 2 ^ 32. -/
theorem addToTotal_ofNat
    (n : Nat) (value : UInt64) :
    addToTotal (Int32.ofNat n) value = Int32.ofNat (n + value.toNat) := by
  unfold addToTotal intToUInt64
  apply Int32.toBitVec_inj.mp
  simp
  apply BitVec.eq_of_toNat_eq
  -- the sign bits added by the conversion to 64 bits are cut off again
  simp [BitVec.toNat_signExtend]

theorem ofNat_eq_ofNat_iff
    (a b : Nat) :
    Int32.ofNat a = Int32.ofNat b ↔ a % 2 ^ 32 = b % 2 ^ 32 := by
  rw [← Int32.toBitVec_inj]
  simp only [Int32.toBitVec_ofNat']
  rw [← BitVec.toNat_inj, BitVec.toNat_ofNat, BitVec.toNat_ofNat]

theorem foldl_addToTotal
    {α : Type}
    (value : α → UInt64) (l : List α) :
    ∀ n, l.foldl (fun total a => addToTotal total (value a)) (Int32.ofNat n) =
      Int32.ofNat (n + (l.map fun a => (value a).toNat).sum) := by
  induction l with
  | nil =>
      intro n
      rfl
  | cons a l ih =>
      intro n
      rw [List.foldl_cons, addToTotal_ofNat, ih, List.map_cons, List.sum_cons, Nat.add_assoc]

theorem totalOutputValue_eq
    (t : Transaction) :
    t.totalOutputValue = Int32.ofNat t.outputSum := by
  have hfold := foldl_addToTotal Output.value t.outputs 0
  rw [Nat.zero_add] at hfold
  exact hfold

/-- The total of the inputs exists if and only if all of them are found. -/
theorem totalInputValue_eq_some_iff
    {utxo : UTXOlist} {inputs : List Input} :
    ∀ {n : Nat} {total : Int32}, totalInputValue utxo inputs (Int32.ofNat n) = some total ↔
      (∀ input ∈ inputs, input ∈ utxo.outpoints) ∧
        total = Int32.ofNat (n + (inputs.map (spentValue utxo)).sum) := by
  induction inputs with
  | nil =>
      intro n total
      simp [totalInputValue, eq_comm]
  | cons input inputs ih =>
      intro n total
      have hfound := UTXOlist.find_isSome_iff utxo input
      unfold totalInputValue
      cases hfind : utxo.find input with
      | none =>
          rw [hfind] at hfound
          simp [← hfound]
      | some u =>
          have hvalue : spentValue utxo input = u.output.value.toNat := by
            rw [spentValue, hfind]
            rfl
          have hmem : input ∈ utxo.outpoints := hfound.mp (by rw [hfind]; rfl)
          dsimp only
          rw [addToTotal_ofNat, ih, List.map_cons, List.sum_cons, hvalue, List.forall_mem_cons,
            Nat.add_assoc]
          simp [hmem]

end Totals

section Balance

variable {t : Transaction} {utxo : UTXOlist} {walletIds : List UInt32}

/-- What `checkSpendingConditions` asks besides the comparison of the totals. -/
structure WellFormed (t : Transaction) (utxo : UTXOlist) (walletIds : List UInt32) : Prop where
  found : ∀ input ∈ t.inputs, input ∈ utxo.outpoints
  known : ∀ o ∈ t.outputs, o.receiverID ∈ walletIds

/-- The totals are compared modulo 2 ^ 32. -/
theorem checkSpendingConditions_iff
    (hne : t.inputs ≠ []) :
    t.checkSpendingConditions utxo walletIds = true ↔
      t.WellFormed utxo walletIds ∧ t.inputSum utxo % 2 ^ 32 = t.outputSum % 2 ^ 32 := by
  have hreceivers : (t.outputs.all fun o => walletIds.any fun key => o.receiverID == key) = true ↔
      ∀ o ∈ t.outputs, o.receiverID ∈ walletIds := by
    simp
  have htotal : ∀ total, totalInputValue utxo t.inputs 0 = some total ↔
      (∀ input ∈ t.inputs, input ∈ utxo.outpoints) ∧ total = Int32.ofNat (t.inputSum utxo) := by
    intro total
    have hzero : (0 : Int32) = Int32.ofNat 0 := rfl
    rw [hzero, totalInputValue_eq_some_iff, Nat.zero_add]
    rfl
  unfold checkSpendingConditions
  rw [if_neg (fun hzero => hne (List.length_eq_zero_iff.mp hzero))]
  cases hsum : totalInputValue utxo t.inputs 0 with
  | none =>
      constructor
      · intro h
        cases h
      · rintro ⟨hwell, _⟩
        rw [(htotal _).mpr ⟨hwell.found, rfl⟩] at hsum
        cases hsum
  | some total =>
      obtain ⟨hfound, rfl⟩ := (htotal total).mp hsum
      dsimp only
      rw [Bool.and_eq_true, hreceivers, beq_iff_eq, totalOutputValue_eq, ofNat_eq_ofNat_iff]
      exact ⟨fun h => ⟨⟨hfound, h.2⟩, h.1⟩, fun h => ⟨h.2, h.1.known⟩⟩

/-- An accepted transaction spends exactly what it pays. -/
def ConservesValue (t : Transaction) (utxo : UTXOlist) (walletIds : List UInt32) : Prop :=
  t.checkSpendingConditions utxo walletIds = true → t.inputSum utxo = t.outputSum

/--
Value is conserved unless the sums of an otherwise well-formed transaction are
different and equal modulo 2 ^ 32.
-/
theorem conservesValue_iff
    (t : Transaction) (utxo : UTXOlist) (walletIds : List UInt32)
    (hne : t.inputs ≠ []) :
    t.ConservesValue utxo walletIds ↔
      ¬ (t.WellFormed utxo walletIds ∧ t.inputSum utxo ≠ t.outputSum ∧
        t.inputSum utxo % 2 ^ 32 = t.outputSum % 2 ^ 32) := by
  unfold ConservesValue
  rw [checkSpendingConditions_iff hne]
  constructor
  · rintro h ⟨hwell, hdiffer, hmod⟩
    exact hdiffer (h ⟨hwell, hmod⟩)
  · rintro h ⟨hwell, hmod⟩
    by_contra hdiffer
    exact h ⟨hwell, hdiffer, hmod⟩

/-- A coin of value 10 pays an output of the same value. -/
theorem ten_is_conserved :
    ConservesValue { inputs := [⟨0, 0⟩], outputs := [⟨10, 1⟩], senderID := 1, txID := 100 }
      [⟨0, 0, ⟨10, 1⟩⟩] [1] := by
  refine (conservesValue_iff _ _ _ (List.cons_ne_nil _ _)).mpr ?_
  rintro ⟨_, hdiffer, _⟩
  exact hdiffer rfl

/-- A coin of value 10 pays an output of 10 + 2 ^ 32. -/
theorem coins_from_nothing :
    ¬ ConservesValue
      { inputs := [⟨0, 0⟩], outputs := [⟨4294967306, 1⟩], senderID := 1, txID := 100 }
      [⟨0, 0, ⟨10, 1⟩⟩] [1] := by
  intro h
  exact absurd (h (by decide)) (by decide)

end Balance

end Transaction

end CosiCoin
