import CosiCoin.TransferBalance
import CosiCoin.BlockProposalControl

/-!
# COSICOIN: coin selection of the interactive wallet

`create_tx` of src/wallet_interactive.cc.  A first loop looks for one coin that
covers the amount and a second loop collects coins until they do.  The second
loop runs also when the first one has found a coin, and the receiver is paid
again.  Where the collected coins exceed the amount, the outputs are confused:
the last coin pays the excess to the receiver and the missing part back to the
wallet.

The selection is therefore valid only if no coin covers the amount and the
collected coins either give it exactly or exceed it by as much as they fell short
without the last of them (`createTx_valid_iff`).
-/

namespace CosiCoin

namespace InteractiveWallet

open Transaction

section Selection

/-- The first loop: the first coin that covers the amount is spent. -/
def payFromOneCoin (amount receiverId : Int32) (walletId : UInt32) :
    UTXOlist → Transaction → Transaction
  | [], tx => tx
  | utxo :: rest, tx =>
      if utxo.output.value > intToUInt64 amount then
        { tx with
          txID := utxo.transactionId - amount.toUInt32
          senderID := walletId.toUInt16
          inputs := tx.inputs ++ [utxo.outpoint]
          outputs := tx.outputs ++
            [⟨intToUInt64 amount, receiverId.toUInt32⟩,
              ⟨utxo.output.value - intToUInt64 amount, walletId⟩] }
      else if utxo.output.value = intToUInt64 amount then
        { tx with
          txID := utxo.transactionId - amount.toUInt32
          senderID := walletId.toUInt16
          inputs := tx.inputs ++ [utxo.outpoint]
          outputs := tx.outputs ++ [⟨intToUInt64 amount, receiverId.toUInt32⟩] }
      else
        payFromOneCoin amount receiverId walletId rest tx

/-- The second loop: coins are spent until the `int` total reaches the amount. -/
def payFromCoins (amount receiverId : Int32) (walletId : UInt32) :
    UTXOlist → Int32 → Transaction → Int32 × Transaction
  | [], sum, tx => (sum, tx)
  | utxo :: rest, sum, tx =>
      let sum := addToTotal sum utxo.output.value
      if sum > amount then
        (sum, { tx with
          inputs := tx.inputs ++ [utxo.outpoint]
          outputs := tx.outputs ++
            [⟨intToUInt64 (sum - amount), receiverId.toUInt32⟩,
              ⟨utxo.output.value - intToUInt64 sum + intToUInt64 amount, walletId⟩] })
      else if sum = amount then
        (sum, { tx with
          inputs := tx.inputs ++ [utxo.outpoint]
          outputs := tx.outputs ++ [⟨utxo.output.value, receiverId.toUInt32⟩] })
      else
        payFromCoins amount receiverId walletId rest sum
          { tx with
            inputs := tx.inputs ++ [utxo.outpoint]
            outputs := tx.outputs ++ [⟨utxo.output.value, receiverId.toUInt32⟩] }

/-- `create_tx`: both loops, one after the other. -/
def createTx
    (amount receiverId : Int32) (utxolist : UTXOlist) (walletId : UInt32) : Transaction :=
  let (sum, tx) := payFromCoins amount receiverId walletId utxolist 0
    (payFromOneCoin amount receiverId walletId utxolist {})
  { tx with txID := sum.toUInt32, senderID := walletId.toUInt16 }

/-- What the outputs pay to one wallet. -/
def paidTo (outputs : List Output) (id : UInt32) : Nat :=
  ((outputs.filter fun o => o.receiverID = id).map fun o => o.value.toNat).sum

/-- A valid selection of coins for a payment of `amount`. -/
structure ValidSelection
    (t : Transaction) (utxolist : UTXOlist) (amount : Nat) (receiver wallet : UInt32) : Prop where
  distinct : t.inputs.Nodup
  accepted : ∀ walletIds : List UInt32, receiver ∈ walletIds → wallet ∈ walletIds →
    t.checkSpendingConditions utxolist walletIds = true
  paid : paidTo t.outputs receiver = amount
  change : paidTo t.outputs wallet + amount = t.inputSum utxolist

end Selection

section Amounts

theorem totalValue_nil :
    UTXOlist.totalValue [] = 0 := by
  rfl

theorem totalValue_cons
    (u : UTXO) (l : UTXOlist) :
    UTXOlist.totalValue (u :: l) = u.output.value.toNat + UTXOlist.totalValue l := by
  rfl

theorem totalValue_append
    (l l' : UTXOlist) :
    UTXOlist.totalValue (l ++ l') = UTXOlist.totalValue l + UTXOlist.totalValue l' := by
  simp [UTXOlist.totalValue]

theorem paidTo_append
    (outs outs' : List Output) (id : UInt32) :
    paidTo (outs ++ outs') id = paidTo outs id + paidTo outs' id := by
  simp [paidTo]

/-- Whole coins pay their sum to the receiver and nothing to anyone else. -/
theorem paidTo_coins
    (l : UTXOlist) (receiver id : UInt32) :
    paidTo (l.map fun u => ⟨u.output.value, receiver⟩) id =
      if receiver = id then l.totalValue else 0 := by
  induction l with
  | nil =>
      simp [paidTo, UTXOlist.totalValue]
  | cons u l ih =>
      rw [List.map_cons, ← List.singleton_append, paidTo_append, ih, totalValue_cons]
      by_cases hid : receiver = id
      · simp [paidTo, hid]
      · simp [paidTo, hid]

/-- A positive `int` is a natural number below 2 ^ 31. -/
theorem eq_ofNat_of_pos
    {amount : Int32}
    (hpos : 0 < amount) :
    amount = Int32.ofNat amount.toNatClampNeg ∧
      0 < amount.toNatClampNeg ∧ amount.toNatClampNeg < 2 ^ 31 := by
  have hint : (0 : Int) < amount.toInt := Int32.lt_iff_toInt_lt.mp hpos
  have hmax := Int32.toInt_lt amount
  have hnat : (amount.toNatClampNeg : Int) = amount.toInt := by
    rw [Int32.toNatClampNeg, Int.toNat_of_nonneg hint.le]
  have hlt : amount.toNatClampNeg < 2 ^ 31 := by
    omega
  refine ⟨?_, by omega, hlt⟩
  apply Int32.toInt_inj.mp
  rw [Int32.toInt_ofNat_of_lt hlt, hnat]

theorem ofNat_lt_ofNat_iff
    {a b : Nat}
    (ha : a < 2 ^ 31) (hb : b < 2 ^ 31) :
    Int32.ofNat a < Int32.ofNat b ↔ a < b := by
  rw [Int32.lt_iff_toInt_lt, Int32.toInt_ofNat_of_lt ha, Int32.toInt_ofNat_of_lt hb]
  omega

theorem toNat_ofNat_of_small
    {n : Nat}
    (hn : n < 2 ^ 31) :
    (UInt64.ofNat n).toNat = n := by
  exact UInt64.toNat_ofNat_of_lt' (Nat.lt_trans hn (by decide))

/-- The amount of a coin compares with an `int` as the numbers do. -/
theorem intToUInt64_lt_iff
    {a : Nat} {value : UInt64}
    (ha : a < 2 ^ 31) :
    intToUInt64 (Int32.ofNat a) < value ↔ a < value.toNat := by
  rw [intToUInt64_ofNat ha, UInt64.lt_iff_toNat_lt,
    toNat_ofNat_of_small ha]

end Amounts

section Loops

variable {a : Nat} {receiverId : Int32} {walletId : UInt32}

/-- The first loop changes nothing when no coin covers the amount. -/
theorem payFromOneCoin_of_small
    (ha : a < 2 ^ 31)
    (tx : Transaction) (l : UTXOlist)
    (hsmall : ∀ u ∈ l, u.output.value.toNat < a) :
    payFromOneCoin (Int32.ofNat a) receiverId walletId l tx = tx := by
  induction l with
  | nil =>
      rfl
  | cons u l ih =>
      have hu := hsmall u List.mem_cons_self
      have hgt : ¬ u.output.value > intToUInt64 (Int32.ofNat a) := by
        rw [gt_iff_lt, intToUInt64_lt_iff ha]
        omega
      have hne : ¬ u.output.value = intToUInt64 (Int32.ofNat a) := by
        intro heq
        rw [heq, intToUInt64_ofNat ha, toNat_ofNat_of_small ha] at hu
        exact Nat.lt_irrefl a hu
      rw [payFromOneCoin, if_neg hgt, if_neg hne]
      exact ih fun v hv => hsmall v (List.mem_cons_of_mem u hv)

/-- A coin that covers the amount pays all of it to the receiver. -/
theorem le_paidTo_payFromOneCoin
    (ha : a < 2 ^ 31)
    (tx : Transaction) (l : UTXOlist)
    (hlarge : ∃ u ∈ l, a ≤ u.output.value.toNat) :
    a ≤ paidTo (payFromOneCoin (Int32.ofNat a) receiverId walletId l tx).outputs
      receiverId.toUInt32 := by
  have hamount : (intToUInt64 (Int32.ofNat a)).toNat = a := by
    rw [intToUInt64_ofNat ha, toNat_ofNat_of_small ha]
  have hpaid : ∀ outs outs' : List Output,
      a ≤ paidTo (outs ++ (⟨intToUInt64 (Int32.ofNat a), receiverId.toUInt32⟩ :: outs'))
        receiverId.toUInt32 := by
    intro outs outs'
    rw [paidTo_append, ← List.singleton_append, paidTo_append]
    have hone : paidTo [⟨intToUInt64 (Int32.ofNat a), receiverId.toUInt32⟩]
        receiverId.toUInt32 = a := by
      simp [paidTo, hamount]
    omega
  induction l with
  | nil =>
      obtain ⟨u, hu, _⟩ := hlarge
      cases hu
  | cons u l ih =>
      rw [payFromOneCoin]
      split
      · exact hpaid tx.outputs _
      · rename_i hgt
        split
        · exact hpaid tx.outputs []
        · rename_i hne
          apply ih
          obtain ⟨v, hv, hle⟩ := hlarge
          rcases List.mem_cons.mp hv with rfl | hv
          · -- a coin that neither exceeds nor equals the amount is smaller
            rw [gt_iff_lt, intToUInt64_lt_iff ha] at hgt
            exact absurd (UInt64.toNat_inj.mp (by omega)) hne
          · exact ⟨v, hv, hle⟩

/-- What the last coin of the second loop pays, where `spent` was collected before. -/
def lastOutputs (a spent : Nat) (value : UInt64) (receiver wallet : UInt32) : List Output :=
  if spent + value.toNat = a then
    [⟨value, receiver⟩]
  else
    [⟨UInt64.ofNat (spent + value.toNat - a), receiver⟩, ⟨UInt64.ofNat (a - spent), wallet⟩]

/-- The amount an output gives back, `value - sum + amount` in 64 bits. -/
theorem change_eq
    {spent : Nat} {value : UInt64}
    (hbelow : spent < a)
    (hbound : spent + value.toNat < 2 ^ 31)
    (hover : a < spent + value.toNat) :
    value - intToUInt64 (Int32.ofNat (spent + value.toNat)) + intToUInt64 (Int32.ofNat a) =
      UInt64.ofNat (a - spent) := by
  rw [intToUInt64_ofNat hbound, intToUInt64_ofNat (by omega)]
  apply UInt64.toNat_inj.mp
  rw [UInt64.toNat_add, UInt64.toNat_sub, toNat_ofNat_of_small hbound,
    toNat_ofNat_of_small (by omega), toNat_ofNat_of_small (by omega)]
  omega

/-- The second loop spends the coins up to the one with which they reach the amount. -/
theorem payFromCoins_spec
    (ha : a < 2 ^ 31)
    (used : UTXOlist) (u : UTXO) (rest : UTXOlist) :
    ∀ (spent : Nat) (tx : Transaction),
      spent + used.totalValue < a →
      a ≤ spent + used.totalValue + u.output.value.toNat →
      spent + used.totalValue + u.output.value.toNat < 2 ^ 31 →
      (payFromCoins (Int32.ofNat a) receiverId walletId (used ++ u :: rest)
          (Int32.ofNat spent) tx).2.inputs =
        tx.inputs ++ (used ++ [u]).outpoints ∧
      (payFromCoins (Int32.ofNat a) receiverId walletId (used ++ u :: rest)
          (Int32.ofNat spent) tx).2.outputs =
        tx.outputs ++ (used.map fun v => ⟨v.output.value, receiverId.toUInt32⟩) ++
          lastOutputs a (spent + used.totalValue) u.output.value receiverId.toUInt32 walletId := by
  induction used with
  | nil =>
      intro spent tx hbelow hreach hbound
      rw [totalValue_nil, Nat.add_zero] at hbelow hreach hbound ⊢
      rw [List.nil_append, payFromCoins, addToTotal_ofNat]
      by_cases hexact : spent + u.output.value.toNat = a
      · have hgt : ¬ Int32.ofNat (spent + u.output.value.toNat) > Int32.ofNat a := by
          rw [gt_iff_lt, ofNat_lt_ofNat_iff ha hbound]
          omega
        rw [if_neg hgt, if_pos (congrArg Int32.ofNat hexact), lastOutputs, if_pos hexact]
        simp [UTXOlist.outpoints]
      · have hover : a < spent + u.output.value.toNat := by
          omega
        have hgt : Int32.ofNat (spent + u.output.value.toNat) > Int32.ofNat a :=
          (ofNat_lt_ofNat_iff ha hbound).mpr hover
        have hexcess : Int32.ofNat (spent + u.output.value.toNat) - Int32.ofNat a =
            Int32.ofNat (spent + u.output.value.toNat - a) := by
          rw [Int32.ofNat_sub _ _ hover.le]
        rw [if_pos hgt, lastOutputs, if_neg hexact, change_eq hbelow hbound hover, hexcess,
          intToUInt64_ofNat (by omega)]
        simp [UTXOlist.outpoints]
  | cons v used ih =>
      intro spent tx hbelow hreach hbound
      rw [totalValue_cons, ← Nat.add_assoc] at hbelow hreach hbound ⊢
      have hgt : ¬ Int32.ofNat (spent + v.output.value.toNat) > Int32.ofNat a := by
        rw [gt_iff_lt, ofNat_lt_ofNat_iff ha (by omega)]
        omega
      have hne : ¬ Int32.ofNat (spent + v.output.value.toNat) = Int32.ofNat a := by
        rw [ofNat_eq_ofNat_iff]
        omega
      rw [List.cons_append, payFromCoins, addToTotal_ofNat, if_neg hgt, if_neg hne]
      obtain ⟨hinputs, houtputs⟩ := ih (spent + v.output.value.toNat) _ hbelow hreach hbound
      rw [hinputs, houtputs]
      simp [UTXOlist.outpoints]

end Loops

section Validity

variable {utxolist : UTXOlist}

/-- With distinct outpoints the reference to a coin finds this coin. -/
theorem spentValue_outpoint
    (hdistinct : utxolist.outpoints.Nodup)
    {u : UTXO}
    (hu : u ∈ utxolist) :
    spentValue utxolist u.outpoint = u.output.value.toNat := by
  obtain ⟨v, hv⟩ := Option.isSome_iff_exists.mp
    ((UTXOlist.find_isSome_iff utxolist u.outpoint).mpr (List.mem_map_of_mem hu))
  have hmatch : v.outpoint = u.outpoint := by
    simpa using List.find?_some hv
  have hsame : v = u :=
    List.inj_on_of_nodup_map hdistinct (List.mem_of_find?_eq_some hv) hu hmatch
  rw [spentValue, hv, hsame]
  rfl

/-- The references to coins of the list are worth the coins. -/
theorem sum_spentValue_outpoints
    (hdistinct : utxolist.outpoints.Nodup)
    {l : UTXOlist}
    (hl : l ⊆ utxolist) :
    (l.outpoints.map (spentValue utxolist)).sum = l.totalValue := by
  have hvalues : l.outpoints.map (spentValue utxolist) = l.map fun u => u.output.value.toNat := by
    rw [UTXOlist.outpoints, List.map_map]
    apply List.map_congr_left
    intro u hu
    exact spentValue_outpoint hdistinct (hl hu)
  rw [hvalues]
  rfl

/-- Some coin is the first with which the amount is reached. -/
theorem exists_reaching_coin
    (l : UTXOlist) :
    ∀ {a : Nat}, 0 < a → a ≤ l.totalValue →
      ∃ used u rest, l = used ++ u :: rest ∧ UTXOlist.totalValue used < a ∧
        a ≤ UTXOlist.totalValue used + u.output.value.toNat := by
  induction l with
  | nil =>
      intro a hpos hle
      rw [totalValue_nil] at hle
      omega
  | cons u l ih =>
      intro a hpos hle
      rw [totalValue_cons] at hle
      by_cases hfirst : a ≤ u.output.value.toNat
      · refine ⟨[], u, l, rfl, ?_⟩
        rw [totalValue_nil]
        omega
      · obtain ⟨used, v, rest, rfl, hbelow, hreach⟩ :=
          @ih (a - u.output.value.toNat) (by omega) (by omega)
        refine ⟨u :: used, v, rest, rfl, ?_⟩
        rw [totalValue_cons]
        omega

variable {a spent : Nat} {value : UInt64} {receiver wallet : UInt32}

theorem paidTo_lastOutputs_receiver
    (hother : receiver ≠ wallet)
    (hbound : spent + value.toNat < 2 ^ 31) :
    paidTo (lastOutputs a spent value receiver wallet) receiver =
      if spent + value.toNat = a then value.toNat else spent + value.toNat - a := by
  have hexcess := toNat_ofNat_of_small (show spent + value.toNat - a < 2 ^ 31 by omega)
  unfold lastOutputs
  split
  · simp [paidTo]
  · simp [paidTo, hother.symm, hexcess]

theorem paidTo_lastOutputs_wallet
    (hother : receiver ≠ wallet)
    (ha : a < 2 ^ 31) :
    paidTo (lastOutputs a spent value receiver wallet) wallet =
      if spent + value.toNat = a then 0 else a - spent := by
  have hmissing := toNat_ofNat_of_small (show a - spent < 2 ^ 31 by omega)
  unfold lastOutputs
  split
  · simp [paidTo, hother]
  · simp [paidTo, hother, hmissing]

/-- Outputs to two wallets are worth what these two are paid. -/
theorem sum_value_eq_paidTo
    (hother : receiver ≠ wallet)
    (outs : List Output)
    (honly : ∀ o ∈ outs, o.receiverID = receiver ∨ o.receiverID = wallet) :
    (outs.map fun o => o.value.toNat).sum = paidTo outs receiver + paidTo outs wallet := by
  induction outs with
  | nil =>
      rfl
  | cons o outs ih =>
      have hrest := ih fun o' ho' => honly o' (List.mem_cons_of_mem o ho')
      rw [List.map_cons, List.sum_cons, hrest, ← List.singleton_append, paidTo_append,
        paidTo_append]
      rcases honly o List.mem_cons_self with hid | hid
      · simp [paidTo, hid, hother]
        omega
      · simp [paidTo, hid, hother.symm]
        omega

/-- Whole coins are paid to the receiver and the last coin to the receiver or the wallet. -/
theorem receiver_of_mem_outputs
    (a : Nat) (receiverId : Int32) (walletId : UInt32) (used : UTXOlist) (u : UTXO) :
    ∀ o ∈ (used.map fun v => (⟨v.output.value, receiverId.toUInt32⟩ : Output)) ++
        lastOutputs a used.totalValue u.output.value receiverId.toUInt32 walletId,
      o.receiverID = receiverId.toUInt32 ∨ o.receiverID = walletId := by
  intro o ho
  rcases List.mem_append.mp ho with ho | ho
  · obtain ⟨v, _, rfl⟩ := List.mem_map.mp ho
    exact Or.inl rfl
  · unfold lastOutputs at ho
    split at ho
    · rw [List.mem_singleton.mp ho]
      exact Or.inl rfl
    · rcases List.mem_pair.mp ho with rfl | rfl
      · exact Or.inl rfl
      · exact Or.inr rfl

end Validity

section Condition

variable {a : Nat} {receiverId : Int32} {walletId : UInt32}
  {used rest : UTXOlist} {u : UTXO}

/-- The collected coins give the amount, or exceed it by what was missing before the last. -/
def ReachedEvenly (a : Nat) (used : UTXOlist) (u : UTXO) : Prop :=
  used.totalValue + u.output.value.toNat = a ∨
    used.totalValue + (used.totalValue + u.output.value.toNat) = 2 * a

/-- After the coins `used`, `u` is the one with which the total reaches the amount. -/
structure ReachedBy (a : Nat) (used : UTXOlist) (u : UTXO) : Prop where
  amount : a < 2 ^ 31
  below : used.totalValue < a
  reach : a ≤ used.totalValue + u.output.value.toNat
  bound : used.totalValue + u.output.value.toNat < 2 ^ 31

/-- The inputs and outputs of the transaction, where `u` is the coin that reaches the amount. -/
theorem createTx_spec
    (h : ReachedBy a used u) :
    let first := payFromOneCoin (Int32.ofNat a) receiverId walletId (used ++ u :: rest) {}
    let t := createTx (Int32.ofNat a) receiverId (used ++ u :: rest) walletId
    t.inputs = first.inputs ++ (used ++ [u]).outpoints ∧
      t.outputs = first.outputs ++ (used.map fun v => ⟨v.output.value, receiverId.toUInt32⟩) ++
        lastOutputs a used.totalValue u.output.value receiverId.toUInt32 walletId := by
  intro first t
  have hspec := @payFromCoins_spec a receiverId walletId h.amount used u rest 0 first
  rw [Nat.zero_add] at hspec
  exact hspec h.below h.reach h.bound

/-- What the receiver is paid: by the first loop, by whole coins and by the last coin. -/
theorem paidTo_createTx_receiver
    (h : ReachedBy a used u)
    (hother : receiverId.toUInt32 ≠ walletId) :
    paidTo (createTx (Int32.ofNat a) receiverId (used ++ u :: rest) walletId).outputs
        receiverId.toUInt32 =
      paidTo (payFromOneCoin (Int32.ofNat a) receiverId walletId (used ++ u :: rest) {}).outputs
          receiverId.toUInt32 +
        used.totalValue +
          if used.totalValue + u.output.value.toNat = a then u.output.value.toNat
          else used.totalValue + u.output.value.toNat - a := by
  rw [(createTx_spec h).2, paidTo_append, paidTo_append, paidTo_coins, if_pos rfl,
    paidTo_lastOutputs_receiver hother h.bound]

/-- A coin that covers the amount makes the receiver be paid twice. -/
theorem paidTo_ne_of_large
    (h : ReachedBy a used u)
    (hother : receiverId.toUInt32 ≠ walletId)
    (hlarge : ∃ v ∈ used ++ u :: rest, a ≤ v.output.value.toNat) :
    paidTo (createTx (Int32.ofNat a) receiverId (used ++ u :: rest) walletId).outputs
      receiverId.toUInt32 ≠ a := by
  have hfirst := @le_paidTo_payFromOneCoin a receiverId walletId h.amount {} _ hlarge
  have hbelow := h.below
  have hreach := h.reach
  rw [paidTo_createTx_receiver h hother]
  split
  · omega
  · omega

/-- Without such a coin the receiver is paid the amount in the two even cases only. -/
theorem paidTo_eq_iff_of_small
    (h : ReachedBy a used u)
    (hother : receiverId.toUInt32 ≠ walletId)
    (hsmall : ∀ v ∈ used ++ u :: rest, v.output.value.toNat < a) :
    paidTo (createTx (Int32.ofNat a) receiverId (used ++ u :: rest) walletId).outputs
      receiverId.toUInt32 = a ↔ ReachedEvenly a used u := by
  have hnothing : paidTo ({} : Transaction).outputs receiverId.toUInt32 = 0 := rfl
  have hbelow := h.below
  have hreach := h.reach
  rw [paidTo_createTx_receiver h hother, payFromOneCoin_of_small h.amount _ _ hsmall, hnothing]
  unfold ReachedEvenly
  split
  · omega
  · omega

/-- In the two even cases the wallet gets back what the coins exceed the amount by. -/
theorem paidTo_wallet_of_reachedEvenly
    (h : ReachedBy a used u)
    (hother : receiverId.toUInt32 ≠ walletId)
    (hsmall : ∀ v ∈ used ++ u :: rest, v.output.value.toNat < a)
    (heven : ReachedEvenly a used u) :
    paidTo (createTx (Int32.ofNat a) receiverId (used ++ u :: rest) walletId).outputs walletId +
      a = used.totalValue + u.output.value.toNat := by
  have hnothing : paidTo ({} : Transaction).outputs walletId = 0 := rfl
  have hbelow := h.below
  rw [(createTx_spec h).2, payFromOneCoin_of_small h.amount _ _ hsmall, paidTo_append,
    paidTo_append, hnothing, paidTo_coins, if_neg hother,
    paidTo_lastOutputs_wallet hother h.amount]
  unfold ReachedEvenly at heven
  split
  · omega
  · omega

/-- In the two even cases the selection is valid. -/
theorem valid_of_reachedEvenly
    (h : ReachedBy a used u)
    (hdistinct : UTXOlist.outpoints (used ++ u :: rest) |>.Nodup)
    (hother : receiverId.toUInt32 ≠ walletId)
    (hsmall : ∀ v ∈ used ++ u :: rest, v.output.value.toNat < a)
    (heven : ReachedEvenly a used u) :
    ValidSelection (createTx (Int32.ofNat a) receiverId (used ++ u :: rest) walletId)
      (used ++ u :: rest) a receiverId.toUInt32 walletId := by
  have hpaid := (paidTo_eq_iff_of_small h hother hsmall).mpr heven
  have hchange := paidTo_wallet_of_reachedEvenly h hother hsmall heven
  obtain ⟨hinputs, houtputs⟩ := @createTx_spec a receiverId walletId used rest u h
  rw [payFromOneCoin_of_small h.amount _ _ hsmall] at hinputs houtputs
  rw [List.nil_append] at hinputs houtputs
  have hpre : (used ++ [u]).Sublist (used ++ u :: rest) :=
    List.Sublist.append_left (List.singleton_sublist.mpr List.mem_cons_self) used
  have hspent : (createTx (Int32.ofNat a) receiverId (used ++ u :: rest) walletId).inputSum
      (used ++ u :: rest) = used.totalValue + u.output.value.toNat := by
    rw [inputSum, hinputs, sum_spentValue_outpoints hdistinct hpre.subset, totalValue_append,
      totalValue_cons, totalValue_nil, Nat.add_zero]
  have honly := receiver_of_mem_outputs a receiverId walletId used u
  rw [← houtputs] at honly
  constructor
  · rw [hinputs]
    exact hdistinct.sublist (hpre.map UTXO.outpoint)
  · intro walletIds hreceiver hwallet
    refine (checkSpendingConditions_iff ?_).mpr ⟨⟨?_, ?_⟩, ?_⟩
    · rw [hinputs]
      simp [UTXOlist.outpoints]
    · intro input hinput
      rw [hinputs] at hinput
      exact (hpre.map UTXO.outpoint).subset hinput
    · intro o ho
      rcases honly o ho with hid | hid
      · rw [hid]
        exact hreceiver
      · rw [hid]
        exact hwallet
    · rw [hspent, outputSum, sum_value_eq_paidTo hother _ honly, hpaid, ← hchange, Nat.add_comm]
  · exact hpaid
  · rw [hchange, hspent]

/--
The selection is valid exactly if no coin covers the amount and the coins
collected in their order reach it evenly.
-/
theorem createTx_valid_iff
    (amount receiverId : Int32) (utxolist : UTXOlist) (walletId : UInt32)
    (hdistinct : utxolist.outpoints.Nodup)
    (htotal : utxolist.totalValue < 2 ^ 31)
    (hpos : 0 < amount)
    (hcovered : amount.toNatClampNeg ≤ utxolist.totalValue)
    (hother : receiverId.toUInt32 ≠ walletId) :
    ValidSelection (createTx amount receiverId utxolist walletId) utxolist amount.toNatClampNeg
        receiverId.toUInt32 walletId ↔
      (∀ u ∈ utxolist, u.output.value.toNat < amount.toNatClampNeg) ∧
        ∃ used u rest, utxolist = used ++ u :: rest ∧
          UTXOlist.totalValue used < amount.toNatClampNeg ∧
          ReachedEvenly amount.toNatClampNeg used u := by
  obtain ⟨hamount, hnat, ha⟩ := eq_ofNat_of_pos hpos
  generalize amount.toNatClampNeg = a at *
  subst hamount
  have hbound : ∀ used u rest, utxolist = used ++ u :: rest →
      UTXOlist.totalValue used + u.output.value.toNat < 2 ^ 31 := by
    rintro used u rest rfl
    rw [totalValue_append, totalValue_cons] at htotal
    omega
  constructor
  · intro hvalid
    obtain ⟨used, u, rest, hlist, hbelow, hreach⟩ := exists_reaching_coin utxolist hnat hcovered
    have h : ReachedBy a used u := ⟨ha, hbelow, hreach, hbound used u rest hlist⟩
    subst hlist
    have hsmall : ∀ v ∈ used ++ u :: rest, v.output.value.toNat < a := by
      intro v hv
      by_contra hlarge
      exact paidTo_ne_of_large h hother ⟨v, hv, Nat.le_of_not_lt hlarge⟩ hvalid.paid
    exact ⟨hsmall, used, u, rest, rfl, hbelow,
      (paidTo_eq_iff_of_small h hother hsmall).mp hvalid.paid⟩
  · rintro ⟨hsmall, used, u, rest, hlist, hbelow, heven⟩
    have hreach : a ≤ used.totalValue + u.output.value.toNat := by
      unfold ReachedEvenly at heven
      omega
    have h : ReachedBy a used u := ⟨ha, hbelow, hreach, hbound used u rest hlist⟩
    subst hlist
    exact valid_of_reachedEvenly h hdistinct hother hsmall heven

/--
Two coins of 3 and 2 pay 5 to wallet 2, and so do two coins of 3 and 4: the second
one brings as much too much as was missing.
-/
theorem two_coins_valid :
    ValidSelection (createTx 5 2 [⟨0, 0, ⟨3, 1⟩⟩, ⟨1, 0, ⟨2, 1⟩⟩] 1)
        [⟨0, 0, ⟨3, 1⟩⟩, ⟨1, 0, ⟨2, 1⟩⟩] 5 2 1 ∧
      ValidSelection (createTx 5 2 [⟨0, 0, ⟨3, 1⟩⟩, ⟨1, 0, ⟨4, 1⟩⟩] 1)
        [⟨0, 0, ⟨3, 1⟩⟩, ⟨1, 0, ⟨4, 1⟩⟩] 5 2 1 := by
  constructor
  · refine (createTx_valid_iff 5 2 [⟨0, 0, ⟨3, 1⟩⟩, ⟨1, 0, ⟨2, 1⟩⟩] 1 (by decide) (by decide)
      (by decide) (by decide) (by decide)).mpr ⟨by decide, [⟨0, 0, ⟨3, 1⟩⟩], ⟨1, 0, ⟨2, 1⟩⟩, [],
        rfl, by decide, ?_⟩
    exact Or.inl rfl
  · refine (createTx_valid_iff 5 2 [⟨0, 0, ⟨3, 1⟩⟩, ⟨1, 0, ⟨4, 1⟩⟩] 1 (by decide) (by decide)
      (by decide) (by decide) (by decide)).mpr ⟨by decide, [⟨0, 0, ⟨3, 1⟩⟩], ⟨1, 0, ⟨4, 1⟩⟩, [],
        rfl, by decide, ?_⟩
    exact Or.inr rfl

/-- A payment of 4 from one coin of 10 spends the coin twice. -/
theorem one_coin_spent_twice :
    ¬ ∀ (amount receiverId : Int32) (utxolist : UTXOlist) (walletId : UInt32),
      utxolist.outpoints.Nodup → utxolist.totalValue < 2 ^ 31 → 0 < amount →
      amount.toNatClampNeg ≤ utxolist.totalValue → receiverId.toUInt32 ≠ walletId →
      ValidSelection (createTx amount receiverId utxolist walletId) utxolist
        amount.toNatClampNeg receiverId.toUInt32 walletId := by
  intro h
  have hvalid := h 4 2 [⟨0, 0, ⟨10, 1⟩⟩] 1 (by decide) (by decide) (by decide) (by decide)
    (by decide)
  exact absurd hvalid.distinct (by decide)

end Condition

end InteractiveWallet

end CosiCoin
