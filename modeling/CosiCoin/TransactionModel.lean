import CosiCoin.LamportSignature

/-!
# COSICOIN: unspent outputs and transactions

The classes `Input`, `Output`, `UTXO`, `UTXOlist` and `Transaction` of
include/blockchain.  Amounts, identifiers and positions keep the widths of the
source: an output position is a `uint64_t` in an input and an `int` in an
unspent output, and the totals compared by `checkSpendingConditions` are `int`
variables to which `uint64_t` amounts are added.

`UTXOlist::index` returns the first position or `-1`; here `none` stands for
`-1`.  `UTXOlist::erase` is only defined for positions inside the list.
-/

namespace CosiCoin

/-- A reference to output `outputIndex` of transaction `txID`. -/
structure Input where
  txID : UInt32
  outputIndex : UInt64
deriving DecidableEq

/-- An amount and the wallet that receives it. -/
structure Output where
  value : UInt64
  receiverID : UInt32
deriving DecidableEq

/-- An unspent output, with the transaction and position it comes from. -/
structure UTXO where
  transactionId : UInt32
  outputIndex : Int32
  output : Output
deriving DecidableEq

/-- The `uint64_t` an `int` is converted to in a comparison or an addition. -/
def intToUInt64 (k : Int32) : UInt64 :=
  k.toInt64.toUInt64

/-- The pair by which an input refers to the unspent output. -/
def UTXO.outpoint (u : UTXO) : Input :=
  ⟨u.transactionId, intToUInt64 u.outputIndex⟩

/-- The wrapped `std::vector<UTXO>`. -/
abbrev UTXOlist := List UTXO

namespace UTXOlist

/-- The first unspent output an input refers to. -/
def find (l : UTXOlist) (input : Input) : Option UTXO :=
  l.find? fun u => u.outpoint == input

/-- `UTXOlist::index`, with `none` for `-1`. -/
def index (l : UTXOlist) (input : Input) : Option Nat :=
  l.findIdx? fun u => u.outpoint == input

/-- `UTXOlist::erase`; a position outside the list is undefined behaviour. -/
def erase (l : UTXOlist) (position : Nat) : Option UTXOlist :=
  if position < l.length then some (l.eraseIdx position) else none

/-- The references to all unspent outputs of the list. -/
def outpoints (l : UTXOlist) : List Input :=
  l.map UTXO.outpoint

/-- The exact sum of the amounts. -/
def totalValue (l : UTXOlist) : Nat :=
  (l.map fun u => u.output.value.toNat).sum

theorem find_isSome_iff
    (l : UTXOlist) (input : Input) :
    (l.find input).isSome = true ↔ input ∈ l.outpoints := by
  simp [find, outpoints]

theorem index_isSome_iff
    (l : UTXOlist) (input : Input) :
    (∃ i, l.index input = some i) ↔ input ∈ l.outpoints := by
  simp only [index, List.findIdx?_eq_some_iff_getElem, outpoints, List.mem_map]
  constructor
  · rintro ⟨i, hi, hmatch, _⟩
    exact ⟨l[i], List.getElem_mem hi, by simpa using hmatch⟩
  · rintro ⟨u, hu, rfl⟩
    have hsome : (l.findIdx? fun v => v.outpoint == u.outpoint).isSome = true := by
      rw [List.findIdx?_isSome]
      simp only [List.any_eq_true]
      exact ⟨u, hu, by simp⟩
    obtain ⟨i, hi⟩ := Option.isSome_iff_exists.mp hsome
    exact ⟨i, List.findIdx?_eq_some_iff_getElem.mp hi⟩

/-- The position found by `index` holds an unspent output with that reference. -/
theorem index_spec
    {l : UTXOlist} {input : Input} {i : Nat}
    (h : l.index input = some i) :
    ∃ hi : i < l.length, l[i].outpoint = input := by
  obtain ⟨hi, hmatch, _⟩ := List.findIdx?_eq_some_iff_getElem.mp h
  exact ⟨hi, by simpa using hmatch⟩

theorem index_eq_none_iff
    (l : UTXOlist) (input : Input) :
    l.index input = none ↔ input ∉ l.outpoints := by
  rw [← index_isSome_iff, ← Option.not_isSome_iff_eq_none, Option.isSome_iff_exists]

end UTXOlist

/-- A transfer of unspent outputs of one wallet. -/
structure Transaction where
  inputs : List Input := []
  outputs : List Output := []
  senderSig : List Str := []
  senderID : UInt16 := 0
  txID : UInt32 := 0
  publicKey : SigKey := {}
deriving DecidableEq

namespace Transaction

/-- `int += uint64_t`: the sum is formed in 64 bits and cut to 32. -/
def addToTotal (total : Int32) (value : UInt64) : Int32 :=
  (intToUInt64 total + value).toInt64.toInt32

/-- The total of the outputs. -/
def totalOutputValue (t : Transaction) : Int32 :=
  t.outputs.foldl (fun total o => addToTotal total o.value) 0

/-- The total of the unspent outputs referred to, `none` when one is missing. -/
def totalInputValue (utxo : UTXOlist) : List Input → Int32 → Option Int32
  | [], total => some total
  | input :: rest, total =>
      match utxo.find input with
      | some u => totalInputValue utxo rest (addToTotal total u.output.value)
      | none => none

/-- `Transaction::checkSpendingConditions`. -/
def checkSpendingConditions
    (t : Transaction) (utxolist : UTXOlist) (walletIds : List UInt32) : Bool :=
  if t.inputs.length = 0 then
    t.outputs.length == 0
  else
    match totalInputValue utxolist t.inputs 0 with
    | none => false
    | some total =>
        total == t.totalOutputValue &&
          t.outputs.all fun o => walletIds.any fun key => o.receiverID == key

/-- `Transaction::getStringDigest`, the text that is hashed. -/
def getStringDigest (t : Transaction) : Str :=
  decimal t.txID.toNat ++
    (t.inputs.flatMap fun i =>
      decimal i.txID.toNat ++ decimal i.outputIndex.toNat) ++
    (t.outputs.flatMap fun o =>
      decimal o.value.toNat ++ decimal o.receiverID.toNat)

/-- `Transaction::getDigest`. -/
def getDigest [Platform] (t : Transaction) : Str :=
  hash t.getStringDigest

theorem mem_outpoints_of_totalInputValue
    {utxo : UTXOlist} :
    ∀ {inputs : List Input} {total result : Int32},
      totalInputValue utxo inputs total = some result →
      ∀ input ∈ inputs, input ∈ utxo.outpoints
  | [], _, _, _, input, hin => by simp at hin
  | i :: rest, total, result, h, input, hin => by
      unfold totalInputValue at h
      cases hfind : utxo.find i with
      | none =>
          simp [hfind] at h
      | some u =>
          simp only [hfind] at h
          rcases List.mem_cons.mp hin with rfl | hrest
          · exact (UTXOlist.find_isSome_iff utxo input).mp (by simp [hfind])
          · exact mem_outpoints_of_totalInputValue h input hrest

/-- Every input of an accepted transaction is in the list it was checked against. -/
theorem mem_outpoints_of_checkSpendingConditions
    {t : Transaction} {utxo : UTXOlist} {walletIds : List UInt32}
    (h : t.checkSpendingConditions utxo walletIds = true) :
    ∀ input ∈ t.inputs, input ∈ utxo.outpoints := by
  intro input hin
  unfold checkSpendingConditions at h
  have hne : t.inputs.length ≠ 0 := by
    intro hzero
    rw [List.length_eq_zero_iff.mp hzero] at hin
    simp at hin
  rw [if_neg hne] at h
  split at h
  · cases h
  · rename_i total htotal
    exact mem_outpoints_of_totalInputValue htotal input hin

/-- An accepted transaction without inputs has no outputs. -/
theorem outputs_eq_nil_of_checkSpendingConditions
    {t : Transaction} {utxo : UTXOlist} {walletIds : List UInt32}
    (h : t.checkSpendingConditions utxo walletIds = true)
    (hin : t.inputs = []) :
    t.outputs = [] := by
  simpa [checkSpendingConditions, hin] using h

end Transaction

end CosiCoin
