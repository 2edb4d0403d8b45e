import CosiCoin.BlockModel
import CosiCoin.JsonReading
import CosiCoin.WireFormat

/-!
# COSICOIN: blocks as text

The functions `to_string` and `from_string` of inputs, outputs, headers,
transactions and blocks.  Every level is a JSON document that holds the texts of
the level below as strings, with the members in the order of their names.

A list becomes a member only when it has an element.  `from_string` asks for
"inputs", "outputs" and "transactions" with `at`, which throws when the member is
missing; only "validatorSigs" and "publicKey" are asked for with `contains`.
-/

namespace CosiCoin

section Bits

/-- `bitset::to_string`: the highest bit first. -/
def bitsetText (bits : Nat → Bool) : Str :=
  (List.range keyLen).map fun p => if bits (keyLen - 1 - p) then 49 else 48

/-- `bitset(str)`: only the first `KEY_LEN_` characters are read. -/
def bitsetOfText (str : Str) : Except String (Nat → Bool) :=
  let digits := str.take keyLen
  if digits.all fun c => c == 48 || c == 49 then
    .ok fun i => i < digits.length && digits.getD (digits.length - 1 - i) 48 == 49
  else
    .error "bitset::_M_copy_from_ptr"

/-- `signature::bitset_to_string`. -/
def bitsetToString (bits : Nat → Bool) : Str :=
  (List.range (keyLen / 8)).map fun k => UInt8.ofNat (Nat.ofBits fun j : Fin 8 => bits (8 * k + j))

/-- The first `KEY_LEN_ / 8` bytes of a string, filled up with zeros. -/
def pad (s : Str) : Str :=
  (List.range (keyLen / 8)).map fun k => s.getD k 0

theorem pad_eq_self_iff
    (s : Str) :
    pad s = s ↔ s.length = keyLen / 8 := by
  constructor
  · intro h
    rw [← h, pad, List.length_map, List.length_range]
  · intro h
    apply List.ext_getElem
    · rw [pad, List.length_map, List.length_range, h]
    · intro i hi hi'
      simp [pad, hi']

theorem bitsetToString_stringToBitset
    (s : Str) :
    bitsetToString (stringToBitset s) = pad s := by
  apply List.map_congr_left
  intro k _
  have hbits : (fun j : Fin 8 => stringToBitset s (8 * k + j)) =
      fun j : Fin 8 => (s.getD k 0).toNat.testBit j := by
    funext j
    have hj := j.isLt
    rw [stringToBitset, Nat.mul_add_div (by decide), Nat.mul_add_mod, Nat.div_eq_of_lt hj,
      Nat.mod_eq_of_lt hj, Nat.add_zero]
  rw [hbits, Nat.ofBits_testBit, Nat.mod_eq_of_lt (s.getD k 0).toNat_lt, UInt8.ofNat_toNat]

/-- The bits of a written bit set. -/
theorem bitsetOfText_bitsetText
    (bits : Nat → Bool) :
    ∃ bits', bitsetOfText (bitsetText bits) = .ok bits' ∧ ∀ i < keyLen, bits' i = bits i := by
  have hlength : (bitsetText bits).length = keyLen := by
    rw [bitsetText, List.length_map, List.length_range]
  have htake : (bitsetText bits).take keyLen = bitsetText bits := by
    rw [← hlength, List.take_length]
  have hdigits : ((bitsetText bits).all fun c => c == 48 || c == 49) = true := by
    rw [List.all_eq_true]
    intro c hc
    obtain ⟨p, _, rfl⟩ := List.mem_map.mp hc
    cases bits (keyLen - 1 - p) <;> rfl
  have hread : bitsetOfText (bitsetText bits) = .ok fun i =>
      i < keyLen && (bitsetText bits).getD (keyLen - 1 - i) 48 == 49 := by
    unfold bitsetOfText
    simp only [htake, hlength]
    exact if_pos hdigits
  refine ⟨_, hread, ?_⟩
  intro i hi
  have hp : keyLen - 1 - i < keyLen := by omega
  have hi' : keyLen - 1 - (keyLen - 1 - i) = i := by omega
  have hchar : (bitsetText bits).getD (keyLen - 1 - i) 48 = if bits i then 49 else 48 := by
    simp [bitsetText, hp, hi']
  simp only [hi, hchar, decide_true, Bool.true_and]
  cases bits i <;> rfl

/-- Only the first `KEY_LEN_` bits are written as bytes. -/
theorem bitsetToString_congr
    {bits bits' : Nat → Bool}
    (h : ∀ i < keyLen, bits i = bits' i) :
    bitsetToString bits = bitsetToString bits' := by
  apply List.map_congr_left
  intro k hk
  have hk' := List.mem_range.mp hk
  have hsame : (fun j : Fin 8 => bits (8 * k + j)) = fun j : Fin 8 => bits' (8 * k + j) := by
    funext j
    have hj := j.isLt
    refine h _ ?_
    unfold keyLen at hk' ⊢
    omega
  rw [hsame]

end Bits

section Texts

variable [Platform]

/--
`signature::signature_to_json`.  A string of more than `KEY_LEN_ / 8` bytes is
written outside the bit set, which is undefined and ends the run.
-/
def signatureToJson (signature : List Str) : Except String Str :=
  if signature.all fun s => s.length ≤ keyLen / 8 then
    dump (if signature = [] then .null
      else .arr (signature.map fun s => .str (bitsetText (stringToBitset s))))
  else
    .error "bitset position out of range"

/-- One element of `json_to_string`. -/
def signatureString (el : Json) : Except String Str := do
  let bits ← bitsetOfText (← el.getString)
  return bitsetToString bits

/-- `signature::json_to_string`. -/
def jsonToString (text : Str) : Except String (List Str) := do
  (← parse text).items.mapM signatureString

/-- The member name "outputIndex". -/
def nameOutputIndex : Str := ascii ['o', 'u', 't', 'p', 'u', 't', 'I', 'n', 'd', 'e', 'x']

/-- `Input::to_string`. -/
def Input.toText (i : Input) : Except String Str :=
  dump (.obj [(nameOutputIndex, .num i.outputIndex.toNat), (nameTxID, .num i.txID.toNat)])

/-- `Input::from_string`. -/
def Input.fromText (text : Str) : Except String Input := do
  let j ← parse text
  let txID ← (← j.at nameTxID).getUInt32
  let outputIndex ← (← j.at nameOutputIndex).getUInt64
  return { txID := txID, outputIndex := outputIndex }

/-- The member name "receiverID". -/
def nameReceiverID : Str := ascii ['r', 'e', 'c', 'e', 'i', 'v', 'e', 'r', 'I', 'D']

/-- `Output::to_string`. -/
def Output.toText (o : Output) : Except String Str :=
  dump (.obj [(nameReceiverID, .num o.receiverID.toNat), (nameValue, .num o.value.toNat)])

/-- `Output::from_string`. -/
def Output.fromText (text : Str) : Except String Output := do
  let j ← parse text
  let amount ← (← j.at nameValue).getUInt64
  let receiverID ← (← j.at nameReceiverID).getUInt32
  return { value := amount, receiverID := receiverID }

/-- The member name "merkleRoot". -/
def nameMerkleRoot : Str := ascii ['m', 'e', 'r', 'k', 'l', 'e', 'R', 'o', 'o', 't']

/-- The member name "prevBlockDigest". -/
def namePrevBlockDigest : Str :=
  ascii ['p', 'r', 'e', 'v', 'B', 'l', 'o', 'c', 'k', 'D', 'i', 'g', 'e', 's', 't']

/-- `Header::to_string`. -/
def Header.toText (h : Header) : Except String Str :=
  dump (.obj [(nameMerkleRoot, .str h.merkleRoot), (namePrevBlockDigest, .str h.prevBlockDigest)])

/-- `Header::from_string`. -/
def Header.fromText (text : Str) : Except String Header := do
  let j ← parse text
  let prevBlockDigest ← (← j.at namePrevBlockDigest).getString
  let merkleRoot ← (← j.at nameMerkleRoot).getString
  return { prevBlockDigest := prevBlockDigest, merkleRoot := merkleRoot }

/-- A member for a list, which exists only when an element was pushed. -/
def listMember (name : Str) (elements : List Json) : List (Str × Json) :=
  if elements = [] then [] else [(name, .arr elements)]

/-- Read every string of a list with `from_string`. -/
def readTexts {α : Type} (fromText : Str → Except String α) (j : Json) : Except String (List α) :=
  j.items.mapM fun el => do fromText (← el.getString)

/-- `j.contains(name)`. -/
def Json.contains (j : Json) (name : Str) : Bool :=
  match j with
  | .obj members => members.any fun m => m.1 == name
  | _ => false

/-- The member name "inputs". -/
def nameInputs : Str := ascii ['i', 'n', 'p', 'u', 't', 's']

/-- The member name "outputs". -/
def nameOutputs : Str := ascii ['o', 'u', 't', 'p', 'u', 't', 's']

/-- The member name "publicKey". -/
def namePublicKey : Str := ascii ['p', 'u', 'b', 'l', 'i', 'c', 'K', 'e', 'y']

/-- The member name "senderID". -/
def nameSenderID : Str := ascii ['s', 'e', 'n', 'd', 'e', 'r', 'I', 'D']

/-- The member name "senderSig". -/
def nameSenderSig : Str := ascii ['s', 'e', 'n', 'd', 'e', 'r', 'S', 'i', 'g']

/-- The document of a transaction. -/
def transactionDocument (inputs outputs : List Str) (publicKey : Option Str) (senderID : UInt16)
    (senderSig : Str) (txID : UInt32) : Json :=
  .obj (listMember nameInputs (inputs.map .str) ++ listMember nameOutputs (outputs.map .str) ++
    (publicKey.toList.map fun text => (namePublicKey, .str text)) ++
    [(nameSenderID, .num senderID.toNat), (nameSenderSig, .str senderSig),
      (nameTxID, .num txID.toNat)])

/-- The text of a transaction key, none unless both halves have entries. -/
def keyText (k : SigKey) : Except String (Option Str) :=
  if k.S0 ≠ [] ∧ k.S1 ≠ [] then (sigKeyToString k).map some else .ok none

/-- `Transaction::to_string`. -/
def Transaction.toText (t : Transaction) : Except String Str := do
  let inputs ← t.inputs.mapM Input.toText
  let outputs ← t.outputs.mapM Output.toText
  let senderSig ← signatureToJson t.senderSig
  let publicKey ← keyText t.publicKey
  dump (transactionDocument inputs outputs publicKey t.senderID senderSig t.txID)

/-- The key of a transaction, if it has one. -/
def readPublicKey (j : Json) : Except String SigKey :=
  if j.contains namePublicKey then do
    sigKeyFromString (← (← j.at namePublicKey).getString)
  else
    .ok {}

/-- `Transaction::from_string` on a default transaction. -/
def Transaction.fromText (text : Str) : Except String Transaction := do
  let j ← parse text
  let txID ← (← j.at nameTxID).getUInt32
  let inputs ← readTexts Input.fromText (← j.at nameInputs)
  let outputs ← readTexts Output.fromText (← j.at nameOutputs)
  let senderID ← (← j.at nameSenderID).getUInt16
  let senderSig ← jsonToString (← (← j.at nameSenderSig).getString)
  let publicKey ← readPublicKey j
  return {
    inputs := inputs
    outputs := outputs
    senderSig := senderSig
    senderID := senderID
    txID := txID
    publicKey := publicKey }

/-- The member name "blockID". -/
def nameBlockID : Str := ascii ['b', 'l', 'o', 'c', 'k', 'I', 'D']

/-- The member name "header". -/
def nameHeader : Str := ascii ['h', 'e', 'a', 'd', 'e', 'r']

/-- The member name "transactions". -/
def nameTransactions : Str := ascii ['t', 'r', 'a', 'n', 's', 'a', 'c', 't', 'i', 'o', 'n', 's']

/-- The member name "validatorID". -/
def nameValidatorID : Str := ascii ['v', 'a', 'l', 'i', 'd', 'a', 't', 'o', 'r', 'I', 'D']

/-- The member name "validatorSig". -/
def nameValidatorSig : Str := ascii ['v', 'a', 'l', 'i', 'd', 'a', 't', 'o', 'r', 'S', 'i', 'g']

/-- The member name "validatorSigs". -/
def nameValidatorSigs : Str :=
  ascii ['v', 'a', 'l', 'i', 'd', 'a', 't', 'o', 'r', 'S', 'i', 'g', 's']

/-- The member name "public_key". -/
def nameSigPublicKey : Str := ascii ['p', 'u', 'b', 'l', 'i', 'c', '_', 'k', 'e', 'y']

/-- The member name "round". -/
def nameRound : Str := ascii ['r', 'o', 'u', 'n', 'd']

/-- The member name "signature". -/
def nameSignature : Str := ascii ['s', 'i', 'g', 'n', 'a', 't', 'u', 'r', 'e']

/-- The member name "validator_id". -/
def nameSigValidatorId : Str := ascii ['v', 'a', 'l', 'i', 'd', 'a', 't', 'o', 'r', '_', 'i', 'd']

/-- An element of "validatorSigs". -/
def BlockSignature.toJson (sig : BlockSignature) : Except String Json := do
  let signature ← signatureToJson sig.signature
  let publicKey ← sigKeyToString sig.publicKey
  return .obj [(nameSigPublicKey, .str publicKey), (nameRound, .num sig.round.toNat),
    (nameSignature, .str signature), (nameSigValidatorId, .num sig.validatorId.toNat)]

/-- Read an element of "validatorSigs". -/
def BlockSignature.fromJson (el : Json) : Except String BlockSignature := do
  let validatorId ← (← el.at nameSigValidatorId).getUInt16
  let signature ← jsonToString (← (← el.at nameSignature).getString)
  let round ← (← el.at nameRound).getUInt16
  let publicKey ← sigKeyFromString (← (← el.at nameSigPublicKey).getString)
  return {
    signature := signature
    publicKey := publicKey
    validatorId := validatorId
    round := round }

/-- The collected signatures, if there are any. -/
def readValidatorSigs (j : Json) : Except String (List BlockSignature) :=
  if j.contains nameValidatorSigs then do
    (← j.at nameValidatorSigs).items.mapM BlockSignature.fromJson
  else
    .ok []

/-- The document of a block. -/
def blockDocument (id : UInt64) (header publicKey : Str) (transactions : List Str)
    (validatorId : UInt16) (validatorSig : Str) (validatorSigs : List Json) : Json :=
  .obj ([(nameBlockID, .num id.toNat), (nameHeader, .str header),
      (namePublicKey, .str publicKey)] ++
    listMember nameTransactions (transactions.map .str) ++
    [(nameValidatorID, .num validatorId.toNat), (nameValidatorSig, .str validatorSig)] ++
    listMember nameValidatorSigs validatorSigs)

/-- `Block::to_string`. -/
def Block.toText (b : Block) : Except String Str := do
  let header ← b.header.toText
  let transactions ← b.txs.mapM Transaction.toText
  let validatorSig ← signatureToJson b.validatorSig
  let publicKey ← sigKeyToString b.validatorNextPublicKey
  let validatorSigs ← b.validatorSigs.mapM BlockSignature.toJson
  dump (blockDocument b.id header publicKey transactions b.validatorId validatorSig validatorSigs)

/-- `Block::from_string` on a default block. -/
def Block.fromText (text : Str) : Except String Block := do
  let j ← parse text
  let header ← Header.fromText (← (← j.at nameHeader).getString)
  let id ← (← j.at nameBlockID).getUInt64
  let txs ← readTexts Transaction.fromText (← j.at nameTransactions)
  let validatorSig ← jsonToString (← (← j.at nameValidatorSig).getString)
  let validatorId ← (← j.at nameValidatorID).getUInt16
  let validatorNextPublicKey ← sigKeyFromString (← (← j.at namePublicKey).getString)
  let validatorSigs ← readValidatorSigs j
  return {
    header := header
    txs := txs
    validatorSigs := validatorSigs
    validatorSig := validatorSig
    validatorId := validatorId
    validatorNextPublicKey := validatorNextPublicKey
    id := id
    empty := false
    isMutable := false }

end Texts

end CosiCoin
