import CosiCoin.TransactionModel
import Mathlib.Data.Finset.Card

/-!
# COSICOIN: headers and blocks

The classes `Header` and `Block` of include/blockchain.  A block is filled
while it is mutable, `finalize` computes the Merkle root and freezes it, and
only a frozen block can be digested and signed.

A block is identified in the protocol by `Header::getID`, the hash of the
previous digest and the Merkle root; `Block::getDigest` additionally covers the
signing validator and the public key that validator announces for its next
message.  `Block::verify` checks the transactions against a list of unspent
outputs.  It reads neither the header nor any signature.
-/

namespace CosiCoin

/-- `Header`: the previous block and the root of the transactions. -/
structure Header where
  prevBlockDigest : Str := []
  merkleRoot : Str := []
deriving DecidableEq

namespace Header

variable [Platform]

/-- Duplicate the last hash when their number is odd. -/
def duplicateLast (hashes : List Str) : List Str :=
  if hashes.length % 2 ≠ 0 then hashes ++ [hashes.getLastD []] else hashes

/-- The hashes of adjacent pairs. -/
def hashPairs : List Str → List Str
  | a :: b :: rest => hash (a ++ b) :: hashPairs rest
  | _ => []

/--
The loop of `calculateMerkleRoot`; the number of hashes at least halves in
each turn, so as many turns as there are hashes are enough.
-/
def merkleLoop : Nat → List Str → List Str
  | 0, hashes => hashes
  | k + 1, hashes =>
      if hashes.length > 1 then merkleLoop k (hashPairs (duplicateLast hashes))
      else hashes

/-- `Header::calculateMerkleRoot`. -/
def calculateMerkleRoot (h : Header) (transactions : List Transaction) : Header :=
  if transactions = [] then
    { h with merkleRoot := [] }
  else
    let hashes := transactions.map Transaction.getDigest
    { h with merkleRoot := (merkleLoop hashes.length hashes).headD [] }

/-- `Header::getID`. -/
def getID (h : Header) : Str :=
  hash (h.prevBlockDigest ++ h.merkleRoot)

end Header

/-- A signature together with the key and the round it was collected in. -/
structure BlockSignature where
  signature : List Str
  publicKey : SigKey
  validatorId : UInt16
  round : UInt16
deriving DecidableEq

/-- `Block`; `{}` is the block made by the constructor without arguments. -/
structure Block where
  header : Header := {}
  txs : List Transaction := []
  validatorSigs : List BlockSignature := []
  validatorSig : List Str := []
  validatorId : UInt16 := 0
  validatorNextPublicKey : SigKey := {}
  id : UInt64 := 0
  empty : Bool := true
  isMutable : Bool := true
deriving DecidableEq

namespace Block

/-- `Block(id, prevBlockDigest)`. -/
def new (id : UInt64) (prevBlockDigest : Str) : Block :=
  { header := { prevBlockDigest := prevBlockDigest }, id := id, empty := false }

/-- `Block::addTransaction`. -/
def addTransaction (b : Block) (tx : Transaction) : Except String Block :=
  if b.isMutable then
    .ok { b with txs := b.txs ++ [tx] }
  else
    .error "Cannot add transaction to an immutable block."

/-- All inputs of all transactions. -/
def inputs (b : Block) : List Input :=
  b.txs.flatMap Transaction.inputs

/-- `Block::verify`. -/
def verify (b : Block) (utxolist : UTXOlist) (receiverIDs : List UInt32) : Bool :=
  (b.txs.all fun t => t.checkSpendingConditions utxolist receiverIDs) &&
    intToUInt64 (Int32.ofNat b.inputs.length) == UInt64.ofNat b.inputs.toFinset.card

/-- `Block::verifyTxConsist`: no input of `newTx` occurs in the block already. -/
def verifyTxConsist (b : Block) (newTx : Transaction) : Bool :=
  b.txs.all fun t => t.inputs.all fun i => !newTx.inputs.contains i

/-- `Block::addValidatorSignature`. -/
def addValidatorSignature (b : Block) (sig : BlockSignature) : Block :=
  { b with validatorSigs := b.validatorSigs ++ [sig] }

/-- `Block::removeSignatures`. -/
def removeSignatures (b : Block) : Block :=
  { b with
    validatorSig := []
    validatorId := 0
    validatorNextPublicKey := {}
    validatorSigs := [] }

section Signing

variable [Platform]

/-- `Block::finalize`. -/
def finalize (b : Block) : Except String Block :=
  if b.isMutable then
    .ok { b with isMutable := false, header := b.header.calculateMerkleRoot b.txs }
  else
    .error "Cannot finalize immutable block."

/-- `Block::getDigest`. -/
def getDigest (b : Block) : Except String Str :=
  if b.isMutable then
    .error "Cannot digest mutable block."
  else
    let input := b.header.getID ++ decimal b.validatorId.toNat
    if b.validatorNextPublicKey.S0 ≠ [] ∧ b.validatorNextPublicKey.S1 ≠ [] then
      (sigKeyToString b.validatorNextPublicKey).map fun key => hash (input ++ key)
    else
      .ok (hash input)

/-- `Block::sign`; an exception carries the block as it is left behind. -/
def sign (b : Block) (signingKey : SigKey) (validatorId : UInt16)
    (nextPublicKey : SigKey) : Except (String × Block) Block :=
  if b.isMutable then
    .error ("Cannot sign mutable block.", b)
  else
    let b := { b with
      validatorId := validatorId
      validatorNextPublicKey := nextPublicKey }
    match b.getDigest with
    | .error e => .error (e, b)
    | .ok digest => .ok { b with validatorSig := CosiCoin.sign digest signingKey }

/-- `Block::verifySignature`. -/
def verifySignature (b : Block) (publicKey : SigKey) : Except String Bool :=
  b.getDigest.map fun digest => CosiCoin.verify digest b.validatorSig publicKey == 1

end Signing

theorem checkSpendingConditions_of_verify
    {b : Block} {utxolist : UTXOlist} {receiverIDs : List UInt32}
    (h : b.verify utxolist receiverIDs = true)
    {t : Transaction}
    (ht : t ∈ b.txs) :
    t.checkSpendingConditions utxolist receiverIDs = true := by
  simp only [verify, Bool.and_eq_true, List.all_eq_true] at h
  exact h.1 t ht

section SigningFacts

variable [Platform]

/-- What a successful `sign` leaves in the block. -/
theorem sign_eq_ok
    {b signed : Block} {key next : SigKey} {v : UInt16}
    (h : b.sign key v next = .ok signed) :
    b.isMutable = false ∧
    ∃ digest,
      signed.getDigest = .ok digest ∧
      signed =
        { b with
          validatorId := v
          validatorNextPublicKey := next
          validatorSig := CosiCoin.sign digest key } := by
  unfold sign at h
  split_ifs at h with hm
  refine ⟨by simpa using hm, ?_⟩
  dsimp only at h
  split at h
  · cases h
  · rename_i digest hdigest
    refine ⟨digest, ?_, (Except.ok.inj h).symm⟩
    rw [← Except.ok.inj h]
    exact hdigest

/-- Only immutable blocks have a digest. -/
theorem frozen_of_getDigest
    {b : Block} {digest : Str}
    (h : b.getDigest = .ok digest) :
    b.isMutable = false := by
  unfold getDigest at h
  split_ifs at h with hm
  · simpa using hm
  · simpa using hm

/-- An immutable block has a digest when its next key can be written. -/
theorem exists_getDigest
    {b : Block} {text : Str}
    (hm : b.isMutable = false)
    (hnext : sigKeyToString b.validatorNextPublicKey = .ok text) :
    ∃ digest, b.getDigest = .ok digest := by
  unfold getDigest
  simp only [hm, Bool.false_eq_true, if_false]
  split_ifs
  · rw [hnext]
    exact ⟨_, rfl⟩
  · exact ⟨_, rfl⟩

/-- An immutable block is signed whenever the next key can be written. -/
theorem exists_sign_eq_ok
    {b : Block} {next : SigKey} {text : Str}
    (hm : b.isMutable = false)
    (hnext : sigKeyToString next = .ok text)
    (key : SigKey) (v : UInt16) :
    ∃ signed, b.sign key v next = .ok signed := by
  obtain ⟨digest, hdigest⟩ := exists_getDigest
    (b := { b with validatorId := v, validatorNextPublicKey := next }) hm hnext
  unfold sign
  rw [if_neg (by simp [hm])]
  simp only [hdigest]
  exact ⟨_, rfl⟩

/-- The digest only reads the header, the signer, the next key and the freeze flag. -/
theorem getDigest_congr
    {b b' : Block}
    (hh : b.header = b'.header)
    (hv : b.validatorId = b'.validatorId)
    (hk : b.validatorNextPublicKey = b'.validatorNextPublicKey)
    (hm : b.isMutable = b'.isMutable) :
    b.getDigest = b'.getDigest := by
  unfold getDigest
  rw [hh, hv, hk, hm]

/-- The signature of the block verifies under the key. -/
def ValidUnder (b : Block) (key : SigKey) : Prop :=
  b.verifySignature key = .ok true

theorem validUnder_iff
    {b : Block} {digest : Str} {key : SigKey}
    (hdigest : b.getDigest = .ok digest) :
    b.ValidUnder key ↔ CosiCoin.verify digest b.validatorSig key = 1 := by
  simp [ValidUnder, verifySignature, hdigest, Except.map]

/-- Only a frozen block has a digest to verify. -/
theorem getDigest_of_validUnder
    {b : Block} {key : SigKey}
    (h : b.ValidUnder key) :
    b.isMutable = false ∧ ∃ digest, b.getDigest = .ok digest := by
  have hdigest : ∃ digest, b.getDigest = .ok digest := by
    cases hget : b.getDigest with
    | error e =>
        simp [ValidUnder, verifySignature, hget, Except.map] at h
    | ok digest =>
        exact ⟨digest, rfl⟩
  refine ⟨?_, hdigest⟩
  cases hmut : b.isMutable with
  | false =>
      rfl
  | true =>
      obtain ⟨digest, hget⟩ := hdigest
      simp [getDigest, hmut] at hget

/-- A block signed with a key pair verifies under its public key. -/
theorem validUnder_of_sign
    {b signed : Block} {pair : Signature} {v : UInt16} {next : SigKey}
    (hpair : pair.WellFormed)
    (hsign : b.sign pair.privateKey v next = .ok signed) :
    signed.ValidUnder pair.publicKey ∧ signed.validatorId = v ∧
      ∃ digest, signed.getDigest = .ok digest := by
  obtain ⟨_, digest, hdigest, heq⟩ := sign_eq_ok hsign
  refine ⟨(validUnder_iff hdigest).mpr ?_, by rw [heq], digest, hdigest⟩
  rw [heq]
  exact verify_sign hpair digest

end SigningFacts

end Block

end CosiCoin
