import CosiCoin.WireFormat
import Mathlib.Data.List.AList
import Mathlib.Data.Finset.Insert

/-!
# COSICOIN: a node of the broadcast protocol

The class `Node` of lib/bracha/node.cc.  Every function returns the state it
leaves behind together with the events a run is judged by: messages that passed
the checks and were counted, messages handed to the client for broadcast,
accepted hashes and proposals.  An exception or a failed assertion is an error.

The loops of `broadcastRound` visit an unordered map in no particular order.
They are written over the entries of the map as it stands, and a task may put
the entries into any order before (`Rehashed`).

On delivery the source reads the key of an entry it has just erased and appends
what it finds to `accepted_blocks_`.  That may be any string: `erasedRead` gives it
for each such read of a node, and a lemma that needs the key says so.
-/

namespace CosiCoin

/-- `std::unordered_map<std::string, uint64_t>`, the votes for each block hash. -/
abbrev Counter := AList fun _ : Str => Nat

namespace Counter

/-- The count of a hash, zero when there is no entry. -/
def count (c : Counter) (blkHash : Str) : Nat :=
  (c.lookup blkHash).getD 0

/-- Start an entry with 1 or add 1 to it. -/
def increment (c : Counter) (blkHash : Str) : Counter :=
  c.insert blkHash (count c blkHash + 1)

@[simp] theorem count_empty
    (h : Str) :
    count ∅ h = 0 := by
  rfl

theorem count_increment
    (c : Counter) (h h' : Str) :
    count (increment c h) h' = if h' = h then count c h + 1 else count c h' := by
  by_cases hh : h' = h
  · subst hh
    simp [count, increment]
  · simp [count, increment, hh]

theorem count_erase
    (c : Counter) (h h' : Str) :
    count (c.erase h) h' = if h' = h then 0 else count c h' := by
  by_cases hh : h' = h
  · subst hh
    simp [count]
  · simp [count, hh]

theorem count_of_mem
    {c : Counter} {h : Str} {k : Nat}
    (hmem : ⟨h, k⟩ ∈ c.entries) :
    count c h = k := by
  have hlookup : c.lookup h = some k := AList.mem_lookup_iff.mpr hmem
  simp [count, hlookup]

theorem count_perm
    {c c' : Counter}
    (hperm : c.entries.Perm c'.entries) :
    count c = count c' := by
  funext h
  rw [count, count, AList.perm_lookup hperm]

end Counter

/--
`Node`, with the random strings its `KeyGen` calls will read, and the strings it
will read in place of keys it has erased.
-/
structure Node where
  id : UInt16
  n : Nat
  f : Nat
  isLead : Bool := false
  blkList : AList (fun _ : Str => Block) := ∅
  sendThisRound : Str := []
  readyThisRound : Counter := ∅
  echoThisRound : Counter := ∅
  readySent : Finset Str := ∅
  utxolist : UTXOlist := []
  walletIds : List UInt32 := []
  votedHash : Str := []
  shouldBroadcast : Bool := true
  myCurrentPrivateKey : SigKey := {}
  myCurrentPublicKey : SigKey := {}
  myNextKeyPair : Signature
  valSigKeys : AList (fun _ : UInt16 => SigKey) := ∅
  verifiedBlocks : Finset Str := ∅
  blocks : AList (fun _ : Str => Block) := ∅
  acceptedBlocks : List Str := []
  urandom : Nat → Draw
  drawn : Nat := 0
  erasedRead : Nat → Str → Str
  erasedReads : Nat := 0

/-- The memory of an erased key still holds the key when it is read. -/
def keptRead : Nat → Str → Str := fun _ blkHash => blkHash

/-- What a run records of a node. -/
inductive NodeEvent where
  | proposed (b : Block)
  | counted (m : Message)
  | broadcast (m : Message)
  | delivered (blkHash : Str)
  | restarted
deriving DecidableEq

namespace Node

/-- `Node::setUTXOlists`. -/
def setUTXOlists (nd : Node) (utxolist : UTXOlist) (walletIds : List UInt32) : Node :=
  { nd with utxolist := utxolist, walletIds := walletIds }

/-- `Node::getReceivedBlock`. -/
def getReceivedBlock (nd : Node) (blkHash : Str) : Block :=
  (nd.blocks.lookup blkHash).getD {}

/-- The loop of `getConsensusBlocks`: `blocks_[hash]` gives an unknown hash a default block. -/
def consensusLoop : List Str → AList (fun _ : Str => Block) →
    List Block × AList (fun _ : Str => Block)
  | [], blocks => ([], blocks)
  | hash :: rest, blocks =>
      let block := (blocks.lookup hash).getD {}
      let r := consensusLoop rest (blocks.insert hash block)
      (block :: r.1, r.2)

/-- `Node::getConsensusBlocks`. -/
def getConsensusBlocks (nd : Node) (erase : Bool) : List Block × Node :=
  let r := consensusLoop nd.acceptedBlocks nd.blocks
  let nd := { nd with blocks := r.2 }
  if erase then
    (r.1, { nd with acceptedBlocks := [], shouldBroadcast := false })
  else
    (r.1, nd)

/-- `Node::RunProtocol` up to its loop. -/
def runProtocol (nd : Node) (broadcast : Bool) : Node :=
  { nd with shouldBroadcast := broadcast }

section Receiving

variable [Platform]

/-- A node as the constructor leaves it: the first key pair is drawn. -/
def new (id : UInt16) (n f : Nat) (isLead : Bool) (urandom : Nat → Draw)
    (erasedRead : Nat → Str → Str) : Node where
  id := id
  n := n
  f := f
  isLead := isLead
  myNextKeyPair := keyGen (urandom 0)
  urandom := urandom
  drawn := 1
  erasedRead := erasedRead

/--
`Node::checkBlockSig`: the signature is accepted when no key of the validator
is known, and the next key is stored whatever the outcome.
-/
def checkBlockSig (nd : Node) (block : Block) : Except String (Bool × Node) := do
  let digest ← block.getDigest
  let valid :=
    match nd.valSigKeys.lookup block.validatorId with
    | some key => CosiCoin.verify digest block.validatorSig key
    | none => 1
  return (valid == 1,
    { nd with
      valSigKeys := nd.valSigKeys.insert block.validatorId block.validatorNextPublicKey })

/-- Mark the block as verified and save it with its signature. -/
def saveBlock (nd : Node) (msg : Message) : Node :=
  let block := msg.block
  let blkHash := block.header.getID
  let sig : BlockSignature :=
    { signature := block.validatorSig
      publicKey := (nd.valSigKeys.lookup block.validatorId).getD {}
      validatorId := block.validatorId
      round := msg.round.toUInt16 }
  { nd with
    verifiedBlocks := insert blkHash nd.verifiedBlocks
    blocks := nd.blocks.insert blkHash
      (((nd.blocks.lookup blkHash).getD block).addValidatorSignature sig)
    blkList := nd.blkList.insert blkHash ((nd.blkList.lookup blkHash).getD block) }

/-- Save the block and count the message by its type. -/
def countMessage (nd : Node) (msg : Message) : Node :=
  let blkHash := msg.block.header.getID
  let nd := nd.saveBlock msg
  match msg.type with
  | .send => { nd with sendThisRound := blkHash }
  | .echo => { nd with echoThisRound := nd.echoThisRound.increment blkHash }
  | .ready => { nd with readyThisRound := nd.readyThisRound.increment blkHash }
  | .other => nd

/-- Besides saving the block, counting a message touches one field of the round. -/
theorem countMessage_eq
    (nd : Node) (m : Message) :
    nd.countMessage m = { nd.saveBlock m with
      sendThisRound := if m.type = .send then m.block.header.getID else nd.sendThisRound
      echoThisRound :=
        if m.type = .echo then nd.echoThisRound.increment m.block.header.getID
        else nd.echoThisRound
      readyThisRound :=
        if m.type = .ready then nd.readyThisRound.increment m.block.header.getID
        else nd.readyThisRound } := by
  unfold countMessage
  cases m.type with
  | echo => rfl
  | send => rfl
  | ready => rfl
  | other => rfl

/-- The block passes the verification of the node, now or before. -/
def passesVerify (nd : Node) (block : Block) : Bool :=
  decide (block.header.getID ∈ nd.verifiedBlocks) || block.verify nd.utxolist nd.walletIds

/-- One round of the loop of `updateRecvMessages`. -/
def recvMessage (nd : Node) (msg : Message) : Except String (Node × List NodeEvent) := do
  let (valid, nd) ← nd.checkBlockSig msg.block
  if valid = false then
    return (nd, [])
  else if nd.passesVerify msg.block = false then
    return (nd, [])
  else
    return (nd.countMessage msg, [.counted msg])

/-- The loop of `updateRecvMessages`. -/
def recvMessages : List Message → Node → Except String (Node × List NodeEvent)
  | [], nd => .ok (nd, [])
  | msg :: rest, nd => do
      let (nd, ev) ← nd.recvMessage msg
      let (nd, evs) ← recvMessages rest nd
      return (nd, ev ++ evs)

/-- `Node::updateRecvMessages`. -/
def updateRecvMessages (nd : Node) (msgs : List Message) :
    Except String (Node × List NodeEvent) :=
  recvMessages msgs { nd with sendThisRound := [] }

end Receiving

section Broadcasting

variable [Platform]

/-- The key pair moves on: the next pair becomes the current one. -/
def rotateKeys (nd : Node) : Node :=
  { nd with
    myCurrentPrivateKey := nd.myNextKeyPair.privateKey
    myCurrentPublicKey := nd.myNextKeyPair.publicKey
    myNextKeyPair := keyGen (nd.urandom nd.drawn)
    drawn := nd.drawn + 1 }

/-- `Node::signBlock`. -/
def signBlock (nd : Node) (block : Block) : Except String (Block × Node) :=
  let nd := nd.rotateKeys
  match block.sign nd.myCurrentPrivateKey nd.id nd.myNextKeyPair.publicKey with
  | .error (e, _) => .error e
  | .ok block => do
      let digest ← block.getDigest
      if CosiCoin.verify digest block.validatorSig nd.myCurrentPublicKey = 0 then
        .error "Assertion failed: signature::Verify"
      else
        return (block, nd)

/-- `Node::broadcastMessage`. -/
def broadcastMessage (nd : Node) (type : MsgType) (block : Block) (round : UInt32) :
    Except String (Node × List NodeEvent) := do
  let (block, nd) ← nd.signBlock block
  return (nd, [.broadcast ⟨type, block, nd.id.toUInt64, round⟩])

/-- `LeaderNode::Propose`. -/
def propose (nd : Node) (bx : Block) : Except String (Node × List NodeEvent) := do
  let (nd, evs) ← nd.broadcastMessage .send bx 0
  return (nd, .proposed bx :: evs)

/--
Broadcast `READY` for a hash and remember it.  `blk_list_[blk_hash]` would
insert an empty block for an unknown hash, whose signing throws.
-/
def sendReady (nd : Node) (blkHash : Str) (round : UInt32) :
    Except String (Node × List NodeEvent) := do
  let (nd, evs) ← nd.broadcastMessage .ready ((nd.blkList.lookup blkHash).getD {}) round
  return ({ nd with readySent := insert blkHash nd.readySent }, evs)

/-- Broadcast `READY` when there are enough votes and none was sent before. -/
def announceReady (nd : Node) (threshold nbRecv : Nat) (blkHash : Str) (round : UInt32) :
    Except String (Node × List NodeEvent) :=
  if threshold ≤ nbRecv ∧ blkHash ∉ nd.readySent then
    nd.sendReady blkHash round
  else
    .ok (nd, [])

/-- Broadcast `ECHO` for the block of the `SEND` of this round, if there is one. -/
def sendEcho (nd : Node) : Except String (Node × List NodeEvent) :=
  if nd.sendThisRound ≠ [] then do
    let (nd', evs) ←
      nd.broadcastMessage .echo ((nd.blkList.lookup nd.sendThisRound).getD {}) 1
    return ({ nd' with sendThisRound := [] }, evs)
  else
    .ok (nd, [])

/-- The loop over `echo_this_round_`. -/
def echoLoop : List ((_ : Str) × Nat) → Node → Except String (Node × List NodeEvent)
  | [], nd => .ok (nd, [])
  | ⟨blkHash, nbRecv⟩ :: rest, nd => do
      let (nd, ev) ← nd.announceReady ((nd.n + nd.f + 1) / 2) nbRecv blkHash 2
      let (nd, evs) ← echoLoop rest nd
      return (nd, ev ++ evs)

/-- Accept a hash and remove it from the counters; what is read of it then is recorded. -/
def deliver (nd : Node) (blkHash recorded : Str) : Node :=
  { nd with
    shouldBroadcast := false
    votedHash := blkHash
    echoThisRound := nd.echoThisRound.erase blkHash
    readyThisRound := nd.readyThisRound.erase blkHash
    acceptedBlocks := nd.acceptedBlocks ++ [recorded]
    erasedReads := nd.erasedReads + 1 }

/-- The loop over `ready_this_round_`, left at the first delivery. -/
def readyLoop : List ((_ : Str) × Nat) → Node → Except String (Node × List NodeEvent)
  | [], nd => .ok (nd, [])
  | ⟨blkHash, nbRecv⟩ :: rest, nd => do
      let (nd, ev) ← nd.announceReady (nd.f + 1) nbRecv blkHash 3
      if 2 * nd.f + 1 < nbRecv then
        let recorded := nd.erasedRead nd.erasedReads blkHash
        return (nd.deliver blkHash recorded, ev ++ [.delivered blkHash])
      else
        let (nd, evs) ← readyLoop rest nd
        return (nd, ev ++ evs)

/-- `Node::broadcastRound`. -/
def broadcastRound (nd : Node) : Except String (Node × List NodeEvent) := do
  let (nd, ev₁) ← sendEcho { nd with shouldBroadcast := true }
  let (nd, ev₂) ← echoLoop nd.echoThisRound.entries nd
  let (nd, ev₃) ← readyLoop nd.readyThisRound.entries nd
  return (nd, ev₁ ++ ev₂ ++ ev₃)

/-- The same node with its counters listed in another order. -/
def Rehashed (nd nd' : Node) : Prop :=
  ∃ echo ready : Counter,
    echo.entries.Perm nd.echoThisRound.entries ∧
    ready.entries.Perm nd.readyThisRound.entries ∧
    nd' = { nd with echoThisRound := echo, readyThisRound := ready }

/--
One pass of the loop of `RunProtocol`: `RunTaskInWait` on the messages taken
from the server, then `broadcastRound`.
-/
def RunTask (nd : Node) (msgs : List Message) (nd' : Node) (evs : List NodeEvent) : Prop :=
  ∃ nd₁ ev₁ nd₂ ev₂,
    nd.updateRecvMessages msgs = .ok (nd₁, ev₁) ∧
    Rehashed nd₁ nd₂ ∧
    nd₂.broadcastRound = .ok (nd', ev₂) ∧
    evs = ev₁ ++ ev₂

end Broadcasting

end Node

end CosiCoin
