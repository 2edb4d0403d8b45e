import CosiCoin.KeyChain
import Mathlib.Data.Finmap

/-!
# COSICOIN: tasks on the messages of one block

When all messages a node receives carry the same block, its state is summed up
by a `Tally`: how many votes stand in each counter, whether `READY` was sent and
whether the node is running.  `Tracks` relates the two.  A task then has exactly
one outcome, which `Tally.recv` and `Tally.round` compute
(`runTask_iff_tally`): every message is accepted, the messages sent continue the
key chain of the node, and the hash is delivered when the votes suffice.
-/

namespace CosiCoin

open Node

/-- The counter with `k` votes for one hash and no other entry. -/
def Counter.only (h : Str) : Nat → Counter
  | 0 => ∅
  | k + 1 => AList.singleton h (k + 1)

namespace Counter

theorem count_only
    (h : Str) (k : Nat) :
    count (only h k) h = k := by
  cases k with
  | zero => rfl
  | succ k => exact congrArg (Option.getD · 0) (AList.lookup_insert (s := ∅))

theorem increment_only
    (h : Str) (k : Nat) :
    increment (only h k) h = only h (k + 1) := by
  rw [increment, count_only]
  cases k with
  | zero => rfl
  | succ k => exact AList.insert_singleton_eq

theorem erase_only
    (h : Str) (k : Nat) :
    (only h k).erase h = only h 0 := by
  cases k with
  | zero => rfl
  | succ k =>
      apply AList.ext
      simp [AList.erase, only, AList.singleton]

theorem entries_only
    (h : Str) (k : Nat) :
    (only h k).entries = if 0 < k then [⟨h, k⟩] else [] := by
  cases k with
  | zero => rfl
  | succ k => rfl

/-- A counter with at most one entry has only one order. -/
theorem eq_only_of_perm
    {c : Counter} {h : Str} {k : Nat}
    (hperm : c.entries.Perm (only h k).entries) :
    c = only h k := by
  apply AList.ext
  rw [entries_only] at hperm ⊢
  split_ifs at hperm ⊢
  · exact List.perm_singleton.mp hperm
  · exact hperm.eq_nil

end Counter

/-- What a node knows of one block. -/
structure Tally where
  echo : Nat := 0
  ready : Nat := 0
  readySent : Bool := false
  running : Bool := true
  accepted : Nat := 0
  sendSeen : Nat := 0
  echoSeen : Nat := 0
  readySeen : Nat := 0
  echoSent : Nat := 0
  restarts : Nat := 0
deriving DecidableEq

namespace Tally

/-- Count one message. -/
def count (t : Tally) : MsgType → Tally
  | .send => { t with sendSeen := t.sendSeen + 1 }
  | .echo => { t with echo := t.echo + 1, echoSeen := t.echoSeen + 1 }
  | .ready => { t with ready := t.ready + 1, readySeen := t.readySeen + 1 }
  | .other => t

/-- Count the messages of a batch. -/
def recv (t : Tally) (types : List MsgType) : Tally :=
  types.foldl count t

/-- Send `READY` when there are enough votes and none was sent. -/
def announce (threshold votes : Nat) (t : Tally) : Tally × List MsgType :=
  if threshold ≤ votes ∧ t.readySent = false then
    ({ t with readySent := true }, [.ready])
  else
    (t, [])

/-- Deliver when there are enough votes. -/
def deliver (f : Nat) (t : Tally) : Tally :=
  if 2 * f + 1 < t.ready then
    { t with echo := 0, ready := 0, running := false, accepted := t.accepted + 1 }
  else
    t

/-- A round: the `ECHO` for a `SEND`, the `READY` for enough votes, the delivery. -/
def round (threshold f : Nat) (sent : Bool) (t : Tally) : Tally × List MsgType :=
  let t₀ := { t with running := true, echoSent := t.echoSent + if sent then 1 else 0 }
  let r₁ := announce threshold t₀.echo t₀
  let r₂ := announce (f + 1) r₁.1.ready r₁.1
  (deliver f r₂.1, (if sent then [.echo] else []) ++ r₁.2 ++ r₂.2)

/-- `RunProtocol` is called again. -/
def restart (t : Tally) : Tally :=
  { t with running := true, restarts := t.restarts + 1 }

/-- A task on a batch of messages. -/
def task (threshold f : Nat) (t : Tally) (types : List MsgType) : Tally × List MsgType :=
  round threshold f (types.contains .send) (t.recv types)

theorem announce_fst
    (threshold votes : Nat) (t : Tally) :
    (t.announce threshold votes).1 =
      { t with readySent := t.readySent || decide (threshold ≤ votes) } := by
  unfold announce
  split_ifs with h
  · simp [h]
  · have hsame : (t.readySent || decide (threshold ≤ votes)) = t.readySent := by
      cases hsent : t.readySent with
      | true => rfl
      | false => simpa [hsent] using h
    rw [hsame]

theorem recv_eq
    (t : Tally) (types : List MsgType) :
    t.recv types = { t with
      echo := t.echo + types.count .echo
      ready := t.ready + types.count .ready
      sendSeen := t.sendSeen + types.count .send
      echoSeen := t.echoSeen + types.count .echo
      readySeen := t.readySeen + types.count .ready } := by
  induction types generalizing t with
  | nil => rfl
  | cons type types ih =>
      rw [recv, List.foldl_cons]
      refine (ih (t.count type)).trans ?_
      cases type <;> simp [count] <;> omega

theorem round_fst
    (threshold f : Nat) (sent : Bool) (t : Tally) :
    (t.round threshold f sent).1 = deliver f { t with
      running := true
      echoSent := t.echoSent + if sent then 1 else 0
      readySent := t.readySent || decide (threshold ≤ t.echo) || decide (f + 1 ≤ t.ready) } := by
  simp only [round, announce_fst]

theorem announce_count
    (threshold votes : Nat) (t : Tally) :
    (t.announce threshold votes).1.readySent.toNat =
        t.readySent.toNat + (t.announce threshold votes).2.count .ready ∧
      (t.announce threshold votes).2.count .echo = 0 ∧
      (t.announce threshold votes).2.count .send = 0 := by
  unfold announce
  split_ifs with h
  · simp [h.2]
  · simp

theorem deliver_same
    (f : Nat) (t : Tally) :
    (t.deliver f).readySent = t.readySent ∧ (t.deliver f).echoSent = t.echoSent ∧
      (t.deliver f).sendSeen = t.sendSeen ∧ (t.deliver f).echoSeen = t.echoSeen ∧
      (t.deliver f).readySeen = t.readySeen ∧ (t.deliver f).restarts = t.restarts := by
  unfold deliver
  split_ifs <;> exact ⟨rfl, rfl, rfl, rfl, rfl, rfl⟩

/-- What a round has sent, for each type of message. -/
theorem round_count
    (threshold f : Nat) (sent : Bool) (t : Tally) :
    (t.round threshold f sent).1.readySent.toNat =
        t.readySent.toNat + (t.round threshold f sent).2.count .ready ∧
      (t.round threshold f sent).1.echoSent =
        t.echoSent + (t.round threshold f sent).2.count .echo ∧
      (t.round threshold f sent).2.count .send = 0 := by
  have hfirst : (if sent then [MsgType.echo] else []).count .ready = 0 ∧
      (if sent then [MsgType.echo] else []).count .echo = (if sent then 1 else 0) ∧
      (if sent then [MsgType.echo] else []).count .send = 0 := by
    cases sent <;> decide
  obtain ⟨t₀, ht₀⟩ : ∃ t₀ : Tally, t₀ =
      { t with running := true, echoSent := t.echoSent + if sent then 1 else 0 } := ⟨_, rfl⟩
  obtain ⟨hready₁, hecho₁, hsend₁⟩ := announce_count threshold t₀.echo t₀
  have hsame₁ := announce_fst threshold t₀.echo t₀
  obtain ⟨r₁, hr₁⟩ : ∃ r₁, r₁ = t₀.announce threshold t₀.echo := ⟨_, rfl⟩
  rw [← hr₁] at hready₁ hecho₁ hsend₁ hsame₁
  obtain ⟨hready₂, hecho₂, hsend₂⟩ := announce_count (f + 1) r₁.1.ready r₁.1
  have hsame₂ := announce_fst (f + 1) r₁.1.ready r₁.1
  obtain ⟨r₂, hr₂⟩ : ∃ r₂, r₂ = r₁.1.announce (f + 1) r₁.1.ready := ⟨_, rfl⟩
  rw [← hr₂] at hready₂ hecho₂ hsend₂ hsame₂
  have hround : t.round threshold f sent =
      (r₂.1.deliver f, (if sent then [.echo] else []) ++ r₁.2 ++ r₂.2) := by
    rw [hr₂, hr₁, ht₀]
    rfl
  have hechoSent : r₂.1.echoSent = t.echoSent + if sent then 1 else 0 := by
    rw [hsame₂, hsame₁, ht₀]
  have hreadySent : t₀.readySent = t.readySent := by
    rw [ht₀]
  obtain ⟨hready₃, hecho₃, _⟩ := deliver_same f r₂.1
  rw [hround]
  simp only [List.count_append, hready₃, hecho₃, hready₂, hready₁, hreadySent, hechoSent]
  omega

/-- What a task has counted, for each type of message. -/
theorem task_seen
    (threshold f : Nat) (t : Tally) (types : List MsgType) :
    (t.task threshold f types).1.sendSeen = t.sendSeen + types.count .send ∧
      (t.task threshold f types).1.echoSeen = t.echoSeen + types.count .echo ∧
      (t.task threshold f types).1.readySeen = t.readySeen + types.count .ready ∧
      (t.task threshold f types).1.restarts = t.restarts := by
  rw [task, round_fst, recv_eq]
  exact (deliver_same f _).2.2

/-- What a task has sent, for each type of message. -/
theorem task_count
    (threshold f : Nat) (t : Tally) (types : List MsgType) :
    (t.task threshold f types).1.readySent.toNat =
        t.readySent.toNat + (t.task threshold f types).2.count .ready ∧
      (t.task threshold f types).1.echoSent =
        t.echoSent + (t.task threshold f types).2.count .echo ∧
      (t.task threshold f types).2.count .send = 0 := by
  have h := round_count threshold f (types.contains .send) (t.recv types)
  rw [recv_eq] at h
  rw [task, recv_eq]
  exact h

end Tally

section Tracking

variable [Platform]

/-- The block has the given header and transactions and is finalized. -/
structure OfBlock (hd : Header) (txs : List Transaction) (b : Block) : Prop where
  header : b.header = hd
  txs : b.txs = txs
  immutable : b.isMutable = false

/-- The node is summed up by the tally, `sent` telling of a `SEND` in this round. -/
structure Tracks (hd : Header) (txs : List Transaction) (nd : Node) (t : Tally)
    (sent : Bool) : Prop where
  echo : nd.echoThisRound = Counter.only hd.getID t.echo
  ready : nd.readyThisRound = Counter.only hd.getID t.ready
  readySent : nd.readySent = if t.readySent then {hd.getID} else ∅
  running : nd.shouldBroadcast = t.running
  send : nd.sendThisRound = if sent then hd.getID else []
  known : ∀ b, nd.blkList.lookup hd.getID = some b → OfBlock hd txs b
  voted : 0 < t.echo ∨ 0 < t.ready ∨ sent = true →
    ∃ b, nd.blkList.lookup hd.getID = some b
  key : nd.myNextKeyPair.WellFormed

/-- The node verifies every block with the given contents. -/
def Passes (hd : Header) (txs : List Transaction) (nd : Node) : Prop :=
  ∀ b, OfBlock hd txs b → nd.passesVerify b = true

/-- The fields of a node that counting messages does not touch. -/
structure SameSender (nd nd' : Node) : Prop where
  id : nd'.id = nd.id
  n : nd'.n = nd.n
  f : nd'.f = nd.f
  key : nd'.myNextKeyPair = nd.myNextKeyPair

variable {hd : Header} {txs : List Transaction}

/-- A new node is summed up by the empty tally. -/
theorem tracks_new
    (id : UInt16) (n f : Nat) (isLead : Bool) (urandom : Nat → Draw)
    (erasedRead : Nat → Str → Str) :
    Tracks hd txs (Node.new id n f isLead urandom erasedRead) {} false := by
  refine ⟨rfl, rfl, rfl, rfl, rfl, ?_, ?_, keyGen_wellFormed _⟩
  · intro b hb
    cases hb
  · intro hvotes
    simp at hvotes

/-- The state after an accepted message. -/
def Node.receive (nd : Node) (m : Message) : Node :=
  Node.countMessage { nd with
    valSigKeys := nd.valSigKeys.insert m.block.validatorId m.block.validatorNextPublicKey } m

theorem receive_blkList
    (nd : Node) (m : Message) :
    (nd.receive m).blkList = nd.blkList.insert m.block.header.getID
      ((nd.blkList.lookup m.block.header.getID).getD m.block) := by
  rw [Node.receive, countMessage_eq]
  rfl

theorem receive_same
    (nd : Node) (m : Message) :
    SameSender nd (nd.receive m) ∧
    (nd.receive m).valSigKeys =
      nd.valSigKeys.insert m.block.validatorId m.block.validatorNextPublicKey ∧
    (nd.receive m).shouldBroadcast = nd.shouldBroadcast := by
  rw [Node.receive, countMessage_eq]
  exact ⟨⟨rfl, rfl, rfl, rfl⟩, rfl, rfl⟩

/-- What an accepted message does to the counters. -/
theorem receive_counters
    (nd : Node) (m : Message) :
    (nd.receive m).echoThisRound =
      (if m.type = .echo then nd.echoThisRound.increment m.block.header.getID
        else nd.echoThisRound) ∧
    (nd.receive m).readyThisRound =
      (if m.type = .ready then nd.readyThisRound.increment m.block.header.getID
        else nd.readyThisRound) ∧
    (nd.receive m).sendThisRound =
      (if m.type = .send then m.block.header.getID else nd.sendThisRound) ∧
    (nd.receive m).readySent = nd.readySent := by
  rw [Node.receive, countMessage_eq]
  exact ⟨rfl, rfl, rfl, rfl⟩

/-- What an accepted message does to the verification of blocks. -/
theorem receive_verification
    (nd : Node) (m : Message) :
    (nd.receive m).verifiedBlocks = insert m.block.header.getID nd.verifiedBlocks ∧
    (nd.receive m).utxolist = nd.utxolist ∧ (nd.receive m).walletIds = nd.walletIds := by
  rw [Node.receive, countMessage_eq]
  exact ⟨rfl, rfl, rfl⟩

theorem receive_passes
    {nd : Node}
    (h : Passes hd txs nd)
    (m : Message) :
    Passes hd txs (nd.receive m) := by
  intro b hb
  have hold := h b hb
  obtain ⟨hverified, hutxo, hwallets⟩ := receive_verification nd m
  rw [passesVerify, Bool.or_eq_true, decide_eq_true_eq] at hold ⊢
  rw [hverified, hutxo, hwallets]
  exact hold.imp_left Finset.mem_insert_of_mem

/-- The block list after a message of the block. -/
theorem Tracks.lookup_receive
    {nd : Node} {t : Tally} {sent : Bool} {m : Message}
    (h : Tracks hd txs nd t sent)
    (hm : OfBlock hd txs m.block) :
    ∃ b, (nd.receive m).blkList.lookup hd.getID = some b ∧ OfBlock hd txs b := by
  have hid : m.block.header.getID = hd.getID := by rw [hm.header]
  refine ⟨(nd.blkList.lookup hd.getID).getD m.block, ?_, ?_⟩
  · rw [receive_blkList, hid]
    exact AList.lookup_insert _
  · cases hold : nd.blkList.lookup hd.getID with
    | none => exact hm
    | some b => exact h.known b hold

/-- Counting a message of the block. -/
theorem Tracks.receive
    {nd : Node} {t : Tally} {sent : Bool} {m : Message}
    (h : Tracks hd txs nd t sent)
    (hm : OfBlock hd txs m.block) :
    Tracks hd txs (nd.receive m) (t.count m.type) (sent || MsgType.send == m.type) := by
  have hid : m.block.header.getID = hd.getID := by rw [hm.header]
  obtain ⟨hsame, _, hrunning⟩ := receive_same nd m
  obtain ⟨hecho, hready, hsend, hreadySent⟩ := receive_counters nd m
  obtain ⟨b, hlookup, hb⟩ := h.lookup_receive hm
  rw [hid, h.echo] at hecho
  rw [hid, h.ready] at hready
  rw [hid, h.send] at hsend
  rw [h.readySent] at hreadySent
  constructor
  case echo =>
    rw [hecho, Counter.increment_only]
    cases m.type <;> rfl
  case ready =>
    rw [hready, Counter.increment_only]
    cases m.type <;> rfl
  case readySent =>
    rw [hreadySent]
    cases m.type <;> rfl
  case running =>
    rw [hrunning, h.running]
    cases m.type <;> rfl
  case send =>
    rw [hsend]
    cases m.type <;> simp
  case known =>
    intro b' hb'
    obtain rfl := Option.some.inj (hlookup.symm.trans hb')
    exact hb
  case voted =>
    exact fun _ => ⟨b, hlookup⟩
  case key =>
    rw [hsame.key]
    exact h.key

/-- A message that passes the checks is received. -/
theorem recvMessage_eq_receive
    {nd : Node} {m : Message} {digest : Str}
    (hdigest : m.block.getDigest = .ok digest)
    (hvalid : ∀ k, nd.valSigKeys.lookup m.block.validatorId = some k → m.block.ValidUnder k)
    (hpasses : nd.passesVerify m.block = true) :
    nd.recvMessage m = .ok (nd.receive m, [.counted m]) := by
  have hcheck : nd.checkBlockSig m.block = .ok (true, { nd with
      valSigKeys := nd.valSigKeys.insert m.block.validatorId
        m.block.validatorNextPublicKey }) :=
    checkBlockSig_of_validUnder hdigest hvalid
  have hpass : Node.passesVerify { nd with
      valSigKeys := nd.valSigKeys.insert m.block.validatorId
        m.block.validatorNextPublicKey } m.block = true := hpasses
  simp [recvMessage, hcheck, hpass, Node.receive, bind, Except.bind, pure, Except.pure]

/-- A batch of accepted messages of the block. -/
theorem recvMessages_eq_ok
    {msgs : List Message} :
    ∀ {nd : Node} {t : Tally} {sent : Bool}, Tracks hd txs nd t sent →
      Passes hd txs nd → AcceptsAll nd.valSigKeys msgs →
      (∀ m ∈ msgs, OfBlock hd txs m.block ∧ ∃ digest, m.block.getDigest = .ok digest) →
      ∃ nd', recvMessages msgs nd = .ok (nd', msgs.map .counted) ∧
        Tracks hd txs nd' (t.recv (msgs.map fun m => m.type))
          (sent || (msgs.map fun m => m.type).contains .send) ∧
        Passes hd txs nd' ∧ SameSender nd nd' ∧
        nd'.valSigKeys = keysAfter nd.valSigKeys msgs := by
  induction msgs with
  | nil =>
      intro nd t sent h hp _ _
      refine ⟨nd, rfl, ?_, hp, ⟨rfl, rfl, rfl, rfl⟩, rfl⟩
      simpa [Tally.recv] using h
  | cons m msgs ih =>
      intro nd t sent h hp hacc hmsgs
      obtain ⟨⟨hm, digest, hdigest⟩, hrest⟩ := List.forall_mem_cons.mp hmsgs
      obtain ⟨hvalid, hacc⟩ := hacc
      obtain ⟨hsame, hkeys, _⟩ := receive_same nd m
      have hone := recvMessage_eq_receive hdigest hvalid (hp m.block hm)
      obtain ⟨nd', hloop, htracks, hp', hsame', hkeys'⟩ := ih (h.receive hm)
        (receive_passes hp m) (by rw [hkeys]; exact hacc) hrest
      refine ⟨nd', ?_, ?_, hp', ?_, ?_⟩
      · simp [recvMessages, hone, hloop, bind, Except.bind, pure, Except.pure]
      · rw [List.map_cons, List.contains_cons, ← Bool.or_assoc]
        exact htracks
      · exact ⟨hsame'.id.trans hsame.id, hsame'.n.trans hsame.n, hsame'.f.trans hsame.f,
          hsame'.key.trans hsame.key⟩
      · rw [hkeys', hkeys]
        rfl

end Tracking

section Sending

variable [P : Platform]

/-- The messages a node sends about the block, and what stays as it is. -/
structure Sends (hd : Header) (txs : List Transaction) (nd : Node) (types : List MsgType)
    (nd' : Node) (outs : List Message) : Prop where
  types : outs.map (fun m => m.type) = types
  body : ∀ m ∈ outs, OfBlock hd txs m.block
  chain : SentChain nd.id nd.myNextKeyPair.publicKey outs nd'.myNextKeyPair.publicKey
  writable : ∀ m ∈ outs, ∃ text, sigKeyToString m.block.validatorNextPublicKey = .ok text
  id : nd'.id = nd.id
  n : nd'.n = nd.n
  f : nd'.f = nd.f
  keys : nd'.valSigKeys = nd.valSigKeys
  passes : Passes hd txs nd → Passes hd txs nd'

variable {hd : Header} {txs : List Transaction}

theorem Sends.refl
    (nd : Node) :
    Sends hd txs nd [] nd [] :=
  ⟨rfl, by simp, rfl, by simp, rfl, rfl, rfl, rfl, fun hp => hp⟩

theorem Sends.append
    {nd nd₁ nd₂ : Node} {types types' : List MsgType} {outs outs' : List Message}
    (h : Sends hd txs nd types nd₁ outs)
    (h' : Sends hd txs nd₁ types' nd₂ outs') :
    Sends hd txs nd (types ++ types') nd₂ (outs ++ outs') where
  types := by rw [List.map_append, h.types, h'.types]
  body m hm := (List.mem_append.mp hm).elim (h.body m) (h'.body m)
  chain := h.chain.append (by rw [← h.id]; exact h'.chain)
  writable m hm := (List.mem_append.mp hm).elim (h.writable m) (h'.writable m)
  id := h'.id.trans h.id
  n := h'.n.trans h.n
  f := h'.f.trans h.f
  keys := h'.keys.trans h.keys
  passes hp := h'.passes (h.passes hp)

/-- The events of a delivery, if there is one. -/
def deliveryEvents (f ready : Nat) (h : Str) : List NodeEvent :=
  if 2 * f + 1 < ready then [.delivered h] else []

/-- The events of a task that counts all its messages. -/
def taskEvents (msgs outs : List Message) (f ready : Nat) (h : Str) : List NodeEvent :=
  msgs.map .counted ++ (outs.map .broadcast ++ deliveryEvents f ready h)

theorem Tracks.deliver
    {nd : Node} {t : Tally}
    (h : Tracks hd txs nd t false)
    (hvotes : 2 * nd.f + 1 < t.ready)
    (recorded : Str) :
    Tracks hd txs (nd.deliver hd.getID recorded) (t.deliver nd.f) false := by
  rw [Tally.deliver, if_pos hvotes]
  refine ⟨?_, ?_, h.readySent, rfl, h.send, h.known, ?_, h.key⟩
  · show nd.echoThisRound.erase hd.getID = _
    rw [h.echo, Counter.erase_only]
  · show nd.readyThisRound.erase hd.getID = _
    rw [h.ready, Counter.erase_only]
  · intro hpos
    simp at hpos

variable [LawfulPlatform P]

theorem getID_ne_nil
    (hd : Header) :
    hd.getID ≠ [] := by
  intro hnil
  have hlen : hd.getID.length = 64 := (LawfulPlatform.hash_hex (P := P) _).1
  rw [hnil] at hlen
  cases hlen

/-- The block of the hash is signed and sent. -/
theorem Tracks.broadcast
    {nd : Node} {t : Tally} {sent : Bool}
    (h : Tracks hd txs nd t sent)
    (hknown : ∃ b, nd.blkList.lookup hd.getID = some b)
    (type : MsgType) (round : UInt32) :
    ∃ m, nd.broadcastMessage type ((nd.blkList.lookup hd.getID).getD {}) round =
        .ok (nd.rotateKeys, [.broadcast m]) ∧
      Sends hd txs nd [type] nd.rotateKeys [m] := by
  obtain ⟨b, hb⟩ := hknown
  have hof := h.known b hb
  rw [hb]
  obtain ⟨m, hm⟩ := exists_broadcastMessage h.key hof.immutable type round
  refine ⟨m, hm, ?_⟩
  obtain ⟨_, m', hsigns, hev⟩ := broadcastMessage_eq_ok hm
  have hmm : m = m' := by simpa using hev
  subst hmm
  obtain ⟨hchain, hwritable⟩ := Signs.chain h.key hsigns
  obtain ⟨htype, hheader, htxs, _⟩ := Signs.type_eq hsigns
  have himm : m.block.isMutable = false := by
    obtain ⟨_, digest, rfl, _⟩ := hsigns
    exact hof.immutable
  exact {
    types := by simp [htype]
    body := by
      intro x hx
      rw [List.mem_singleton.mp hx]
      exact ⟨hheader.trans hof.header, htxs.trans hof.txs, himm⟩
    chain := hchain
    writable := by
      intro x hx
      rw [List.mem_singleton.mp hx]
      exact hwritable
    id := rfl
    n := rfl
    f := rfl
    keys := rfl
    passes := fun hp => hp }

theorem Tracks.sendEcho
    {nd : Node} {t : Tally} {sent : Bool}
    (h : Tracks hd txs nd t sent) :
    ∃ nd' outs, nd.sendEcho = .ok (nd', outs.map .broadcast) ∧
      Sends hd txs nd (if sent then [.echo] else []) nd' outs ∧
      Tracks hd txs nd' t false := by
  cases sent with
  | false =>
      have hsend : nd.sendThisRound = [] := h.send
      exact ⟨nd, [], by simp [Node.sendEcho, hsend], Sends.refl nd, h⟩
  | true =>
      have hsend : nd.sendThisRound = hd.getID := h.send
      obtain ⟨m, hm, hsends⟩ := h.broadcast (h.voted (Or.inr (Or.inr rfl))) .echo 1
      refine ⟨{ nd.rotateKeys with sendThisRound := [] }, [m], ?_, ?_, ?_⟩
      · have hne : nd.sendThisRound ≠ [] := by
          rw [hsend]
          exact getID_ne_nil hd
        rw [← hsend] at hm
        simp [Node.sendEcho, hne, hm, bind, Except.bind, pure, Except.pure]
      · exact ⟨hsends.types, hsends.body, hsends.chain, hsends.writable, rfl, rfl, rfl, rfl,
          fun hp => hp⟩
      · refine ⟨h.echo, h.ready, h.readySent, h.running, rfl, h.known, ?_, keyGen_wellFormed _⟩
        intro _
        exact h.voted (Or.inr (Or.inr rfl))

theorem Tracks.announceReady
    {nd : Node} {t : Tally}
    (h : Tracks hd txs nd t false)
    (threshold nbRecv : Nat)
    (hknown : threshold ≤ nbRecv → ∃ b, nd.blkList.lookup hd.getID = some b)
    (round : UInt32) :
    ∃ nd' outs, nd.announceReady threshold nbRecv hd.getID round = .ok (nd', outs.map .broadcast) ∧
      Sends hd txs nd (t.announce threshold nbRecv).2 nd' outs ∧
      Tracks hd txs nd' (t.announce threshold nbRecv).1 false := by
  have hmem : hd.getID ∉ nd.readySent ↔ t.readySent = false := by
    rw [h.readySent]
    cases t.readySent <;> simp
  by_cases hcond : threshold ≤ nbRecv ∧ t.readySent = false
  · obtain ⟨m, hm, hsends⟩ := h.broadcast (hknown hcond.1) .ready round
    refine ⟨{ nd.rotateKeys with readySent := insert hd.getID nd.readySent }, [m], ?_, ?_, ?_⟩
    · unfold Node.announceReady
      rw [if_pos ⟨hcond.1, hmem.mpr hcond.2⟩]
      simp only [sendReady, hm, bind, Except.bind, pure, Except.pure, List.map_cons, List.map_nil]
      rfl
    · rw [Tally.announce, if_pos hcond]
      exact ⟨hsends.types, hsends.body, hsends.chain, hsends.writable, rfl, rfl, rfl, rfl,
          fun hp => hp⟩
    · rw [Tally.announce, if_pos hcond]
      refine ⟨h.echo, h.ready, ?_, h.running, h.send, h.known, h.voted, keyGen_wellFormed _⟩
      show insert hd.getID nd.readySent = {hd.getID}
      rw [h.readySent, hcond.2]
      rfl
  · refine ⟨nd, [], ?_, ?_, ?_⟩
    · unfold Node.announceReady
      rw [if_neg (by rw [hmem]; exact hcond)]
      rfl
    · rw [Tally.announce, if_neg hcond]
      exact Sends.refl nd
    · rw [Tally.announce, if_neg hcond]
      exact h

theorem Tracks.echoLoop
    {nd : Node} {t : Tally}
    (h : Tracks hd txs nd t false)
    (hpos : 0 < (nd.n + nd.f + 1) / 2) :
    ∃ nd' outs, Node.echoLoop nd.echoThisRound.entries nd = .ok (nd', outs.map .broadcast) ∧
      Sends hd txs nd (t.announce ((nd.n + nd.f + 1) / 2) t.echo).2 nd' outs ∧
      Tracks hd txs nd' (t.announce ((nd.n + nd.f + 1) / 2) t.echo).1 false := by
  rw [h.echo, Counter.entries_only]
  split_ifs with hecho
  · obtain ⟨nd', outs, hok, hsends, htracks⟩ := h.announceReady
      ((nd.n + nd.f + 1) / 2) t.echo (fun _ => h.voted (Or.inl hecho)) 2
    refine ⟨nd', outs, ?_, hsends, htracks⟩
    simp [Node.echoLoop, hok, bind, Except.bind, pure, Except.pure]
  · have hnot : ¬ ((nd.n + nd.f + 1) / 2 ≤ t.echo ∧ t.readySent = false) := by
      rintro ⟨hle, _⟩
      omega
    refine ⟨nd, [], rfl, ?_, ?_⟩
    · rw [Tally.announce, if_neg hnot]
      exact Sends.refl nd
    · rw [Tally.announce, if_neg hnot]
      exact h

theorem Tracks.readyLoop
    {nd : Node} {t : Tally}
    (h : Tracks hd txs nd t false) :
    ∃ nd' outs, Node.readyLoop nd.readyThisRound.entries nd =
        .ok (nd', outs.map .broadcast ++ deliveryEvents nd.f t.ready hd.getID) ∧
      Sends hd txs nd (t.announce (nd.f + 1) t.ready).2 nd' outs ∧
      Tracks hd txs nd' ((t.announce (nd.f + 1) t.ready).1.deliver nd.f) false := by
  have hready : ∀ threshold, (t.announce threshold t.ready).1.ready = t.ready := by
    intro threshold
    rw [Tally.announce_fst]
  rw [h.ready, Counter.entries_only]
  split_ifs with hpos
  · obtain ⟨nd', outs, hok, hsends, htracks⟩ := h.announceReady
      (nd.f + 1) t.ready (fun _ => h.voted (Or.inr (Or.inl hpos))) 3
    have hf := hsends.f
    by_cases hvotes : 2 * nd.f + 1 < t.ready
    · refine ⟨nd'.deliver hd.getID (nd'.erasedRead nd'.erasedReads hd.getID), outs, ?_, ?_, ?_⟩
      · have hvotes' : 2 * nd'.f + 1 < t.ready := by rwa [hf]
        simp [Node.readyLoop, hok, hvotes, hvotes', deliveryEvents, bind, Except.bind, pure,
          Except.pure]
      · exact ⟨hsends.types, hsends.body, hsends.chain, hsends.writable, hsends.id, hsends.n,
          hsends.f, hsends.keys, hsends.passes⟩
      · have hdelivered := htracks.deliver (by rw [hready, hf]; exact hvotes)
          (nd'.erasedRead nd'.erasedReads hd.getID)
        rw [hf] at hdelivered
        exact hdelivered
    · refine ⟨nd', outs, ?_, hsends, ?_⟩
      · have hvotes' : ¬ 2 * nd'.f + 1 < t.ready := by rwa [hf]
        simp [Node.readyLoop, hok, hvotes, hvotes', deliveryEvents, bind, Except.bind, pure,
          Except.pure]
      · rw [Tally.deliver, hready, if_neg hvotes]
        exact htracks
  · have hzero : t.ready = 0 := by omega
    have hnot : ¬ (nd.f + 1 ≤ t.ready ∧ t.readySent = false) := by
      rintro ⟨hle, _⟩
      omega
    refine ⟨nd, [], ?_, ?_, ?_⟩
    · simp [Node.readyLoop, deliveryEvents, hzero]
    · rw [Tally.announce, if_neg hnot]
      exact Sends.refl nd
    · have hfew : ¬ 2 * nd.f + 1 < t.ready := by omega
      rw [Tally.announce, if_neg hnot, Tally.deliver, if_neg hfew]
      exact h

theorem Tracks.broadcastRound
    {nd : Node} {t : Tally} {sent : Bool}
    (h : Tracks hd txs nd t sent)
    (hpos : 0 < (nd.n + nd.f + 1) / 2) :
    ∃ nd' outs, nd.broadcastRound =
        .ok (nd', outs.map .broadcast ++ deliveryEvents nd.f t.ready hd.getID) ∧
      Sends hd txs nd (t.round ((nd.n + nd.f + 1) / 2) nd.f sent).2 nd' outs ∧
      Tracks hd txs nd' (t.round ((nd.n + nd.f + 1) / 2) nd.f sent).1 false := by
  set t₀ : Tally := { t with running := true, echoSent := t.echoSent + if sent then 1 else 0 }
    with ht₀
  have h₀ : Tracks hd txs { nd with shouldBroadcast := true } t₀ sent :=
    ⟨h.echo, h.ready, h.readySent, rfl, h.send, h.known, h.voted, h.key⟩
  obtain ⟨nd₁, outs₁, hok₁, hsends₁, htracks₁⟩ := h₀.sendEcho
  have hn₁ : nd₁.n = nd.n := hsends₁.n
  have hf₁ : nd₁.f = nd.f := hsends₁.f
  obtain ⟨nd₂, outs₂, hok₂, hsends₂, htracks₂⟩ := htracks₁.echoLoop (by rw [hn₁, hf₁]; exact hpos)
  rw [hn₁, hf₁] at hsends₂ htracks₂
  have hf₂ : nd₂.f = nd.f := hsends₂.f.trans hf₁
  obtain ⟨nd₃, outs₃, hok₃, hsends₃, htracks₃⟩ := htracks₂.readyLoop
  rw [hf₂] at hok₃ hsends₃ htracks₃
  have hready : (t₀.announce ((nd.n + nd.f + 1) / 2) t₀.echo).1.ready = t.ready := by
    rw [Tally.announce_fst]
  refine ⟨nd₃, outs₁ ++ outs₂ ++ outs₃, ?_, ?_, ?_⟩
  · rw [hready] at hok₃
    simp [Node.broadcastRound, hok₁, hok₂, hok₃, bind, Except.bind, pure, Except.pure]
  · have hall := (hsends₁.append hsends₂).append hsends₃
    exact ⟨hall.types, hall.body, hall.chain, hall.writable, hall.id, hall.n, hall.f, hall.keys,
      fun hp => hall.passes hp⟩
  · exact htracks₃

/-- The messages of a batch fit the keys and the block. -/
structure GoodBatch (hd : Header) (txs : List Transaction) (nd : Node) (msgs : List Message) :
    Prop where
  accepts : AcceptsAll nd.valSigKeys msgs
  body : ∀ m ∈ msgs, OfBlock hd txs m.block ∧ ∃ digest, m.block.getDigest = .ok digest

/-- The outcome of a task on messages of the block is the one the tally computes. -/
theorem runTask_iff_tally
    {nd : Node} {t : Tally} {msgs : List Message}
    (h : Tracks hd txs nd t false)
    (hpass : Passes hd txs nd)
    (hgood : GoodBatch hd txs nd msgs)
    (hpos : 0 < (nd.n + nd.f + 1) / 2) :
    ∃ nd₁ nd' outs,
      (∀ nd'' evs, nd.RunTask msgs nd'' evs ↔
        nd'' = nd' ∧ evs =
          taskEvents msgs outs nd.f (t.recv (msgs.map fun m => m.type)).ready hd.getID) ∧
      SameSender nd nd₁ ∧ nd₁.valSigKeys = keysAfter nd.valSigKeys msgs ∧ Passes hd txs nd₁ ∧
      Sends hd txs nd₁ (t.task ((nd.n + nd.f + 1) / 2) nd.f (msgs.map fun m => m.type)).2 nd' outs ∧
      Tracks hd txs nd' (t.task ((nd.n + nd.f + 1) / 2) nd.f (msgs.map fun m => m.type)).1 false := by
  have h₀ : Tracks hd txs { nd with sendThisRound := [] } t false :=
    { h with send := rfl }
  obtain ⟨nd₁, hrecv, htracks₁, hpass₁, hsame₁, hkeys₁⟩ :=
    recvMessages_eq_ok h₀ hpass hgood.accepts hgood.body
  rw [Bool.false_or] at htracks₁
  have hn : nd₁.n = nd.n := hsame₁.n
  have hf : nd₁.f = nd.f := hsame₁.f
  obtain ⟨nd', outs, hround, hsends, htracks'⟩ := htracks₁.broadcastRound (by rw [hn, hf]; exact hpos)
  rw [hn, hf] at hsends htracks'
  rw [hf] at hround
  refine ⟨nd₁, nd', outs, ?_, ⟨hsame₁.id, hn, hf, hsame₁.key⟩, hkeys₁, hpass₁, hsends, htracks'⟩
  -- with one hash the order of the counters leaves no choice
  have hrehash : ∀ nd₂, nd₁.Rehashed nd₂ → nd₂ = nd₁ := by
    rintro nd₂ ⟨echo, ready, hecho, hready, rfl⟩
    rw [htracks₁.echo] at hecho
    rw [htracks₁.ready] at hready
    rw [Counter.eq_only_of_perm hecho, Counter.eq_only_of_perm hready, ← htracks₁.echo,
      ← htracks₁.ready]
  intro nd'' evs
  constructor
  · rintro ⟨nd₁', ev₁, nd₂, ev₂, hrecv', hre, hround', rfl⟩
    obtain ⟨rfl, rfl⟩ := Prod.mk.inj (Except.ok.inj (hrecv.symm.trans hrecv'))
    rw [hrehash nd₂ hre] at hround'
    obtain ⟨rfl, rfl⟩ := Prod.mk.inj (Except.ok.inj (hround.symm.trans hround'))
    exact ⟨rfl, rfl⟩
  · rintro ⟨rfl, rfl⟩
    exact ⟨nd₁, _, nd₁, _, hrecv, ⟨_, _, List.Perm.refl _, List.Perm.refl _, rfl⟩, hround, rfl⟩

end Sending

end CosiCoin
