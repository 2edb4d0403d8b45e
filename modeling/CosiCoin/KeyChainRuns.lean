import CosiCoin.KeyChain
import CosiCoin.ReferencePlatform

/-!
# COSICOIN: the key chain along the life of a sender and a receiver

A sender draws a key pair when it is built and one more in each call of
`broadcastMessage`: the call signs with the pair drawn last and announces the
new one.  `Sending` follows a sender through its calls and records the private
key and the message of each; whatever else the node does between two calls
leaves the keys as they are.

`Receiving` follows a receiver through the messages it processes.  The messages
of the sender arrive over the wire in order, those of other validators stand
anywhere between them.
-/

namespace CosiCoin

open Node

section Lives

variable [Platform]

/-- What a node does between two calls of `broadcastMessage` leaves its own keys alone. -/
structure Node.KeepsOwnKeys (nd nd' : Node) : Prop where
  id : nd'.id = nd.id
  pair : nd'.myNextKeyPair = nd.myNextKeyPair
  urandom : nd'.urandom = nd.urandom
  drawn : nd'.drawn = nd.drawn

/-- The calls of `broadcastMessage` of a node, with the private key each one signed with. -/
inductive Sending (start : Node) : List (SigKey × Message) → Node → Prop
  | start :
      Sending start [] start
  | broadcast
      {log : List (SigKey × Message)} {nd nd' : Node}
      {type : MsgType} {block : Block} {round : UInt32} {m : Message}
      (run : Sending start log nd)
      (hmut : block.isMutable = false)
      (h : nd.broadcastMessage type block round = .ok (nd', [.broadcast m])) :
      Sending start (log ++ [(nd'.myCurrentPrivateKey, m)]) nd'
  | other
      {log : List (SigKey × Message)} {nd nd' : Node}
      (run : Sending start log nd)
      (h : nd.KeepsOwnKeys nd') :
      Sending start log nd'

/-- The messages a node has processed; nothing else changes the keys it has stored. -/
inductive Receiving (start : Node) : List Message → Node → Prop
  | start :
      Receiving start [] start
  | message
      {msgs : List Message} {nd nd' : Node} {m : Message} {evs : List NodeEvent}
      (run : Receiving start msgs nd)
      (h : nd.recvMessage m = .ok (nd', evs)) :
      Receiving start (msgs ++ [m]) nd'
  | other
      {msgs : List Message} {nd nd' : Node}
      (run : Receiving start msgs nd)
      (h : nd'.valSigKeys = nd.valSigKeys) :
      Receiving start msgs nd'

/-- The messages with the sender's id are what the wire makes of its first messages. -/
def DeliversPrefix (id : UInt16) (sent stream : List Message) : Prop :=
  ∃ pre, pre <+: sent ∧ List.Forall₂ (fun m m' => m.wire = .ok m') pre (messagesFrom id stream)

/-- Each message verifies under the key that the one before it announces. -/
def ChainedByKeys (msgs : List Message) : Prop :=
  msgs.IsChain fun m m' => m'.block.ValidUnder m.block.validatorNextPublicKey

end Lives

section Chains

variable [Platform]

theorem SentChain.chainedByKeys
    {id : UInt16} {msgs : List Message} {key' : SigKey} :
    ∀ {key : SigKey}, SentChain id key msgs key' → ChainedByKeys msgs := by
  induction msgs with
  | nil =>
      intro _ _
      exact .nil
  | cons m msgs ih =>
      intro key h
      have hrest := ih h.2.2
      cases msgs with
      | nil =>
          exact .singleton m
      | cons m' msgs =>
          exact .cons_cons h.2.2.2.1 hrest

/-- A chain ends where its first part ends. -/
theorem SentChain.of_append
    {id : UInt16} {msgs msgs' : List Message} {key' : SigKey} :
    ∀ {key : SigKey}, SentChain id key (msgs ++ msgs') key' →
      ∃ key'', SentChain id key msgs key'' := by
  induction msgs with
  | nil =>
      intro key _
      exact ⟨key, rfl⟩
  | cons m msgs ih =>
      intro key h
      obtain ⟨key'', hchain⟩ := ih h.2.2
      exact ⟨key'', h.1, h.2.1, hchain⟩

/-- The first message of the sender that is still to come fits the stored key. -/
theorem Receiving.pending
    {start nd : Node} {id : UInt16} {msgs : List Message} {key key' : SigKey}
    (h : Receiving start msgs nd)
    (hnone : start.valSigKeys.lookup id = none) :
    ∀ {rest : List Message}, SentChain id key (messagesFrom id msgs ++ rest) key' →
      Pending id (nd.valSigKeys.lookup id) rest key' := by
  induction h with
  | start =>
      intro rest hchain
      refine ⟨key, hchain, ?_⟩
      intro k hk
      rw [hnone] at hk
      cases hk
  | @message msgs nd nd' m evs run h ih =>
      intro rest hchain
      obtain ⟨_, _, _, _, _, _, rfl, hend⟩ := recvMessage_eq_ok h
      have hkeys : nd'.valSigKeys =
          nd.valSigKeys.insert m.block.validatorId m.block.validatorNextPublicKey := by
        rcases hend with ⟨_, _, rfl⟩ | ⟨_, _, _, rfl⟩
        · rfl
        · rw [countMessage_eq]
          rfl
      rw [hkeys]
      by_cases hid : m.block.validatorId = id
      · have hfrom : messagesFrom id (msgs ++ [m]) ++ rest = messagesFrom id msgs ++ m :: rest := by
          simp [messagesFrom, hid]
        rw [hfrom] at hchain
        rw [hid, AList.lookup_insert]
        exact (ih hchain).head.2.2
      · have hfrom : messagesFrom id (msgs ++ [m]) = messagesFrom id msgs := by
          simp [messagesFrom, hid]
        rw [hfrom] at hchain
        rw [AList.lookup_insert_ne (Ne.symm hid)]
        exact ih hchain
  | other run h ih =>
      intro rest hchain
      rw [h]
      exact ih hchain

/--
The next message of the sender passes the check of a receiver that has processed
the ones before it.
-/
theorem checkBlockSig_of_receiving
    {start nd : Node} {id : UInt16} {msgs : List Message} {m : Message} {key key' : SigKey}
    (hrecv : Receiving start msgs nd)
    (hnone : start.valSigKeys.lookup id = none)
    (hm : m.block.validatorId = id)
    (hchain : SentChain id key (messagesFrom id (msgs ++ [m])) key') :
    ∃ nd', nd.checkBlockSig m.block = .ok (true, nd') := by
  have hfrom : messagesFrom id (msgs ++ [m]) = messagesFrom id msgs ++ [m] := by
    simp [messagesFrom, hm]
  rw [hfrom] at hchain
  obtain ⟨k, hpending, hknown⟩ := hrecv.pending hnone hchain
  obtain ⟨_, digest, hdigest⟩ := Block.getDigest_of_validUnder hpending.2.1
  refine ⟨_, checkBlockSig_of_validUnder hdigest ?_⟩
  intro k' hk'
  rw [hm] at hk'
  rw [hknown k' hk']
  exact hpending.2.1

end Chains

section WiredChains

variable [P : Platform] [LawfulPlatform P]

/-- The wire keeps a chain. -/
theorem SentChain.wire
    {id : UInt16} {msgs msgs' : List Message} {key' : SigKey}
    (hwire : List.Forall₂ (fun m m' => m.wire = .ok m') msgs msgs') :
    ∀ {key : SigKey}, SentChain id key msgs key' → SentChain id key msgs' key' := by
  induction hwire with
  | nil =>
      intro key h
      exact h
  | cons hm _ ih =>
      intro key h
      obtain ⟨hid, hvalid, hrest⟩ := h
      obtain ⟨_, hnext, _⟩ := wire_block hm
      refine ⟨(wire_eq_ok hm).2.2.1.trans hid, ?_, ?_⟩
      · exact (wire_getDigest hm (Block.getDigest_of_validUnder hvalid).1).2 _ hvalid
      · rw [hnext]
        exact ih hrest

end WiredChains

section OwnKeys

variable [P : Platform]

/-- A private key determines its pair. -/
theorem keyGen_eq_of_privateKey_eq
    {draw draw' : Draw}
    (h : (keyGen draw).privateKey = (keyGen draw').privateKey) :
    keyGen draw = keyGen draw' := by
  have hpub : (keyGen draw).publicKey = (keyGen draw').publicKey := by
    rw [(keyGen_wellFormed draw).2, (keyGen_wellFormed draw').2, h]
  calc
    keyGen draw = ⟨(keyGen draw).publicKey, (keyGen draw).privateKey⟩ := rfl
    _ = ⟨(keyGen draw').publicKey, (keyGen draw').privateKey⟩ := by rw [hpub, h]
    _ = keyGen draw' := rfl

/-- The keys and messages of a sender after its calls so far. -/
structure SenderKeys (id : UInt16) (urandom : Nat → Draw) (log : List (SigKey × Message))
    (nd : Node) : Prop where
  sameId : nd.id = id
  sameDraws : nd.urandom = urandom
  drawn : nd.drawn = log.length + 1
  pair : nd.myNextKeyPair = keyGen (urandom log.length)
  keys : log.map Prod.fst =
    (List.range log.length).map fun i => (keyGen (urandom i)).privateKey
  chain : SentChain id (keyGen (urandom 0)).publicKey (log.map Prod.snd)
    (keyGen (urandom log.length)).publicKey

theorem senderKeys_new
    (id : UInt16) (n f : Nat) (isLead : Bool) (urandom : Nat → Draw)
    (erasedRead : Nat → Str → Str) :
    SenderKeys id urandom [] (Node.new id n f isLead urandom erasedRead) :=
  ⟨rfl, rfl, rfl, rfl, rfl, rfl⟩

theorem SenderKeys.other
    {id : UInt16} {urandom : Nat → Draw} {log : List (SigKey × Message)} {nd nd' : Node}
    (hinv : SenderKeys id urandom log nd)
    (h : nd.KeepsOwnKeys nd') :
    SenderKeys id urandom log nd' where
  sameId := h.id.trans hinv.sameId
  sameDraws := h.urandom.trans hinv.sameDraws
  drawn := h.drawn.trans hinv.drawn
  pair := h.pair.trans hinv.pair
  keys := hinv.keys
  chain := hinv.chain

theorem SenderKeys.pair_wellFormed
    {id : UInt16} {urandom : Nat → Draw} {log : List (SigKey × Message)} {nd : Node}
    (hinv : SenderKeys id urandom log nd) :
    nd.myNextKeyPair.WellFormed := by
  rw [hinv.pair]
  exact keyGen_wellFormed _

/-- The keys that have signed are as different as the pairs that were drawn. -/
theorem SenderKeys.nodup
    {id : UInt16} {urandom : Nat → Draw} {log : List (SigKey × Message)} {nd : Node}
    (hinv : SenderKeys id urandom log nd)
    (hfresh : Set.InjOn (fun i => keyGen (urandom i)) (Set.Iio nd.drawn)) :
    (log.map Prod.fst).Nodup := by
  rw [hinv.keys]
  refine List.Nodup.map_on ?_ List.nodup_range
  intro i hi j hj hij
  have hbound : ∀ k ∈ List.range log.length, k ∈ Set.Iio nd.drawn := by
    intro k hk
    have hlt := List.mem_range.mp hk
    have hdrawn := hinv.drawn
    exact Set.mem_Iio.mpr (by omega)
  exact hfresh (hbound i hi) (hbound j hj) (keyGen_eq_of_privateKey_eq hij)

variable [LawfulPlatform P]

/-- One call signs with the pair drawn last and draws the next. -/
theorem SenderKeys.broadcast
    {id : UInt16} {urandom : Nat → Draw} {log : List (SigKey × Message)} {nd nd' : Node}
    {type : MsgType} {block : Block} {round : UInt32} {m : Message}
    (hinv : SenderKeys id urandom log nd)
    (h : nd.broadcastMessage type block round = .ok (nd', [.broadcast m])) :
    SenderKeys id urandom (log ++ [(nd'.myCurrentPrivateKey, m)]) nd' := by
  obtain ⟨rfl, m', hsigns, hm⟩ := broadcastMessage_eq_ok h
  obtain rfl : m = m' := by simpa using hm
  have hnext : nd.rotateKeys.myNextKeyPair = keyGen (urandom (log.length + 1)) := by
    rw [rotateKeys, hinv.sameDraws, hinv.drawn]
  have hkey : nd.rotateKeys.myCurrentPrivateKey = (keyGen (urandom log.length)).privateKey := by
    rw [rotateKeys, hinv.pair]
  have hlink := (Signs.chain hinv.pair_wellFormed hsigns).1
  rw [hinv.sameId, hinv.pair, hnext] at hlink
  constructor
  · exact hinv.sameId
  · exact hinv.sameDraws
  · simp [rotateKeys, hinv.drawn]
  · rw [hnext, List.length_append, List.length_singleton]
  · rw [List.map_append, hinv.keys, List.length_append, List.length_singleton, List.range_succ,
      List.map_append, List.map_singleton, List.map_singleton, hkey]
  · rw [List.map_append, List.length_append, List.length_singleton]
    exact hinv.chain.append hlink

theorem Sending.senderKeys
    {id : UInt16} {n f : Nat} {isLead : Bool} {urandom : Nat → Draw}
    {erasedRead : Nat → Str → Str}
    {log : List (SigKey × Message)} {nd : Node}
    (h : Sending (Node.new id n f isLead urandom erasedRead) log nd) :
    SenderKeys id urandom log nd := by
  induction h with
  | start =>
      exact senderKeys_new id n f isLead urandom erasedRead
  | broadcast run hmut h ih =>
      exact ih.broadcast h
  | other run h ih =>
      exact ih.other h

/--
Every call of a sender on a frozen block goes through.  Its messages form a chain
by the keys they announce; a receiver that knows no key of the sender and gets
the first of its messages in order, between any others, accepts each of them and
has verified it under the key announced before; and if `KeyGen` has returned no
pair twice, no private key has signed twice.
-/
theorem one_time_key_chain
    (id : UInt16) (n f : Nat) (isLead : Bool) (urandom : Nat → Draw) (erasedRead : Nat → Str → Str)
    (log : List (SigKey × Message)) (nd : Node)
    (h : Sending (Node.new id n f isLead urandom erasedRead) log nd) :
    (∀ type block round, block.isMutable = false →
      ∃ nd' m, nd.broadcastMessage type block round = .ok (nd', [.broadcast m])) ∧
    ChainedByKeys (log.map Prod.snd) ∧
    (∀ start msgs rc m, start.valSigKeys.lookup id = none → Receiving start msgs rc →
      m.block.validatorId = id → DeliversPrefix id (log.map Prod.snd) (msgs ++ [m]) →
      (∃ rc', rc.checkBlockSig m.block = .ok (true, rc')) ∧
        ChainedByKeys (messagesFrom id (msgs ++ [m]))) ∧
    (Set.InjOn (fun i => keyGen (urandom i)) (Set.Iio nd.drawn) → (log.map Prod.fst).Nodup) := by
  have hinv := h.senderKeys
  refine ⟨?_, hinv.chain.chainedByKeys, ?_, hinv.nodup⟩
  · intro type block round hmut
    obtain ⟨m, hm⟩ := exists_broadcastMessage hinv.pair_wellFormed hmut type round
    exact ⟨_, m, hm⟩
  · rintro start msgs rc m hnone hrecv hm ⟨pre, ⟨rest, hpre⟩, hwire⟩
    have hchain := hinv.chain
    rw [← hpre] at hchain
    obtain ⟨key', hprefix⟩ := hchain.of_append
    have harrived := hprefix.wire hwire
    exact ⟨checkBlockSig_of_receiving hrecv hnone hm harrived, harrived.chainedByKeys⟩

end OwnKeys

section TwoMessages

/-- The i-th key pair is made of strings of bytes i. -/
def numberedDraws (i : Nat) : Draw :=
  fun _ => (equalBytes (UInt8.ofNat i), equalBytes (UInt8.ofNat i))

theorem numberedDraws_injOn
    [Platform] :
    Set.InjOn (fun i => keyGen (numberedDraws i)) (Set.Iio 3) := by
  intro i hi j hj hij
  have hentry := congrArg (fun pair => pair.privateKey.entry false 0) hij
  rw [keyGen_privateKey_entry _ (by decide), keyGen_privateKey_entry _ (by decide)] at hentry
  have hbyte : UInt8.ofNat i = UInt8.ofNat j := by
    simpa [numberedDraws, equalBytes, keyLen, List.replicate_inj] using hentry
  have hnat := congrArg UInt8.toNat hbyte
  rw [UInt8.toNat_ofNat', UInt8.toNat_ofNat'] at hnat
  have hi' := Set.mem_Iio.mp hi
  have hj' := Set.mem_Iio.mp hj
  omega

/-- What was broadcast for a block whose transactions can be written arrives. -/
theorem exists_wire_of_broadcastMessage
    [P : Platform] [LawfulPlatform P]
    {id : UInt16} {urandom : Nat → Draw} {log : List (SigKey × Message)} {nd nd' : Node}
    {type : MsgType} {block : Block} {round : UInt32} {m : Message}
    (hinv : SenderKeys id urandom log nd)
    (htxs : Encodable block.txs)
    (h : nd.broadcastMessage type block round = .ok (nd', [.broadcast m])) :
    ∃ m', m.wire = .ok m' ∧ m'.block.validatorId = id := by
  obtain ⟨rfl, m', hsigns, hm⟩ := broadcastMessage_eq_ok h
  obtain rfl : m = m' := by simpa using hm
  obtain ⟨_, _, hblock, hsigner⟩ := Signs.type_eq hsigns
  obtain ⟨_, text, htext⟩ := Signs.chain hinv.pair_wellFormed hsigns
  have hmut : m.block.isMutable = false := by
    obtain ⟨hmut, _, rfl, _⟩ := hsigns
    exact hmut
  rw [← hblock] at htxs
  obtain ⟨m', hwire⟩ := exists_wire hmut htxs htext
  exact ⟨m', hwire, (wire_eq_ok hwire).2.2.1.trans (hsigner.trans hinv.sameId)⟩

/-- A message whose signature has been checked is processed. -/
theorem exists_recvMessage
    [Platform]
    {nd nd' : Node} {m : Message} {valid : Bool}
    (h : nd.checkBlockSig m.block = .ok (valid, nd')) :
    ∃ nd'' evs, nd.recvMessage m = .ok (nd'', evs) := by
  unfold recvMessage
  rw [h]
  simp only [bind, Except.bind, pure, Except.pure]
  split_ifs
  · exact ⟨_, _, rfl⟩
  · exact ⟨_, _, rfl⟩
  · exact ⟨_, _, rfl⟩

end TwoMessages

/-- Validator 1 sends a block twice, and validator 2 accepts both messages. -/
theorem two_messages_are_accepted :
    letI := referencePlatform
    ∃ log nd m₁ m₂ rc rc',
      Sending (Node.new 1 4 1 false numberedDraws keptRead) log nd ∧ log.length = 2 ∧
      (log.map Prod.fst).Nodup ∧
      List.Forall₂ (fun m m' => m.wire = .ok m') (log.map Prod.snd) [m₁, m₂] ∧
      Receiving (Node.new 2 4 1 false numberedDraws keptRead) [m₁] rc ∧
      rc.checkBlockSig m₂.block = .ok (true, rc') := by
  let _ := referencePlatform
  have h₀ : Sending (Node.new 1 4 1 false numberedDraws keptRead) [] _ := .start
  obtain ⟨nd₁, m, hm⟩ := (one_time_key_chain 1 4 1 false numberedDraws keptRead _ _ h₀).1
    .send { isMutable := false } 0 rfl
  have h₁ := h₀.broadcast rfl hm
  obtain ⟨nd₂, m', hm'⟩ := (one_time_key_chain 1 4 1 false numberedDraws keptRead _ _ h₁).1
    .echo { isMutable := false } 1 rfl
  have h₂ := h₁.broadcast rfl hm'
  obtain ⟨m₁, hwire₁, hid₁⟩ := exists_wire_of_broadcastMessage h₀.senderKeys ⟨[], rfl⟩ hm
  obtain ⟨m₂, hwire₂, hid₂⟩ := exists_wire_of_broadcastMessage h₁.senderKeys ⟨[], rfl⟩ hm'
  obtain ⟨_, _, hreceive, hfresh⟩ := one_time_key_chain 1 4 1 false numberedDraws keptRead _ _ h₂
  have hdrawn : nd₂.drawn = 3 := h₂.senderKeys.drawn
  have hstart : Receiving (Node.new 2 4 1 false numberedDraws keptRead) [] _ := .start
  have hfirst : DeliversPrefix 1 [m, m'] [m₁] := by
    refine ⟨[m], ⟨[m'], rfl⟩, ?_⟩
    simpa [messagesFrom, hid₁] using hwire₁
  have hboth : DeliversPrefix 1 [m, m'] [m₁, m₂] := by
    refine ⟨[m, m'], List.prefix_rfl, ?_⟩
    simpa [messagesFrom, hid₁, hid₂] using ⟨hwire₁, hwire₂⟩
  obtain ⟨⟨_, hcheck₁⟩, _⟩ := hreceive _ [] _ m₁ rfl hstart hid₁ hfirst
  obtain ⟨rc, evs, hrecv⟩ := exists_recvMessage hcheck₁
  have hreceived : Receiving (Node.new 2 4 1 false numberedDraws keptRead) [m₁] rc :=
    hstart.message hrecv
  obtain ⟨⟨rc', hcheck₂⟩, _⟩ := hreceive _ [m₁] rc m₂ rfl hreceived hid₂ hboth
  refine ⟨_, nd₂, m₁, m₂, rc, rc', h₂, rfl, hfresh ?_, ?_, hreceived, hcheck₂⟩
  · rw [hdrawn]
    exact numberedDraws_injOn
  · exact .cons hwire₁ (.cons hwire₂ .nil)

end CosiCoin
