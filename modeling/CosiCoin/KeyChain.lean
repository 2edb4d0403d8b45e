import CosiCoin.BrachaNodeSteps

/-!
# COSICOIN: the chain of one-time keys

Every message of a node is signed with the key announced by its previous
message and announces the next one.  `SentChain id key msgs key'` says that
`msgs` are consecutive messages of validator `id`, the first one verifying under
`key` and the last one announcing `key'`.  A receiver that processes the messages
of a sender in order, starting with no key or with the key in front of the
chain, accepts all of them (`acceptsAll_of_pending`), whatever other validators'
messages stand between them.
-/

namespace CosiCoin

open Node

section Chains

variable [Platform]

/-- Consecutive messages of a validator, from one key to the next. -/
def SentChain (id : UInt16) : SigKey → List Message → SigKey → Prop
  | key, [], key' => key = key'
  | key, m :: rest, key' =>
      m.block.validatorId = id ∧ m.block.ValidUnder key ∧
        SentChain id m.block.validatorNextPublicKey rest key'

/-- A chain of messages that fits the key a receiver has stored, if any. -/
def Pending (id : UInt16) (known : Option SigKey) (msgs : List Message) (key' : SigKey) : Prop :=
  ∃ key, SentChain id key msgs key' ∧ ∀ k, known = some k → k = key

theorem SentChain.append
    {id : UInt16} {msgs msgs' : List Message} {key' key'' : SigKey} :
    ∀ {key : SigKey}, SentChain id key msgs key' → SentChain id key' msgs' key'' →
      SentChain id key (msgs ++ msgs') key'' := by
  induction msgs with
  | nil =>
      intro key h h'
      have hkey : key = key' := h
      subst hkey
      exact h'
  | cons m msgs ih =>
      intro key h h'
      exact ⟨h.1, h.2.1, ih h.2.2 h'⟩

theorem Pending.append
    {id : UInt16} {known : Option SigKey} {msgs msgs' : List Message} {key' key'' : SigKey}
    (h : Pending id known msgs key')
    (h' : SentChain id key' msgs' key'') :
    Pending id known (msgs ++ msgs') key'' := by
  obtain ⟨key, hchain, hknown⟩ := h
  exact ⟨key, hchain.append h', hknown⟩

/-- The first pending message verifies and announces the key for the others. -/
theorem Pending.head
    {id : UInt16} {known : Option SigKey} {m : Message} {msgs : List Message} {key' : SigKey}
    (h : Pending id known (m :: msgs) key') :
    (∀ k, known = some k → m.block.ValidUnder k) ∧ m.block.validatorId = id ∧
      Pending id (some m.block.validatorNextPublicKey) msgs key' := by
  obtain ⟨key, ⟨hid, hvalid, hrest⟩, hknown⟩ := h
  refine ⟨?_, hid, m.block.validatorNextPublicKey, hrest, ?_⟩
  · intro k hk
    rw [hknown k hk]
    exact hvalid
  · intro k hk
    exact (Option.some.inj hk).symm

/-- A message may be replaced by one with the same signer, signature and next key. -/
theorem SentChain.replace
    {id : UInt16} {m m' : Message} {msgs' : List Message} {key' : SigKey}
    (hid : m'.block.validatorId = m.block.validatorId)
    (hnext : m'.block.validatorNextPublicKey = m.block.validatorNextPublicKey)
    (hvalid : ∀ key, m.block.ValidUnder key → m'.block.ValidUnder key)
    {msgs : List Message} :
    ∀ {key : SigKey}, SentChain id key (msgs ++ m :: msgs') key' →
      SentChain id key (msgs ++ m' :: msgs') key' := by
  induction msgs with
  | nil =>
      rintro key ⟨hid', hvalid', hrest⟩
      refine ⟨hid.trans hid', hvalid key hvalid', ?_⟩
      rw [hnext]
      exact hrest
  | cons x msgs ih =>
      rintro key ⟨hid', hvalid', hrest⟩
      exact ⟨hid', hvalid', ih hrest⟩

/-- The receiver's check passes for each message in turn. -/
def AcceptsAll : AList (fun _ : UInt16 => SigKey) → List Message → Prop
  | _, [] => True
  | keys, m :: rest =>
      (∀ k, keys.lookup m.block.validatorId = some k → m.block.ValidUnder k) ∧
        AcceptsAll (keys.insert m.block.validatorId m.block.validatorNextPublicKey) rest

/-- The keys a receiver stores after some messages. -/
def keysAfter : AList (fun _ : UInt16 => SigKey) → List Message →
    AList (fun _ : UInt16 => SigKey)
  | keys, [] => keys
  | keys, m :: rest =>
      keysAfter (keys.insert m.block.validatorId m.block.validatorNextPublicKey) rest

/-- The messages of one validator in a batch. -/
def messagesFrom (id : UInt16) (msgs : List Message) : List Message :=
  msgs.filter fun m => m.block.validatorId = id

/--
Messages that are pending for each of their senders are all accepted, and what
follows them stays pending.
-/
theorem acceptsAll_of_pending
    {S : Finset UInt16} (after : UInt16 → List Message) (key : UInt16 → SigKey)
    {msgs : List Message} :
    ∀ {keys : AList (fun _ : UInt16 => SigKey)},
      (∀ m ∈ msgs, m.block.validatorId ∈ S) →
      (∀ i ∈ S, Pending i (keys.lookup i) (messagesFrom i msgs ++ after i) (key i)) →
      AcceptsAll keys msgs ∧
        ∀ i ∈ S, Pending i ((keysAfter keys msgs).lookup i) (after i) (key i) := by
  induction msgs with
  | nil =>
      intro keys _ h
      exact ⟨trivial, h⟩
  | cons m msgs ih =>
      intro keys hS h
      obtain ⟨hm, hS'⟩ := List.forall_mem_cons.mp hS
      have hfirst := h m.block.validatorId hm
      have hcons : messagesFrom m.block.validatorId (m :: msgs) =
          m :: messagesFrom m.block.validatorId msgs := by
        simp [messagesFrom]
      rw [hcons, List.cons_append] at hfirst
      obtain ⟨hvalid, _, hrest⟩ := hfirst.head
      have hpending : ∀ i ∈ S, Pending i
          ((keys.insert m.block.validatorId m.block.validatorNextPublicKey).lookup i)
          (messagesFrom i msgs ++ after i) (key i) := by
        intro i hi
        by_cases him : i = m.block.validatorId
        · subst him
          rw [AList.lookup_insert]
          exact hrest
        · rw [AList.lookup_insert_ne him]
          have hskip : messagesFrom i (m :: msgs) = messagesFrom i msgs := by
            simp [messagesFrom, Ne.symm him]
          rw [← hskip]
          exact h i hi
      obtain ⟨hacc, hafter⟩ := ih hS' hpending
      exact ⟨⟨hvalid, hacc⟩, hafter⟩

end Chains

section Signing

variable [P : Platform] [LawfulPlatform P]

/-- A node with a proper key pair can broadcast every immutable block. -/
theorem exists_broadcastMessage
    {nd : Node} {block : Block}
    (hkey : nd.myNextKeyPair.WellFormed)
    (hmut : block.isMutable = false)
    (type : MsgType) (round : UInt32) :
    ∃ m, nd.broadcastMessage type block round = .ok (nd.rotateKeys, [.broadcast m]) := by
  obtain ⟨text, htext⟩ := sigKeyToString_keyGen (nd.urandom nd.drawn)
  obtain ⟨signed, hsigned⟩ := Block.exists_sign_eq_ok hmut htext
    nd.myNextKeyPair.privateKey nd.id
  obtain ⟨hvalid, _, digest, hdigest⟩ := Block.validUnder_of_sign hkey hsigned
  have hassert : verify digest signed.validatorSig nd.myNextKeyPair.publicKey ≠ 0 := by
    rw [(Block.validUnder_iff hdigest).mp hvalid]
    decide
  have hsign : nd.signBlock block = .ok (signed, nd.rotateKeys) := by
    have hsigned' : block.sign nd.rotateKeys.myCurrentPrivateKey nd.rotateKeys.id
        nd.rotateKeys.myNextKeyPair.publicKey = .ok signed := hsigned
    have hassert' : verify digest signed.validatorSig nd.rotateKeys.myCurrentPublicKey ≠ 0 :=
      hassert
    simp [signBlock, hsigned', hdigest, hassert', bind, Except.bind, pure, Except.pure]
  refine ⟨⟨type, signed, nd.rotateKeys.id.toUInt64, round⟩, ?_⟩
  simp [broadcastMessage, hsign, bind, Except.bind, pure, Except.pure]

/-- A node with a proper key pair can propose every immutable block. -/
theorem exists_propose
    (nd : Node) {b : Block}
    (hkey : nd.myNextKeyPair.WellFormed)
    (hmut : b.isMutable = false) :
    ∃ m, nd.propose b = .ok (nd.rotateKeys, [.proposed b, .broadcast m]) := by
  obtain ⟨m, hm⟩ := exists_broadcastMessage hkey hmut .send 0
  exact ⟨m, by simp [Node.propose, hm, bind, Except.bind, pure, Except.pure]⟩

/-- A signed message is the next link of its node's chain. -/
theorem Signs.chain
    {nd : Node} {type : MsgType} {block : Block} {round : UInt32} {m : Message}
    (hkey : nd.myNextKeyPair.WellFormed)
    (h : nd.Signs type block round m) :
    SentChain nd.id nd.myNextKeyPair.publicKey [m] nd.rotateKeys.myNextKeyPair.publicKey ∧
      ∃ text, sigKeyToString m.block.validatorNextPublicKey = .ok text := by
  obtain ⟨_, digest, rfl, hdigest⟩ := h
  refine ⟨⟨rfl, (Block.validUnder_iff hdigest).mpr (verify_sign hkey digest), rfl⟩, ?_⟩
  exact sigKeyToString_keyGen (nd.urandom nd.drawn)

end Signing

end CosiCoin
