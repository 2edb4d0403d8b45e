import CosiCoin.BrachaNode
import CosiCoin.ReferencePlatform

/-!
# COSICOIN: impersonation of a validator

`checkBlockSig` verifies a block under the key stored for its validator and then
stores the next key the block carries, also when the verification failed.  One
rejected message therefore replaces the key of the validator it names: a second
message that fits the key of the first one is accepted, and the genuine
validator is locked out.

`noImpersonation_iff` says exactly when a sequence of forged messages has no
effect: no message after the first may verify under the key announced by its
predecessor with a block that passes verification, and the genuine message must
verify under the key announced last.
-/

namespace CosiCoin

open Node

section Forgeries

/-- The key stored after the messages. -/
def lastKey : SigKey → List Message → SigKey
  | key, [] => key
  | _, m :: rest => lastKey m.block.validatorNextPublicKey rest

theorem lastKey_eq
    (msgs : List Message) :
    ∀ key : SigKey, lastKey key msgs =
      (msgs.getLast?.map fun m => m.block.validatorNextPublicKey).getD key := by
  induction msgs with
  | nil =>
      intro key
      rfl
  | cons m msgs ih =>
      intro key
      rw [lastKey, ih]
      cases msgs with
      | nil => rfl
      | cons m' msgs => simp [List.getLast?_cons]

variable [Platform]

/-- Messages in the name of `v` none of which verifies under `K`. -/
def ForgedFor (v : UInt16) (K : SigKey) (msgs : List Message) : Prop :=
  ∀ m ∈ msgs, m.block.validatorId = v ∧ m.block.verifySignature K = .ok false

/-- A message that verifies under `key` and whose block passes verification. -/
def AcceptedUnder (passes : Block → Bool) (key : SigKey) (m : Message) : Prop :=
  m.block.ValidUnder key ∧ passes m.block = true

/--
The messages change no counter, no saved block and no `SEND` of the round, and
the block `genuine` is accepted after them.
-/
def Node.NoImpersonation (nd : Node) (msgs : List Message) (genuine : Block) : Prop :=
  ∃ nd', nd.updateRecvMessages msgs = .ok (nd', []) ∧
    nd'.echoThisRound = nd.echoThisRound ∧ nd'.readyThisRound = nd.readyThisRound ∧
    nd'.blocks = nd.blocks ∧ nd'.sendThisRound = [] ∧
    ∃ nd'', nd'.checkBlockSig genuine = .ok (true, nd'')

/-- No message is accepted under the key stored when it is received. -/
def RejectsFrom (passes : Block → Bool) : SigKey → List Message → Prop
  | _, [] => True
  | key, m :: rest =>
      ¬ AcceptedUnder passes key m ∧
        RejectsFrom passes m.block.validatorNextPublicKey rest

/-- The check under a stored key, and the key it leaves. -/
theorem checkBlockSig_of_lookup
    {nd : Node} {b : Block} {digest : Str} {key : SigKey}
    (hdigest : b.getDigest = .ok digest)
    (hkey : nd.valSigKeys.lookup b.validatorId = some key) :
    nd.checkBlockSig b = .ok (verify digest b.validatorSig key == 1,
      { nd with
        valSigKeys := nd.valSigKeys.insert b.validatorId b.validatorNextPublicKey }) := by
  simp [checkBlockSig, hdigest, hkey, bind, Except.bind, pure, Except.pure]

/-- One message under a stored key. -/
theorem recvMessage_of_lookup
    {nd : Node} {m : Message} {digest : Str} {key : SigKey}
    (hdigest : m.block.getDigest = .ok digest)
    (hkey : nd.valSigKeys.lookup m.block.validatorId = some key) :
    (¬ AcceptedUnder nd.passesVerify key m ∧
      nd.recvMessage m = .ok ({ nd with
        valSigKeys := nd.valSigKeys.insert m.block.validatorId m.block.validatorNextPublicKey },
        [])) ∨
    (AcceptedUnder nd.passesVerify key m ∧ ∃ nd', nd.recvMessage m = .ok (nd', [.counted m])) := by
  have hpass : ∀ keys, Node.passesVerify { nd with valSigKeys := keys } m.block =
      nd.passesVerify m.block := fun _ => rfl
  unfold recvMessage
  rw [checkBlockSig_of_lookup hdigest hkey]
  simp only [bind, Except.bind, pure, Except.pure, AcceptedUnder, Block.validUnder_iff hdigest, hpass]
  by_cases hvalid : verify digest m.block.validatorSig key = 1
  · by_cases hverify : nd.passesVerify m.block = true
    · right
      refine ⟨⟨hvalid, hverify⟩, ?_⟩
      simp [hvalid, hverify]
    · left
      refine ⟨fun h => hverify h.2, ?_⟩
      simp [hvalid, hverify]
  · left
    refine ⟨fun h => hvalid h.1, ?_⟩
    simp [hvalid]

/-- What forged messages leave behind when none of them is accepted. -/
theorem recvMessages_of_rejectsFrom
    {v : UInt16} {msgs : List Message} :
    ∀ (nd : Node) {key : SigKey}, nd.valSigKeys.lookup v = some key →
      (∀ m ∈ msgs, m.block.validatorId = v ∧ ∃ digest, m.block.getDigest = .ok digest) →
      RejectsFrom nd.passesVerify key msgs →
      ∃ keys, recvMessages msgs nd = .ok ({ nd with valSigKeys := keys }, []) ∧
        keys.lookup v = some (lastKey key msgs) := by
  induction msgs with
  | nil =>
      intro nd key hkey _ _
      exact ⟨nd.valSigKeys, rfl, hkey⟩
  | cons m msgs ih =>
      intro nd key hkey hmsgs hrej
      obtain ⟨⟨hv, digest, hdigest⟩, hrest⟩ := List.forall_mem_cons.mp hmsgs
      obtain ⟨hfirst, hrej⟩ := hrej
      rw [← hv] at hkey
      rcases recvMessage_of_lookup hdigest hkey with ⟨_, hrecv⟩ | ⟨hacc, _⟩
      · have hkey' : (nd.valSigKeys.insert m.block.validatorId
            m.block.validatorNextPublicKey).lookup v = some m.block.validatorNextPublicKey := by
          rw [hv]
          exact AList.lookup_insert _
        obtain ⟨keys, hloop, hlast⟩ := ih { nd with
          valSigKeys := nd.valSigKeys.insert m.block.validatorId m.block.validatorNextPublicKey }
          hkey' hrest hrej
        refine ⟨keys, ?_, hlast⟩
        simp [recvMessages, hrecv, hloop, bind, Except.bind, pure, Except.pure]
      · exact absurd hacc hfirst

/-- If nothing is counted then nothing was accepted. -/
theorem rejectsFrom_of_recvMessages
    {v : UInt16} {msgs : List Message} :
    ∀ (nd : Node) {nd' : Node} {key : SigKey}, nd.valSigKeys.lookup v = some key →
      (∀ m ∈ msgs, m.block.validatorId = v ∧ ∃ digest, m.block.getDigest = .ok digest) →
      recvMessages msgs nd = .ok (nd', []) →
      RejectsFrom nd.passesVerify key msgs := by
  induction msgs with
  | nil =>
      intro nd nd' key _ _ _
      trivial
  | cons m msgs ih =>
      intro nd nd' key hkey hmsgs h
      obtain ⟨⟨hv, digest, hdigest⟩, hrest⟩ := List.forall_mem_cons.mp hmsgs
      rw [← hv] at hkey
      obtain ⟨⟨nd₁, ev₁⟩, hone, h⟩ := bind_eq_ok h
      obtain ⟨⟨nd₂, ev₂⟩, hloop, h⟩ := bind_eq_ok h
      obtain ⟨rfl, hev⟩ := Prod.mk.inj (Except.ok.inj h)
      obtain ⟨rfl, rfl⟩ := List.append_eq_nil_iff.mp hev
      rcases recvMessage_of_lookup hdigest hkey with ⟨hrej, hrecv⟩ | ⟨_, nd'', hrecv⟩
      · obtain ⟨rfl, _⟩ := Prod.mk.inj (Except.ok.inj (hone.symm.trans hrecv))
        refine ⟨hrej, ?_⟩
        have hkey' : (nd.valSigKeys.insert m.block.validatorId
            m.block.validatorNextPublicKey).lookup v = some m.block.validatorNextPublicKey := by
          rw [hv]
          exact AList.lookup_insert _
        exact ih { nd with
          valSigKeys := nd.valSigKeys.insert m.block.validatorId m.block.validatorNextPublicKey }
          hkey' hrest hloop
      · have hev := (Prod.mk.inj (Except.ok.inj (hone.symm.trans hrecv))).2
        cases hev

theorem rejectsFrom_next_iff
    {passes : Block → Bool} {msgs : List Message} :
    ∀ {m : Message}, RejectsFrom passes m.block.validatorNextPublicKey msgs ↔
      (m :: msgs).IsChain fun m m' =>
        ¬ AcceptedUnder passes m.block.validatorNextPublicKey m' := by
  induction msgs with
  | nil =>
      intro m
      simp [RejectsFrom]
  | cons m' msgs ih =>
      intro m
      rw [RejectsFrom, List.isChain_cons_cons, ih]

/-- The first message is rejected under the stored key, so only the later ones matter. -/
theorem rejectsFrom_iff_isChain
    {passes : Block → Bool} {key : SigKey} {msgs : List Message}
    (hfirst : ∀ m ∈ msgs, ¬ m.block.ValidUnder key) :
    RejectsFrom passes key msgs ↔
      msgs.IsChain fun m m' => ¬ AcceptedUnder passes m.block.validatorNextPublicKey m' := by
  cases msgs with
  | nil =>
      simp [RejectsFrom]
  | cons m msgs =>
      rw [RejectsFrom, rejectsFrom_next_iff]
      constructor
      · intro h
        exact h.2
      · intro h
        exact ⟨fun hacc => hfirst m (by simp) hacc.1, h⟩

theorem validUnder_lastKey_iff
    {genuine : Block} {key : SigKey} {msgs : List Message}
    (h : genuine.ValidUnder key) :
    genuine.ValidUnder (lastKey key msgs) ↔
      ∀ m ∈ msgs.getLast?, genuine.ValidUnder m.block.validatorNextPublicKey := by
  rw [lastKey_eq]
  cases msgs.getLast? with
  | none => simpa using h
  | some m => simp

/-- Forged messages have no effect when none is accepted and the genuine key survives. -/
theorem noImpersonation_iff_rejectsFrom
    {nd : Node} {v : UInt16} {pair : Signature} {msgs : List Message} {b genuine : Block}
    {next : SigKey}
    (hpair : pair.WellFormed)
    (hkey : nd.valSigKeys.lookup v = some pair.publicKey)
    (hforged : ForgedFor v pair.publicKey msgs)
    (hsign : b.sign pair.privateKey v next = .ok genuine) :
    nd.NoImpersonation msgs genuine ↔
      RejectsFrom nd.passesVerify pair.publicKey msgs ∧
      genuine.ValidUnder (lastKey pair.publicKey msgs) := by
  obtain ⟨_, hid, digest, hdigest⟩ := Block.validUnder_of_sign hpair hsign
  have hmsgs : ∀ m ∈ msgs, m.block.validatorId = v ∧ ∃ d, m.block.getDigest = .ok d := by
    intro m hm
    refine ⟨(hforged m hm).1, ?_⟩
    have hverify := (hforged m hm).2
    unfold Block.verifySignature at hverify
    cases hd : m.block.getDigest with
    | error e =>
        rw [hd] at hverify
        cases hverify
    | ok d =>
        exact ⟨d, rfl⟩
  constructor
  · rintro ⟨nd', hrecv, _, _, _, _, nd'', hcheck⟩
    have hrej := rejectsFrom_of_recvMessages { nd with sendThisRound := [] } hkey hmsgs hrecv
    refine ⟨hrej, ?_⟩
    obtain ⟨keys, hrecv', hlast⟩ := recvMessages_of_rejectsFrom
      { nd with sendThisRound := [] } hkey hmsgs hrej
    obtain ⟨rfl, _⟩ := Prod.mk.inj (Except.ok.inj (hrecv.symm.trans hrecv'))
    rw [checkBlockSig_of_lookup hdigest (by rw [hid]; exact hlast)] at hcheck
    have htrue := (Prod.mk.inj (Except.ok.inj hcheck)).1
    exact (Block.validUnder_iff hdigest).mpr (by simpa using htrue)
  · rintro ⟨hrej, hlastValid⟩
    obtain ⟨keys, hrecv, hlast⟩ := recvMessages_of_rejectsFrom
      { nd with sendThisRound := [] } hkey hmsgs hrej
    refine ⟨_, hrecv, rfl, rfl, rfl, rfl, ?_⟩
    rw [checkBlockSig_of_lookup hdigest (by rw [hid]; exact hlast)]
    simp [(Block.validUnder_iff hdigest).mp hlastValid]

/--
A sequence of forged messages in the name of `v` has no effect exactly when no
message is accepted under the key its predecessor announced and the genuine
block of `v` verifies under the key announced last.
-/
theorem noImpersonation_iff
    (nd : Node) (v : UInt16) (pair : Signature) (msgs : List Message)
    (b genuine : Block) (next : SigKey)
    (hpair : pair.WellFormed)
    (hkey : nd.valSigKeys.lookup v = some pair.publicKey)
    (hforged : ForgedFor v pair.publicKey msgs)
    (hsign : b.sign pair.privateKey v next = .ok genuine) :
    nd.NoImpersonation msgs genuine ↔
      (msgs.IsChain fun m m' =>
        ¬ AcceptedUnder nd.passesVerify m.block.validatorNextPublicKey m') ∧
      ∀ m ∈ msgs.getLast?, genuine.ValidUnder m.block.validatorNextPublicKey := by
  have hvalid := (Block.validUnder_of_sign hpair hsign).1
  have hfirst : ∀ m ∈ msgs, ¬ m.block.ValidUnder pair.publicKey := by
    intro m hm h
    have := (hforged m hm).2.symm.trans h
    cases this
  rw [noImpersonation_iff_rejectsFrom hpair hkey hforged hsign,
    rejectsFrom_iff_isChain hfirst, validUnder_lastKey_iff hvalid]

end Forgeries

section LockedOut

variable [Platform]

/-- A node that knows the key of secret bytes 1 for validator 7. -/
def nodeKnowingSeven : Node where
  id := 0
  n := 4
  f := 1
  myNextKeyPair := {}
  valSigKeys := AList.singleton 7 (uniformKey 1).publicKey
  urandom := fun _ _ => ([], [])
  erasedRead := keptRead

/-- A message in the name of validator 7 without a signature. -/
def unsignedMessage (next : SigKey) : Message where
  type := .ready
  block := { validatorId := 7, validatorNextPublicKey := next, isMutable := false }
  senderId := 7
  round := 2

theorem unsignedMessage_forged
    {next K : SigKey} {text : Str}
    (hnext : sigKeyToString next = .ok text) :
    ForgedFor 7 K [unsignedMessage next] := by
  intro m hm
  rw [List.mem_singleton.mp hm]
  refine ⟨rfl, ?_⟩
  have hdigest : ∃ digest, (unsignedMessage next).block.getDigest = .ok digest := by
    simp only [unsignedMessage, Block.getDigest, Bool.false_eq_true, if_false, hnext]
    split_ifs
    · exact ⟨_, rfl⟩
    · exact ⟨_, rfl⟩
  obtain ⟨digest, hdigest⟩ := hdigest
  have hlen : ¬ (K.FullLength ∧ (unsignedMessage next).block.validatorSig.length = keyLen) := by
    simp [unsignedMessage, keyLen]
  simp [Block.verifySignature, hdigest, Except.map, verify, hlen]

theorem not_validUnder_uniformKey
    {b signed : Block} {v : UInt16} {next : SigKey} {k k' : UInt8}
    (hne : hash (equalBytes k) ≠ hash (equalBytes k'))
    (hsign : b.sign (uniformKey k').privateKey v next = .ok signed) :
    ¬ signed.ValidUnder (uniformKey k).publicKey := by
  obtain ⟨_, digest, hdigest, heq⟩ := Block.sign_eq_ok hsign
  rw [Block.validUnder_iff hdigest, heq]
  exact verify_sign_uniformKey_ne digest hne

end LockedOut

/--
One unsigned message that announces the key of secret bytes 2 in the name of validator
7 locks out the genuine validator, which signs with the key of secret bytes 1.
-/
theorem unsigned_message_locks_out :
    letI := referencePlatform
    ∃ genuine : Block,
      ForgedFor 7 (uniformKey 1).publicKey [unsignedMessage (uniformKey 2).publicKey] ∧
      Block.sign { isMutable := false } (uniformKey 1).privateKey 7
        (uniformKey 3).publicKey = .ok genuine ∧
      ¬ nodeKnowingSeven.NoImpersonation [unsignedMessage (uniformKey 2).publicKey] genuine := by
  let _ := referencePlatform
  obtain ⟨text₂, h₂⟩ := sigKeyToString_keyGen (P := referencePlatform) fun _ => (equalBytes 2, equalBytes 2)
  obtain ⟨text₃, h₃⟩ := sigKeyToString_keyGen (P := referencePlatform) fun _ => (equalBytes 3, equalBytes 3)
  obtain ⟨genuine, hsign⟩ := Block.exists_sign_eq_ok (b := { isMutable := false }) rfl h₃
    (uniformKey 1).privateKey 7
  refine ⟨genuine, unsignedMessage_forged h₂, hsign, ?_⟩
  intro hsafe
  have hcond := (noImpersonation_iff_rejectsFrom (uniformKey_wellFormed 1) rfl
    (unsignedMessage_forged h₂) hsign).mp hsafe
  have hne : hash (equalBytes 2) ≠ hash (equalBytes 1) := by
    show Sha256.digest (equalBytes 2) ≠ Sha256.digest (equalBytes 1)
    decide +kernel
  exact not_validUnder_uniformKey hne hsign hcond.2

/-- A forged message that announces the stored key itself does no harm. -/
theorem harmless_forgery :
    letI := referencePlatform
    ∃ genuine : Block,
      Block.sign { isMutable := false } (uniformKey 1).privateKey 7
        (uniformKey 3).publicKey = .ok genuine ∧
      nodeKnowingSeven.NoImpersonation [unsignedMessage (uniformKey 1).publicKey] genuine := by
  let _ := referencePlatform
  obtain ⟨text₁, h₁⟩ := sigKeyToString_keyGen (P := referencePlatform) fun _ => (equalBytes 1, equalBytes 1)
  obtain ⟨text₃, h₃⟩ := sigKeyToString_keyGen (P := referencePlatform) fun _ => (equalBytes 3, equalBytes 3)
  obtain ⟨genuine, hsign⟩ := Block.exists_sign_eq_ok (b := { isMutable := false }) rfl h₃
    (uniformKey 1).privateKey 7
  refine ⟨genuine, hsign, ?_⟩
  refine (noImpersonation_iff nodeKnowingSeven 7 (uniformKey 1) _ _ genuine _
    (uniformKey_wellFormed 1) rfl (unsignedMessage_forged h₁) hsign).mpr ⟨?_, ?_⟩
  · exact List.IsChain.singleton _
  · intro m hm
    obtain rfl := Option.some.inj hm
    exact (Block.validUnder_of_sign (uniformKey_wellFormed 1) hsign).1

end CosiCoin
