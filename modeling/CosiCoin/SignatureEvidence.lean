import CosiCoin.KeyChainRuns
import CosiCoin.LabelledRuns
import CosiCoin.VoteStuffing

/-!
# COSICOIN: the signatures saved as evidence

A counted message leaves a `BlockSignature` in the saved block: the signature of
the message, and the key read from `val_sig_keys_` at that moment.
`checkBlockSig` has rotated the map by then, so the saved key is the one the
message announces and not the one its signature was checked with.

A saved signature verifies under the saved key exactly when the announced key has
the same strings as the checked one at the positions that the digest selects.
-/

namespace CosiCoin

open Node LabelledRuns

section Steps

/-- A saved signature, with the message it came from. -/
structure Evidence where
  message : Message
  keyKnown : Bool
  sig : BlockSignature

/-- A node with the signatures that `updateRecvMessages` has saved so far. -/
structure EvidenceState where
  node : Node
  evidence : List Evidence := []

/-- What a node does: one round of `updateRecvMessages`, or anything else. -/
inductive EvidenceAction where
  | receive (m : Message)
  | other

variable [Platform]

/-- The saved block of the message has got one more signature. -/
def AddsSignature (nd nd' : Node) (m : Message) (sig : BlockSignature) : Prop :=
  nd'.blocks.lookup m.block.header.getID =
    some (((nd.blocks.lookup m.block.header.getID).getD m.block).addValidatorSignature sig)

/-- The steps of a node; nothing but a counted message touches the saved signatures. -/
inductive EvidenceStep : EvidenceState → EvidenceAction → EvidenceState → Prop
  | counted
      {nd nd' : Node} {evidence : List Evidence} {m : Message} {sig : BlockSignature}
      (h : nd.recvMessage m = .ok (nd', [.counted m]))
      (hsig : AddsSignature nd nd' m sig) :
      EvidenceStep ⟨nd, evidence⟩ (.receive m)
        ⟨nd', evidence ++
          [⟨m, (nd.valSigKeys.lookup m.block.validatorId).isSome, sig⟩]⟩
  | skipped
      {nd nd' : Node} {evidence : List Evidence} {m : Message}
      (h : nd.recvMessage m = .ok (nd', [])) :
      EvidenceStep ⟨nd, evidence⟩ (.receive m) ⟨nd', evidence⟩
  | other
      {nd nd' : Node} {evidence : List Evidence}
      (hkeys : nd'.valSigKeys = nd.valSigKeys)
      (hsigs : ∀ h, ((nd'.blocks.lookup h).getD {}).validatorSigs =
        ((nd.blocks.lookup h).getD {}).validatorSigs) :
      EvidenceStep ⟨nd, evidence⟩ .other ⟨nd', evidence⟩

/-- A node that has just been built. -/
def EvidenceInit (s : EvidenceState) : Prop :=
  ∃ id n f isLead urandom erasedRead, s = { node := Node.new id n f isLead urandom erasedRead }

/-- The saved signature verifies under the saved key. -/
def Evidence.Verifies (e : Evidence) : Prop :=
  ∃ digest, e.message.block.getDigest = .ok digest ∧
    verify digest e.sig.signature e.sig.publicKey = 1

/-- What was saved from validators whose key was known verifies. -/
def EvidenceVerifies (s : EvidenceState) : Prop :=
  ∀ e ∈ s.evidence, e.keyKnown = true → e.Verifies

/-- The keys have the same strings at the positions that the digest selects. -/
def AgreesAt (digest : Str) (key key' : SigKey) : Prop :=
  key'.FullLength ∧ ∀ i < keyLen,
    key'.entry (stringToBitset (crop digest) i) i = key.entry (stringToBitset (crop digest) i) i

/--
The condition on a step: a message that is counted under a stored key announces a
key that agrees with the stored one.
-/
def AnnouncesAgreeing (s : EvidenceState) : EvidenceAction → Prop
  | .receive m => ∀ digest key, m.block.getDigest = .ok digest →
      s.node.valSigKeys.lookup m.block.validatorId = some key →
      verify digest m.block.validatorSig key = 1 → s.node.passesVerify m.block = true →
      AgreesAt digest key m.block.validatorNextPublicKey
  | .other => True

end Steps

section Counted

variable [Platform]

/-- A signature that verifies under one key verifies under those that agree with it. -/
theorem verify_iff_agreesAt
    {digest : Str} {sig : List Str} {key key' : SigKey}
    (h : verify digest sig key = 1) :
    verify digest sig key' = 1 ↔ AgreesAt digest key key' := by
  have hlen := length_of_verify h
  constructor
  · intro h'
    refine ⟨(length_of_verify h').1, ?_⟩
    intro i hi
    rw [entry_eq_hash_of_verify h hi, entry_eq_hash_of_verify h' hi]
  · rintro ⟨hfull, hentry⟩
    unfold verify
    rw [if_pos ⟨hfull, hlen.2⟩, if_pos]
    rw [List.all_eq_true]
    intro i hi
    have hi' := List.mem_range.mp hi
    rw [beq_iff_eq, hentry i hi', entry_eq_hash_of_verify h hi']

/-- What counting a message does to the saved block. -/
theorem lookup_blocks_countMessage
    (nd : Node) (m : Message) :
    (nd.countMessage m).blocks.lookup m.block.header.getID =
      some (((nd.blocks.lookup m.block.header.getID).getD m.block).addValidatorSignature
        { signature := m.block.validatorSig
          publicKey := (nd.valSigKeys.lookup m.block.validatorId).getD {}
          validatorId := m.block.validatorId
          round := m.round.toUInt16 }) := by
  rw [countMessage_eq]
  exact AList.lookup_insert _

/-- The signature of a message with the key it announces. -/
def Message.announcedSignature (m : Message) : BlockSignature where
  signature := m.block.validatorSig
  publicKey := m.block.validatorNextPublicKey
  validatorId := m.block.validatorId
  round := m.round.toUInt16

/-- A counted message saves its signature with the key it announces. -/
theorem addsSignature_iff
    {nd nd' : Node} {m : Message} {sig : BlockSignature}
    (h : nd.recvMessage m = .ok (nd', [.counted m])) :
    AddsSignature nd nd' m sig ↔ sig = m.announcedSignature := by
  obtain ⟨_, _, _, _, _, _, rfl, ⟨_, hevs, _⟩ | ⟨_, _, _, rfl⟩⟩ := recvMessage_eq_ok h
  · cases hevs
  · unfold AddsSignature
    rw [lookup_blocks_countMessage]
    dsimp only
    rw [AList.lookup_insert, Option.some.injEq, Block.addValidatorSignature,
      Block.addValidatorSignature, Block.mk.injEq]
    simp [eq_comm, Message.announcedSignature]

/-- What has been checked of a counted message. -/
theorem checked_of_counted
    {nd nd' : Node} {m : Message}
    (h : nd.recvMessage m = .ok (nd', [.counted m])) :
    nd.passesVerify m.block = true ∧
    ∃ digest, m.block.getDigest = .ok digest ∧
      ∀ key, nd.valSigKeys.lookup m.block.validatorId = some key →
        verify digest m.block.validatorSig key = 1 := by
  obtain ⟨digest, _, _, hdigest, _, hvalid, _, ⟨_, hevs, _⟩ | ⟨htrue, hpass, _, _⟩⟩ :=
    recvMessage_eq_ok h
  · cases hevs
  · exact ⟨hpass, digest, hdigest, hvalid.mp htrue⟩

/-- What a counted message saves verifies exactly under the condition. -/
theorem verifies_iff_announcesAgreeing
    {nd nd' : Node} {evidence : List Evidence} {m : Message} {sig : BlockSignature}
    (h : nd.recvMessage m = .ok (nd', [.counted m]))
    (hsig : AddsSignature nd nd' m sig) :
    ((nd.valSigKeys.lookup m.block.validatorId).isSome = true →
      Evidence.Verifies ⟨m, (nd.valSigKeys.lookup m.block.validatorId).isSome, sig⟩) ↔
      AnnouncesAgreeing ⟨nd, evidence⟩ (.receive m) := by
  obtain ⟨hpass, digest, hdigest, hchecked⟩ := checked_of_counted h
  obtain rfl := (addsSignature_iff h).mp hsig
  constructor
  · intro hverifies digest' key hdigest' hkey hvalid _
    obtain ⟨digest'', hdigest'', hverify⟩ := hverifies (by rw [hkey]; rfl)
    obtain rfl := Except.ok.inj (hdigest'.symm.trans hdigest'')
    exact (verify_iff_agreesAt hvalid).mp hverify
  · intro hagrees hknown
    obtain ⟨key, hkey⟩ := Option.isSome_iff_exists.mp hknown
    have hvalid := hchecked key hkey
    exact ⟨digest, hdigest,
      (verify_iff_agreesAt hvalid).mpr (hagrees digest key hdigest hkey hvalid hpass)⟩

/-- A message that is not counted meets the condition. -/
theorem announcesAgreeing_of_skipped
    {nd nd' : Node} {evidence : List Evidence} {m : Message}
    (h : nd.recvMessage m = .ok (nd', [])) :
    AnnouncesAgreeing ⟨nd, evidence⟩ (.receive m) := by
  intro digest key hdigest hkey hverify hpass
  obtain ⟨digest', _, _, hdigest', _, hvalid, _, ⟨hnot, _⟩ | ⟨_, _, hevs, _⟩⟩ :=
    recvMessage_eq_ok h
  · obtain rfl := Except.ok.inj (hdigest.symm.trans hdigest')
    refine absurd ⟨hvalid.mpr ?_, hpass⟩ hnot
    intro key' hkey'
    obtain rfl := Option.some.inj (hkey.symm.trans hkey')
    exact hverify
  · cases hevs

end Counted

section Runs

variable [Platform]

theorem evidenceVerifies_append
    {nd nd' : Node} {evidence : List Evidence} {e : Evidence} :
    EvidenceVerifies ⟨nd', evidence ++ [e]⟩ ↔
      EvidenceVerifies ⟨nd, evidence⟩ ∧ (e.keyKnown = true → e.Verifies) := by
  simp only [EvidenceVerifies, List.forall_mem_append, List.forall_mem_singleton]

/-- One step keeps what was saved; what it adds verifies exactly under the condition. -/
theorem evidenceVerifies_step
    {s s' : EvidenceState} {a : EvidenceAction}
    (h : EvidenceStep s a s') :
    EvidenceVerifies s' ↔ EvidenceVerifies s ∧ AnnouncesAgreeing s a := by
  cases h with
  | counted h hsig =>
      rw [evidenceVerifies_append, verifies_iff_announcesAgreeing h hsig]
  | skipped h =>
      exact (and_iff_left (announcesAgreeing_of_skipped h)).symm
  | other hkeys hsigs =>
      exact (and_iff_left trivial).symm

/--
In every state of every run the saved signatures of validators with a known key
verify if and only if every message counted under a stored key announced a key
that agrees with it.
-/
theorem evidenceVerifies_iff
    (s : EvidenceState)
    (hrun : Reachable EvidenceInit EvidenceStep s) :
    EvidenceVerifies s ↔
      Reachable EvidenceInit (Guarded AnnouncesAgreeing EvidenceStep) s := by
  constructor
  · induction hrun with
    | start hinit =>
        intro _
        exact .start hinit
    | next run hstep ih =>
        intro hverifies
        obtain ⟨hbefore, hagreeing⟩ := (evidenceVerifies_step hstep).mp hverifies
        exact (ih hbefore).next_guarded hstep hagreeing
  · intro hguarded
    refine hguarded.invariant ?_ ?_
    · rintro s ⟨_, _, _, _, _, _, rfl⟩ e he
      cases he
    · rintro s a s' hverifies ⟨hagreeing, hstep⟩
      exact (evidenceVerifies_step hstep).mpr ⟨hverifies, hagreeing⟩

end Runs

section TwoMessages

variable [P : Platform]

/-- A message that passes the checks is saved with the key it announces. -/
theorem evidenceStep_receive
    {nd : Node} {m : Message} {digest : Str}
    (evidence : List Evidence)
    (hdigest : m.block.getDigest = .ok digest)
    (hvalid : ∀ k, nd.valSigKeys.lookup m.block.validatorId = some k → m.block.ValidUnder k)
    (hpasses : nd.passesVerify m.block = true) :
    EvidenceStep ⟨nd, evidence⟩ (.receive m) ⟨nd.receive m, evidence ++
      [⟨m, (nd.valSigKeys.lookup m.block.validatorId).isSome, m.announcedSignature⟩]⟩ := by
  have hrecv := recvMessage_eq_receive hdigest hvalid hpasses
  exact .counted hrecv ((addsSignature_iff hrecv).mpr rfl)

theorem lookup_receive
    (nd : Node) (m : Message) :
    (nd.receive m).valSigKeys.lookup m.block.validatorId =
      some m.block.validatorNextPublicKey := by
  rw [(receive_same nd m).2.1]
  exact AList.lookup_insert _

/-- Two messages of a validator without transactions, the second one valid under the first's key. -/
theorem exists_evidence_of_two
    {m m' : Message} {digest digest' : Str}
    (hdigest : m.block.getDigest = .ok digest)
    (hdigest' : m'.block.getDigest = .ok digest')
    (hsigner : m'.block.validatorId = m.block.validatorId)
    (hvalid : m'.block.ValidUnder m.block.validatorNextPublicKey)
    (htxs : m.block.txs = [])
    (htxs' : m'.block.txs = []) :
    ∃ nd, Reachable EvidenceInit EvidenceStep
      ⟨nd, [⟨m, false, m.announcedSignature⟩, ⟨m', true, m'.announcedSignature⟩]⟩ := by
  have hstart : Reachable EvidenceInit EvidenceStep
      { node := Node.new 2 4 1 false numberedDraws keptRead } :=
    .start ⟨2, 4, 1, false, numberedDraws, keptRead, rfl⟩
  have hfirst := hstart.next (evidenceStep_receive [] hdigest nofun
    (passesVerify_of_empty htxs _))
  have hlookup := lookup_receive (Node.new 2 4 1 false numberedDraws keptRead) m
  rw [← hsigner] at hlookup
  have hsecond := hfirst.next (evidenceStep_receive _ hdigest' (by
    intro k hk
    obtain rfl := Option.some.inj (hlookup.symm.trans hk)
    exact hvalid) (passesVerify_of_empty htxs' _))
  rw [hlookup] at hsecond
  exact ⟨_, hsecond⟩

/-- A node with a proper key pair signs every frozen block. -/
theorem exists_signs
    [LawfulPlatform P]
    (nd : Node) {block : Block}
    (hpair : nd.myNextKeyPair.WellFormed)
    (hmut : block.isMutable = false)
    (type : MsgType) (round : UInt32) :
    ∃ m, nd.Signs type block round m := by
  obtain ⟨m, hm⟩ := exists_broadcastMessage hpair hmut type round
  obtain ⟨_, m', hsigns, _⟩ := broadcastMessage_eq_ok hm
  exact ⟨m', hsigns⟩

end TwoMessages

/--
An honest validator sends a block twice.  The second signature is checked with
the key of secret bytes 1 and saved with the key of secret bytes 2.
-/
theorem saved_key_is_the_next_one :
    letI := referencePlatform
    ∃ s : EvidenceState, Reachable EvidenceInit EvidenceStep s ∧ ¬ EvidenceVerifies s := by
  let _ := referencePlatform
  let sender := Node.new 1 4 1 false numberedDraws keptRead
  have hmut : ({ isMutable := false } : Block).isMutable = false := rfl
  obtain ⟨m, _, digest, hm, hdigest⟩ :=
    exists_signs sender (keyGen_wellFormed _) hmut .send 0
  obtain ⟨m', hsigns'⟩ := exists_signs sender.rotateKeys (keyGen_wellFormed _) hmut .echo 1
  have hvalid := (Signs.chain (keyGen_wellFormed _) hsigns').1.2.1
  obtain ⟨_, digest', hm', hdigest'⟩ := hsigns'
  have hnext : m.block.validatorNextPublicKey = sender.rotateKeys.myNextKeyPair.publicKey := by
    rw [hm]
    rfl
  rw [← hnext] at hvalid
  obtain ⟨nd, hrun⟩ := exists_evidence_of_two hdigest hdigest' (by rw [hm, hm']; rfl) hvalid
    (by rw [hm]; rfl) (by rw [hm']; rfl)
  refine ⟨_, hrun, ?_⟩
  intro hverifies
  obtain ⟨digest'', hdigest'', hverify⟩ := hverifies _ (List.mem_cons_of_mem _
    (List.mem_singleton.mpr rfl)) rfl
  obtain rfl := Except.ok.inj (hdigest'.symm.trans hdigest'')
  have hpair : sender.rotateKeys.myNextKeyPair = uniformKey 1 := rfl
  have hpair' : sender.rotateKeys.rotateKeys.myNextKeyPair = uniformKey 2 := rfl
  have hsig : m'.announcedSignature.signature = sign digest' (uniformKey 1).privateKey := by
    rw [Message.announcedSignature, hm', signedMessage, hpair]
  have hkey : m'.announcedSignature.publicKey = (uniformKey 2).publicKey := by
    rw [Message.announcedSignature, hm', signedMessage, hpair']
  have hne : hash (equalBytes 2) ≠ hash (equalBytes 1) := by
    show Sha256.digest (equalBytes 2) ≠ Sha256.digest (equalBytes 1)
    decide +kernel
  rw [hsig, hkey] at hverify
  exact verify_sign_uniformKey_ne digest' hne hverify

/-- A validator that announces the key it signs with leaves evidence that verifies. -/
theorem reannounced_key_verifies :
    letI := referencePlatform
    ∃ s : EvidenceState, (∃ e ∈ s.evidence, e.keyKnown = true) ∧ EvidenceVerifies s ∧
      Reachable EvidenceInit (Guarded AnnouncesAgreeing EvidenceStep) s := by
  let _ := referencePlatform
  obtain ⟨m, _, _, _, hblock, ⟨digest, hdigest⟩, _, hself⟩ :=
    exists_reusableVote (b := { isMutable := false }) rfl ⟨[], rfl⟩ 1
  obtain ⟨nd, hrun⟩ := exists_evidence_of_two hdigest hdigest rfl hself hblock.txs hblock.txs
  have hverifies : EvidenceVerifies
      ⟨nd, [⟨m, false, m.announcedSignature⟩, ⟨m, true, m.announcedSignature⟩]⟩ := by
    intro e he hknown
    rcases List.mem_cons.mp he with rfl | he
    · cases hknown
    · rw [List.mem_singleton.mp he]
      exact ⟨digest, hdigest, (Block.validUnder_iff hdigest).mp hself⟩
  exact ⟨_, ⟨_, List.mem_cons_of_mem _ (List.mem_singleton.mpr rfl), rfl⟩, hverifies,
    (evidenceVerifies_iff _ hrun).mp hverifies⟩

end CosiCoin
