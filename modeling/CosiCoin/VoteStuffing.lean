import CosiCoin.SingleProposal

/-!
# COSICOIN: stuffing the counters of a node

The counters of a node count messages and not senders, and the key of a
validator is whatever its last message announced.  A faulty validator that
announces the key it signs with can therefore send the same `READY` as often as
it takes (`exists_reusableVote`), and a single faulty validator makes any new
node accept any block the node verifies (`exists_stuffed_step`).
-/

namespace CosiCoin

open Node

section Stuffing

/-- A batch with `2 f + 2` votes is enough for a new node. -/
theorem Tally.task_stuffed
    {threshold f : Nat} {types : List MsgType}
    (h : 2 * f + 1 < (Tally.recv {} types).ready) :
    (Tally.task threshold f {} types).1.running = false := by
  rw [Tally.task, Tally.round_fst, Tally.deliver, if_pos]
  exact h

variable [P : Platform]

/-- A message that verifies under the key it announces is accepted again and again. -/
theorem acceptsAll_replicate
    {m : Message}
    (hself : m.block.ValidUnder m.block.validatorNextPublicKey)
    (k : Nat) :
    ∀ {keys : AList (fun _ : UInt16 => SigKey)},
      (∀ key, keys.lookup m.block.validatorId = some key → m.block.ValidUnder key) →
      AcceptsAll keys (List.replicate k m) := by
  induction k with
  | zero =>
      intro keys _
      trivial
  | succ k ih =>
      intro keys hfirst
      refine ⟨hfirst, ih ?_⟩
      intro key hkey
      rw [AList.lookup_insert] at hkey
      obtain rfl := Option.some.inj hkey
      exact hself

theorem AcceptsAll.append
    {msgs later : List Message} {keys : AList (fun _ : UInt16 => SigKey)}
    (h : AcceptsAll keys msgs)
    (hlater : AcceptsAll (keysAfter keys msgs) later) :
    AcceptsAll keys (msgs ++ later) := by
  induction msgs generalizing keys with
  | nil => exact hlater
  | cons m msgs ih => exact ⟨h.1, ih h.2 hlater⟩

/-- A batch of messages of the block can be followed by copies of one that no key contradicts. -/
theorem GoodBatch.append_replicate
    {hd : Header} {txs : List Transaction} {nd : Node} {msgs : List Message} {m : Message}
    (h : GoodBatch hd txs nd msgs)
    (hbody : OfBlock hd txs m.block ∧ ∃ digest, m.block.getDigest = .ok digest)
    (hself : m.block.ValidUnder m.block.validatorNextPublicKey)
    (hkey : (keysAfter nd.valSigKeys msgs).lookup m.block.validatorId = none)
    (k : Nat) :
    GoodBatch hd txs nd (msgs ++ List.replicate k m) := by
  refine ⟨h.accepts.append (acceptsAll_replicate hself k ?_), ?_⟩
  · intro key hlookup
    rw [hkey] at hlookup
    cases hlookup
  · intro m' hm'
    rcases List.mem_append.mp hm' with hm' | hm'
    · exact h.body m' hm'
    · rw [List.eq_of_mem_replicate hm']
      exact hbody

/-- What a stuffed task leaves in the history of the node. -/
structure Stuffed (b : Block) (nd : Node) (evs : List NodeEvent) : Prop where
  returned : nd.shouldBroadcast = false
  delivered : ∀ h, .delivered h ∈ evs ↔ h = b.header.getID
  restarted : .restarted ∉ evs
  counted : ∀ m, .counted m ∈ evs → OfBlock b.header (b.txs.map wireTransaction) m.block

/-- The block a stuffed node holds is the one of the votes. -/
theorem Stuffed.held
    {c : Committee} {s : SystemState} {i : UInt16} {b : Block} {evs : List NodeEvent}
    (h : Stuffed b (s.nodes i) evs)
    (hhistory : history i s.log = evs.reverse)
    (hinv : SystemInv c s) :
    (i, .delivered b.header.getID) ∈ s.log ∧
      ∃ held, (s.nodes i).blocks.lookup b.header.getID = some held ∧
        held.header = b.header ∧ held.txs = b.txs.map wireTransaction := by
  have hdel : (i, .delivered b.header.getID) ∈ s.log := by
    rw [← mem_history, hhistory, List.mem_reverse]
    exact (h.delivered _).mpr rfl
  obtain ⟨later, earlier, hlog⟩ := List.append_of_mem hdel
  obtain ⟨m, held, hm, _, hheld, hbody⟩ := held_of_delivered hinv hlog
  have hcounted : .counted m ∈ evs := by
    rw [← List.mem_reverse, ← hhistory, mem_history, hlog]
    exact List.mem_append_right _ (List.mem_cons_of_mem _ hm)
  have hblock := h.counted m hcounted
  have hheader : held.header = m.block.header := congrArg Prod.fst hbody
  have htxs : held.txs = m.block.txs := congrArg Prod.snd hbody
  exact ⟨hdel, held, hheld, hheader.trans hblock.header, htxs.trans hblock.txs⟩

variable [LawfulPlatform P]

/-- Every validator can sign a message with a key that the message announces again. -/
theorem exists_selfSigned
    {b : Block}
    (hmut : b.isMutable = false)
    (henc : Encodable b.txs)
    (v : UInt16) {type : MsgType}
    (htype : type ≠ .other) :
    ∃ m p, Message.fromProtoMessage p = .ok m ∧ m.type = type ∧
      OfBlock b.header (b.txs.map wireTransaction) m.block ∧
      (∃ digest, m.block.getDigest = .ok digest) ∧
      m.block.validatorId = v ∧ m.block.ValidUnder m.block.validatorNextPublicKey := by
  obtain ⟨text, htext⟩ := sigKeyToString_keyGen (P := P) fun _ => (equalBytes 1, equalBytes 1)
  obtain ⟨signed, hsigned⟩ := Block.exists_sign_eq_ok hmut htext (uniformKey 1).privateKey v
  obtain ⟨hvalid, hid, _⟩ := Block.validUnder_of_sign (uniformKey_wellFormed 1) hsigned
  obtain ⟨_, digest, _, heq⟩ := Block.sign_eq_ok hsigned
  have hnext : signed.validatorNextPublicKey = (uniformKey 1).publicKey := by rw [heq]; rfl
  have hsend : Sendable b v ⟨type, signed, v.toUInt64, 2⟩ := by
    refine ⟨hid, ?_, ?_, ?_, ?_, ⟨text, ?_⟩, htype⟩
    · rw [heq]
    · rw [heq]
    · rw [heq]
      exact hmut
    · rw [heq]
      exact henc
    · rw [hnext]
      exact htext
  obtain ⟨m, hwire, hmtype, hblock, hdigest, hsigner, hkey, hkeep⟩ := hsend.wire
  obtain ⟨p, _, hp⟩ := bind_eq_ok hwire
  refine ⟨m, p, hp, hmtype, hblock, hdigest, hsigner.trans hid, ?_⟩
  apply hkeep
  rw [hkey, hnext]
  exact hvalid

/-- Every validator can sign a vote with a key that the vote announces again. -/
theorem exists_reusableVote
    {b : Block}
    (hmut : b.isMutable = false)
    (henc : Encodable b.txs)
    (v : UInt16) :
    ∃ m p, Message.fromProtoMessage p = .ok m ∧ m.type = .ready ∧
      OfBlock b.header (b.txs.map wireTransaction) m.block ∧
      (∃ digest, m.block.getDigest = .ok digest) ∧
      m.block.validatorId = v ∧ m.block.ValidUnder m.block.validatorNextPublicKey :=
  exists_selfSigned hmut henc v nofun

/-- The messages of a faulty validator can follow any others of the block. -/
theorem exists_stuffed_after
    {c : Committee} {s : SystemState} {i v : UInt16} {b : Block} {early : List Message}
    (hi : c.Correct i)
    (hv : v ∈ c.byz)
    (hmut : b.isMutable = false)
    (henc : Encodable b.txs)
    (hnode : InLine c b i (s.nodes i) {})
    (hearly : ∀ m ∈ early, Available c s.log m)
    (hgood : GoodBatch b.header (b.txs.map wireTransaction) (s.nodes i) early)
    (hkey : (keysAfter (s.nodes i).valSigKeys early).lookup v = none) :
    ∃ votes nd outs, SystemStep c s (.runTask i (early ++ votes))
        (s.record i nd (early.map .counted ++ outs)) ∧
      Stuffed b nd (early.map .counted ++ outs) := by
  obtain ⟨htracks, hpasses, hconf⟩ := hnode
  obtain ⟨m, p, hp, htype, hblock, hdigest, hsigner, hself⟩ := exists_reusableVote hmut henc v
  have hstuffed : GoodBatch b.header (b.txs.map wireTransaction) (s.nodes i)
      (early ++ List.replicate (2 * c.f + 2) m) :=
    hgood.append_replicate ⟨hblock, hdigest⟩ hself (by rw [hsigner, hkey]) _
  have hpos : 0 < ((s.nodes i).n + (s.nodes i).f + 1) / 2 := by
    have hn : 0 < c.n := Finset.card_pos.mpr ⟨c.leader, c.leader_mem⟩
    rw [hconf.n]
    omega
  obtain ⟨_, nd, outs, hiff, _, _, _, _, htracks'⟩ :=
    runTask_iff_tally htracks hpasses hstuffed hpos
  have henough : 2 * c.f + 1 < (Tally.recv {} ((early ++ List.replicate (2 * c.f + 2) m).map
      fun m => m.type)).ready := by
    rw [Tally.recv_eq]
    simp only [List.map_append, List.map_replicate, htype, List.count_append,
      List.count_replicate_self]
    omega
  rw [hconf.f] at htracks' hiff
  have hrun := (hiff nd _).mpr ⟨rfl, rfl⟩
  rw [taskEvents, List.map_append, List.append_assoc] at hrun
  rw [deliveryEvents, if_pos henough] at hrun
  refine ⟨List.replicate (2 * c.f + 2) m, nd, _, .runTask s i _ nd _ hi htracks.running ?_ hrun, ?_⟩
  · intro m' hm'
    rcases List.mem_append.mp hm' with hm' | hm'
    · exact hearly m' hm'
    · rw [List.eq_of_mem_replicate hm']
      exact Or.inr ⟨hsigner ▸ hv, p, hp⟩
  · refine ⟨htracks'.running.trans (Tally.task_stuffed henough), ?_, ?_, ?_⟩
    · intro h
      simp [eq_comm]
    · simp
    · intro m' hm'
      have hin : m' ∈ early ++ List.replicate (2 * c.f + 2) m := by simpa using hm'
      exact (hstuffed.body m' hin).1

/-- A single faulty validator makes a new node accept any block that the node verifies. -/
theorem exists_stuffed_step
    {c : Committee} {s : SystemState} {i v : UInt16} {b : Block}
    (hi : c.Correct i)
    (hv : v ∈ c.byz)
    (hmut : b.isMutable = false)
    (henc : Encodable b.txs)
    (hnode : InLine c b i (s.nodes i) {})
    (hkey : (s.nodes i).valSigKeys.lookup v = none) :
    ∃ msgs nd evs, SystemStep c s (.runTask i msgs) (s.record i nd evs) ∧ Stuffed b nd evs := by
  have hgood : GoodBatch b.header (b.txs.map wireTransaction) (s.nodes i) [] :=
    ⟨trivial, by simp⟩
  obtain ⟨votes, nd, outs, hstep, hstuffed⟩ :=
    exists_stuffed_after hi hv hmut henc hnode (by simp) hgood hkey
  exact ⟨_, nd, _, hstep, hstuffed⟩

end Stuffing

end CosiCoin
