import CosiCoin.CarefulVoting
import CosiCoin.VoteStuffing

/-!
# COSICOIN: the lifetime of a node

One node, with anything that can happen to it from its construction on: batches
of arbitrary messages, each followed by `broadcastRound`, calls of
`RunProtocol`, proposals, accepted blocks that are taken, and new lists of
unspent outputs.  The state carries the history of the node and the messages
counted since the lists were last set.

Between two messages the node moves by the steps of `NodeStep`, so an invariant
of a node and its history is checked on these and on a proposal
(`life_invariant`).  The first one is that a counter shows the votes counted
since its hash was last accepted (`Tallied`).
-/

namespace CosiCoin

open LabelledRuns Node

section Lifetime

variable [Platform]

/-- A node with its history, newest first. -/
structure NodeLife where
  node : Node
  hist : List NodeEvent := []
  /-- The messages counted since the last `setUTXOlists`. -/
  current : List Message := []

/-- The node has moved and recorded some events. -/
def NodeLife.record (s : NodeLife) (nd : Node) (evs : List NodeEvent) : NodeLife where
  node := nd
  hist := evs.reverse ++ s.hist
  current := (countedMessages evs).reverse ++ s.current

/-- What can happen to a node. -/
inductive LifeAction where
  | batch
  | receive (m : Message)
  | round
  | runProtocol (broadcast : Bool)
  | setUTXOlists (utxolist : UTXOlist) (walletIds : List UInt32)
  | propose (b : Block)
  | getConsensusBlocks (erase : Bool)

/--
One step in the life of a node.  A batch begins by forgetting the `SEND` of the
batch before; its messages are received one by one.
-/
inductive LifeStep : NodeLife → LifeAction → NodeLife → Prop
  | batch
      (s : NodeLife) :
      LifeStep s .batch (s.record { s.node with sendThisRound := [] } [])
  | receive
      (s : NodeLife) (m : Message) (nd : Node) (evs : List NodeEvent)
      (h : s.node.recvMessage m = .ok (nd, evs)) :
      LifeStep s (.receive m) (s.record nd evs)
  | round
      (s : NodeLife) (nd₁ nd : Node) (evs : List NodeEvent)
      (hrehash : s.node.Rehashed nd₁)
      (h : nd₁.broadcastRound = .ok (nd, evs)) :
      LifeStep s .round (s.record nd evs)
  | runProtocol
      (s : NodeLife) (broadcast : Bool) :
      LifeStep s (.runProtocol broadcast) (s.record (s.node.runProtocol broadcast) [.restarted])
  | setUTXOlists
      (s : NodeLife) (utxolist : UTXOlist) (walletIds : List UInt32) :
      LifeStep s (.setUTXOlists utxolist walletIds)
        { s with node := s.node.setUTXOlists utxolist walletIds, current := [] }
  | propose
      (s : NodeLife) (b : Block) (nd : Node) (evs : List NodeEvent)
      (h : s.node.propose b = .ok (nd, evs)) :
      LifeStep s (.propose b) (s.record nd evs)
  | getConsensusBlocks
      (s : NodeLife) (erase : Bool) :
      LifeStep s (.getConsensusBlocks erase) (s.record (s.node.getConsensusBlocks erase).2 [])

/-- A new node of a committee of `n` validators, `f` of them faulty. -/
def LifeInit (n f : Nat) (s : NodeLife) : Prop :=
  ∃ id isLead urandom erasedRead, s = { node := Node.new id n f isLead urandom erasedRead }

/-- The states a node can reach. -/
def LifeReachable (n f : Nat) : NodeLife → Prop :=
  Reachable (LifeInit n f) LifeStep

/-- The message passes the signature check and the verification of the node. -/
def Node.Accepts (nd : Node) (m : Message) : Prop :=
  (∀ key, nd.valSigKeys.lookup m.block.validatorId = some key → m.block.ValidUnder key) ∧
    nd.passesVerify m.block = true

/-- A received message is counted if and only if it is accepted. -/
theorem recvMessage_cases
    {nd nd' : Node} {m : Message} {evs : List NodeEvent}
    (h : nd.recvMessage m = .ok (nd', evs)) :
    (¬ nd.Accepts m ∧ evs = [] ∧ nd' = { nd with
      valSigKeys := nd.valSigKeys.insert m.block.validatorId m.block.validatorNextPublicKey }) ∨
    (nd.Accepts m ∧ evs = [.counted m] ∧ nd' = nd.receive m) := by
  obtain ⟨digest, valid, stored, hdigest, _, hvalid, rfl, h⟩ := recvMessage_eq_ok h
  have haccepts : nd.Accepts m ↔ valid = true ∧ nd.passesVerify m.block = true := by
    rw [hvalid]
    simp only [Node.Accepts, Block.validUnder_iff hdigest]
  rcases h with ⟨hnot, rfl, rfl⟩ | ⟨hsig, hpass, rfl, rfl⟩
  · exact Or.inl ⟨fun hacc => hnot (haccepts.mp hacc), rfl, rfl⟩
  · exact Or.inr ⟨haccepts.mpr ⟨hsig, hpass⟩, rfl, rfl⟩

/-- The messages of a batch are received one after the other. -/
theorem LifeReachable.messages
    {n f : Nat} {msgs : List Message} :
    ∀ {s : NodeLife} {nd : Node} {evs : List NodeEvent}, LifeReachable n f s →
      recvMessages msgs s.node = .ok (nd, evs) → LifeReachable n f (s.record nd evs) := by
  induction msgs with
  | nil =>
      intro s nd evs hs h
      obtain ⟨rfl, rfl⟩ := Prod.mk.inj (Except.ok.inj h)
      exact hs
  | cons m msgs ih =>
      intro s nd evs hs h
      obtain ⟨⟨nd₁, ev₁⟩, hm, h⟩ := bind_eq_ok h
      obtain ⟨⟨nd₂, ev₂⟩, hrest, h⟩ := bind_eq_ok h
      obtain ⟨rfl, rfl⟩ := Prod.mk.inj (Except.ok.inj h)
      have hs₁ : LifeReachable n f (s.record nd₁ ev₁) := .next hs (.receive s m nd₁ ev₁ hm)
      simpa [NodeLife.record] using ih hs₁ hrest

/-- A task of `RunProtocol` is a batch, its messages and a round. -/
theorem LifeReachable.task
    {n f : Nat} {s : NodeLife} {msgs : List Message} {nd : Node} {evs : List NodeEvent}
    (hs : LifeReachable n f s)
    (h : s.node.RunTask msgs nd evs) :
    LifeReachable n f (s.record nd evs) := by
  obtain ⟨nd₁, ev₁, nd₂, ev₂, hrecv, hrehash, hround, rfl⟩ := h
  have hbatch : LifeReachable n f (s.record { s.node with sendThisRound := [] } []) :=
    .next hs (.batch s)
  have hmsgs := hbatch.messages hrecv
  have hround' := Reachable.next hmsgs (.round _ nd₂ nd ev₂ hrehash hround)
  simpa [NodeLife.record, countedMessages, LifeReachable] using hround'

end Lifetime

section Invariants

variable [Platform]

/-- A step of the life is a run of node steps, goes unnoticed, or is a proposal. -/
theorem lifeStep_nodeRun
    {s s' : NodeLife} {a : LifeAction}
    (h : LifeStep s a s') :
    (∃ evs, NodeRun s.node evs s'.node ∧ s'.hist = evs.reverse ++ s.hist) ∨
    (s.node.Quiet s'.node ∧ s'.hist = s.hist) ∨
      ∃ b m, s.node.Signs .send b 0 m ∧ s'.node = s.node.rotateKeys ∧
        s'.hist = .broadcast m :: .proposed b :: s.hist := by
  cases h with
  | batch =>
      exact Or.inr (Or.inl ⟨⟨rfl, rfl, rfl, rfl, rfl, rfl, rfl, rfl, rfl, Or.inr rfl⟩, rfl⟩)
  | receive m nd evs h =>
      exact Or.inl ⟨evs, (recvMessage_nodeRun h).1, rfl⟩
  | round nd₁ nd evs hrehash h =>
      obtain ⟨hsame, hkept⟩ := quiet_of_rehashed hrehash
      exact Or.inl ⟨evs, .quiet_head hsame hkept (broadcastRound_nodeRun h).1, rfl⟩
  | runProtocol broadcast =>
      refine Or.inl ⟨[.restarted], ?_, rfl⟩
      have hquiet : (s.node.runProtocol true).Quiet (s.node.runProtocol broadcast) :=
        ⟨rfl, rfl, rfl, rfl, rfl, rfl, rfl, rfl, rfl, Or.inl rfl⟩
      exact .head (.restart s.node) (.single (.quiet hquiet ⟨rfl, rfl, rfl⟩))
  | setUTXOlists utxolist walletIds =>
      exact Or.inr (Or.inl ⟨setUTXOlists_quiet s.node utxolist walletIds, rfl⟩)
  | propose b nd evs h =>
      obtain ⟨rfl, m, hm, rfl⟩ := propose_eq_ok h
      exact Or.inr (Or.inr ⟨b, m, hm, rfl, rfl⟩)
  | getConsensusBlocks erase =>
      exact Or.inr (Or.inl ⟨getConsensusBlocks_quiet s.node erase, rfl⟩)

variable {P : Node → List NodeEvent → Prop}

theorem lifeStep_invariant
    (hquiet : ∀ nd nd' hist, P nd hist → nd.Quiet nd' → P nd' hist)
    (hstep : ∀ nd ev nd' hist, P nd hist → NodeStep nd ev nd' → P nd' (ev.reverse ++ hist))
    (hpropose : ∀ nd b m hist, P nd hist → nd.Signs .send b 0 m →
      P nd.rotateKeys (.broadcast m :: .proposed b :: hist))
    {s s' : NodeLife} {a : LifeAction}
    (hP : P s.node s.hist)
    (h : LifeStep s a s') :
    P s'.node s'.hist := by
  rcases lifeStep_nodeRun h with ⟨evs, hrun, hhist⟩ | ⟨hq, hhist⟩ | ⟨b, m, hm, hnode, hhist⟩
  · rw [hhist]
    exact nodeRun_invariant hstep hrun hP
  · rw [hhist]
    exact hquiet _ _ _ hP hq
  · rw [hnode, hhist]
    exact hpropose _ b m _ hP hm

/-- An invariant of a node and its history, from the steps of a node. -/
theorem life_invariant
    {n f : Nat}
    (hnew : ∀ id isLead urandom erasedRead, P (Node.new id n f isLead urandom erasedRead) [])
    (hquiet : ∀ nd nd' hist, P nd hist → nd.Quiet nd' → P nd' hist)
    (hstep : ∀ nd ev nd' hist, P nd hist → NodeStep nd ev nd' → P nd' (ev.reverse ++ hist))
    (hpropose : ∀ nd b m hist, P nd hist → nd.Signs .send b 0 m →
      P nd.rotateKeys (.broadcast m :: .proposed b :: hist))
    {s : NodeLife}
    (h : LifeReachable n f s) :
    P s.node s.hist := by
  unfold LifeReachable at h
  induction h with
  | start h =>
      obtain ⟨id, isLead, urandom, erasedRead, rfl⟩ := h
      exact hnew id isLead urandom erasedRead
  | next run h ih =>
      exact lifeStep_invariant hquiet hstep hpropose ih h

/-- A node with the numbers it was constructed with. -/
def Sized (n f : Nat) (nd : Node) : Prop :=
  nd.n = n ∧ nd.f = f

theorem sized_of_reachable
    {n f : Nat} {s : NodeLife}
    (h : LifeReachable n f s) :
    Sized n f s.node := by
  refine life_invariant (P := fun nd _ => Sized n f nd) ?_ ?_ ?_ ?_ h
  · intro id isLead urandom erasedRead
    exact ⟨rfl, rfl⟩
  · rintro nd nd' hist ⟨hn, hf⟩ hq
    exact ⟨hq.n.trans hn, hq.f.trans hf⟩
  · rintro nd ev nd' hist ⟨hn, hf⟩ hstep
    cases hstep with
    | quiet hq hkept => exact ⟨hq.n.trans hn, hq.f.trans hf⟩
    | count m =>
        obtain ⟨_, hn', hf', _⟩ := countMessage_same nd m
        exact ⟨hn'.trans hn, hf'.trans hf⟩
    | echo m hsend hm => exact ⟨hn, hf⟩
    | ready m h round hvotes hsent hm => exact ⟨hn, hf⟩
    | deliver h hvotes => exact ⟨hn, hf⟩
    | restart => exact ⟨hn, hf⟩
  · rintro nd b m hist ⟨hn, hf⟩ _
    exact ⟨hn, hf⟩

theorem recorded_of_reachable
    {n f : Nat} {s : NodeLife}
    (h : LifeReachable n f s) :
    Recorded s.node s.hist := by
  refine life_invariant (P := Recorded) ?_ ?_ ?_ ?_ h
  · intro id isLead urandom erasedRead
    exact Recorded.new id n f isLead urandom erasedRead
  · intro nd nd' hist hrec hq
    exact hrec.quiet hq
  · intro nd ev nd' hist hrec hstep
    exact hrec.step hstep
  · intro nd b m hist hrec hm
    exact hrec.propose hm

end Invariants

section Tallies

variable [Platform]

/-- The part of a history after the last delivery of a hash. -/
def sinceDelivery (h : Str) (hist : List NodeEvent) : List NodeEvent :=
  hist.takeWhile fun e => e ≠ .delivered h

/-- The votes of a type counted for a hash since it was last accepted. -/
def tally (type : MsgType) (h : Str) (hist : List NodeEvent) : Nat :=
  votes type h (sinceDelivery h hist)

theorem tally_cons
    (type : MsgType) (h : Str) (e : NodeEvent) (hist : List NodeEvent) :
    tally type h (e :: hist) = if e = .delivered h then 0
      else tally type h hist + if isVote type h e then 1 else 0 := by
  unfold tally sinceDelivery
  by_cases he : e = .delivered h
  · simp [he, votes]
  · simp [he, votes, List.countP_cons]

/-- Events that are neither votes nor deliveries leave the tallies as they are. -/
theorem tally_cons_of_ne
    {e : NodeEvent}
    (hvote : ∀ m, e ≠ .counted m)
    (hdel : ∀ h, e ≠ .delivered h)
    (type : MsgType) (h : Str) (hist : List NodeEvent) :
    tally type h (e :: hist) = tally type h hist := by
  rw [tally_cons, if_neg (hdel h)]
  cases e with
  | counted m => exact absurd rfl (hvote m)
  | proposed b => rfl
  | broadcast m => rfl
  | delivered k => exact absurd rfl (hdel k)
  | restarted => rfl

theorem tally_counted
    (type : MsgType) (h : Str) (m : Message) (hist : List NodeEvent) :
    tally type h (.counted m :: hist) =
      tally type h hist + if isVote type h (.counted m) then 1 else 0 := by
  have hne : NodeEvent.counted m ≠ .delivered h := nofun
  rw [tally_cons, if_neg hne]

/-- The counters of a node are the tallies of its history. -/
structure Tallied (nd : Node) (hist : List NodeEvent) : Prop where
  echo : ∀ h, nd.echoThisRound.count h = tally .echo h hist
  ready : ∀ h, nd.readyThisRound.count h = tally .ready h hist

theorem Tallied.cons_of_ne
    {nd nd' : Node} {hist : List NodeEvent} {e : NodeEvent}
    (htally : Tallied nd hist)
    (hecho : nd'.echoThisRound = nd.echoThisRound)
    (hready : nd'.readyThisRound = nd.readyThisRound)
    (hvote : ∀ m, e ≠ .counted m)
    (hdel : ∀ h, e ≠ .delivered h) :
    Tallied nd' (e :: hist) where
  echo h := by rw [hecho, htally.echo, tally_cons_of_ne hvote hdel]
  ready h := by rw [hready, htally.ready, tally_cons_of_ne hvote hdel]

theorem Tallied.count
    {nd : Node} {hist : List NodeEvent}
    (htally : Tallied nd hist)
    (m : Message) :
    Tallied (nd.countMessage m) (.counted m :: hist) where
  echo h := by rw [countMessage_echo, htally.echo, tally_counted]
  ready h := by rw [countMessage_ready, htally.ready, tally_counted]

theorem Tallied.quiet
    {nd nd' : Node} {hist : List NodeEvent}
    (htally : Tallied nd hist)
    (h : nd.Quiet nd') :
    Tallied nd' hist := by
  constructor
  · intro k
    rw [h.echo]
    exact htally.echo k
  · intro k
    rw [h.ready]
    exact htally.ready k

theorem Tallied.deliver
    {nd : Node} {hist : List NodeEvent}
    (htally : Tallied nd hist)
    (h recorded : Str) :
    Tallied (nd.deliver h recorded) (.delivered h :: hist) := by
  have herase : ∀ (c : Counter) type, (∀ k, c.count k = tally type k hist) →
      ∀ k, Counter.count (c.erase h) k = tally type k (.delivered h :: hist) := by
    intro c type hc k
    rw [Counter.count_erase, tally_cons, hc]
    by_cases hk : k = h
    · simp [hk]
    · simp [hk, Ne.symm hk, isVote]
  exact ⟨herase _ .echo htally.echo, herase _ .ready htally.ready⟩

theorem Tallied.step
    {nd nd' : Node} {hist ev : List NodeEvent}
    (htally : Tallied nd hist)
    (h : NodeStep nd ev nd') :
    Tallied nd' (ev.reverse ++ hist) := by
  cases h with
  | quiet hq hkept => exact htally.quiet hq
  | count m => exact htally.count m
  | echo m hsend hm => exact htally.cons_of_ne rfl rfl (by simp) (by simp)
  | ready m h round hvotes hsent hm => exact htally.cons_of_ne rfl rfl (by simp) (by simp)
  | deliver h hvotes => exact htally.deliver h _
  | restart => exact htally.cons_of_ne rfl rfl (by simp) (by simp)

/-- In every reachable state the counters are the tallies of the history. -/
theorem tallied_of_reachable
    {n f : Nat} {s : NodeLife}
    (h : LifeReachable n f s) :
    Tallied s.node s.hist := by
  refine life_invariant (P := Tallied) ?_ ?_ ?_ ?_ h
  · intro id isLead urandom erasedRead
    exact ⟨fun _ => rfl, fun _ => rfl⟩
  · intro nd nd' hist htally hq
    exact htally.quiet hq
  · intro nd ev nd' hist htally hstep
    exact htally.step hstep
  · intro nd b m hist htally _
    have hfirst : Tallied nd.rotateKeys (.proposed b :: hist) :=
      htally.cons_of_ne rfl rfl (by simp) (by simp)
    exact hfirst.cons_of_ne rfl rfl (by simp) (by simp)

end Tallies

section RepeatedVotes

variable [P : Platform] [LawfulPlatform P]

/--
A validator that announces the key it signs with is counted as often as it sends
its message.
-/
theorem exists_repeated_life
    (n f : Nat) {b : Block}
    (hmut : b.isMutable = false)
    (hempty : b.txs = [])
    (v : UInt16) {type : MsgType}
    (htype : type = .echo ∨ type = .ready)
    (k : Nat) :
    ∃ m s, LifeReachable n f s ∧ m.type = type ∧ m.block.header = b.header ∧
      m.block.validatorId = v ∧ s.hist = List.replicate k (.counted m) ∧
      Sized n f s.node ∧ Tracks b.header [] s.node (Tally.recv {} (List.replicate k type)) false := by
  have henc : Encodable b.txs := by
    rw [hempty]
    exact ⟨[], rfl⟩
  have hother : type ≠ .other := by
    rintro rfl
    simp at htype
  have hsend : (List.replicate k type).contains .send = false := by
    rcases htype with rfl | rfl <;> simp
  obtain ⟨m, _, _, hm, hblock, hdigest, hsigner, hself⟩ := exists_selfSigned hmut henc v hother
  rw [hempty, List.map_nil] at hblock
  let nd : Node := Node.new 0 n f false (fun _ _ => (equalBytes 0, equalBytes 0)) keptRead
  have htracks : Tracks b.header [] nd {} false := tracks_new _ _ _ _ _ _
  have hpasses : Passes b.header [] nd := fun b' hb' => passesVerify_of_empty hb'.txs nd
  have hnone : GoodBatch b.header [] nd [] := ⟨trivial, by simp⟩
  have hgood : GoodBatch b.header [] nd (List.replicate k m) :=
    hnone.append_replicate ⟨hblock, hdigest⟩ hself rfl k
  obtain ⟨nd', hrecv, htracks', _, hsame, _⟩ := recvMessages_eq_ok htracks hpasses
    hgood.accepts hgood.body
  have hnew : LifeReachable n f { node := nd } := .start ⟨_, _, _, _, rfl⟩
  have hs := LifeReachable.messages (.next hnew (.batch _)) hrecv
  refine ⟨m, _, hs, hm, hblock.header, hsigner, ?_, ⟨hsame.n, hsame.f⟩, ?_⟩
  · simp [NodeLife.record]
  · rw [List.map_replicate, hm, hsend] at htracks'
    exact htracks'

end RepeatedVotes

end CosiCoin
