import CosiCoin.LinkTraffic
import CosiCoin.SingleBlockTask

/-!
# COSICOIN: runs with a single proposal

When the leader proposes one block, a system over links is summed up by a
`VoteState`: a tally for each node and the message types on the links.  Its
steps are computed by a function, so runs of it can be evaluated.

`Matches` relates the two levels.  Every step of the validators is the step of
the votes (`matches_step`), so what holds of all vote runs holds of the
validators; and every vote run is taken by the validators
(`exists_linkRun`), so a run found on the votes is one of theirs.  Both
directions rest on the key chains: over first-in-first-out links no message of
a correct validator is ever rejected.
-/

namespace CosiCoin

open LabelledRuns FifoLinks Node

/-- What the nodes know of the block and the types of the messages on the links. -/
structure VoteState where
  tallies : UInt16 → Tally
  net : Links UInt16 MsgType

/-- What can happen after the proposal. -/
inductive VoteAction where
  | transfer (i j : UInt16)
  | runTask (j : UInt16)
  | restart (j : UInt16)

namespace VoteState

/-- The state after the proposal. -/
def start (c : Committee) : VoteState where
  tallies := fun _ => {}
  net := Links.empty.push c.vals c.leader [.send]

/-- One step, if it is possible. -/
def step (c : Committee) (t : VoteState) : VoteAction → Option VoteState
  | .transfer i j =>
      match t.net.out i j with
      | [] => none
      | type :: rest =>
          if j ∈ c.vals then some { t with net := t.net.transfer i j rest type } else none
  | .runTask j =>
      if j ∈ c.live ∧ (t.tallies j).running = true ∧ t.net.inbox j ≠ [] then
        let r := (t.tallies j).task c.echoThreshold c.f (t.net.inbox j)
        some {
          tallies := Function.update t.tallies j r.1
          net := (t.net.drain j).push c.vals j r.2 }
      else
        none
  | .restart j =>
      if j ∈ c.live ∧ (t.tallies j).running = false then
        some { t with tallies := Function.update t.tallies j (t.tallies j).restart }
      else
        none

/-- A sequence of steps. -/
def run (c : Committee) : VoteState → List VoteAction → Option VoteState
  | t, [] => some t
  | t, a :: rest => (t.step c a).bind fun t' => run c t' rest

/-- Everything a step can do. -/
theorem step_cases
    {c : Committee} {t t' : VoteState} {a : VoteAction}
    (h : t.step c a = some t') :
    (∃ i j type rest, a = .transfer i j ∧ j ∈ c.vals ∧ t.net.out i j = type :: rest ∧
      t' = { t with net := t.net.transfer i j rest type }) ∨
    (∃ j, a = .runTask j ∧ j ∈ c.live ∧ (t.tallies j).running = true ∧ t.net.inbox j ≠ [] ∧
      t' = ⟨Function.update t.tallies j
          ((t.tallies j).task c.echoThreshold c.f (t.net.inbox j)).1,
        (t.net.drain j).push c.vals j
          ((t.tallies j).task c.echoThreshold c.f (t.net.inbox j)).2⟩) ∨
    (∃ j, a = .restart j ∧ j ∈ c.live ∧ (t.tallies j).running = false ∧
      t' = { t with tallies := Function.update t.tallies j (t.tallies j).restart }) := by
  cases a with
  | transfer i j =>
      cases hout : t.net.out i j with
      | nil => simp [step, hout] at h
      | cons type rest =>
          simp only [step, hout] at h
          split_ifs at h with hj
          exact Or.inl ⟨i, j, type, rest, rfl, hj, hout, (Option.some.inj h).symm⟩
  | runTask j =>
      simp only [step] at h
      split_ifs at h with hj
      exact Or.inr (Or.inl ⟨j, rfl, hj.1, hj.2.1, hj.2.2, (Option.some.inj h).symm⟩)
  | restart j =>
      simp only [step] at h
      split_ifs at h with hj
      exact Or.inr (Or.inr ⟨j, rfl, hj.1, hj.2, (Option.some.inj h).symm⟩)

end VoteState

/-- The states the votes can reach after the proposal. -/
def VoteReachable (c : Committee) : VoteState → Prop :=
  Reachable (fun t => t = VoteState.start c) fun t a t' => t.step c a = some t'

/-- The proposed blocks of a log, newest first. -/
def proposals (log : Log) : List Block :=
  log.filterMap fun e =>
    match e.2 with
    | .proposed b => some b
    | _ => none

/-- An `ECHO` message. -/
def isEcho (m : Message) : Bool :=
  m.type = .echo

theorem mem_proposals
    {log : Log} {i : UInt16} {b : Block}
    (h : (i, .proposed b) ∈ log) :
    b ∈ proposals log :=
  List.mem_filterMap.mpr ⟨_, h, rfl⟩

theorem proposals_record
    (s : SystemState) (i : UInt16) (nd : Node) {evs : List NodeEvent}
    (h : ∀ b, .proposed b ∉ evs) :
    proposals (s.record i nd evs).log = proposals s.log := by
  rw [SystemState.record, proposals, List.filterMap_append, List.filterMap_eq_nil_iff.mpr,
    List.nil_append, proposals]
  intro e he
  obtain ⟨ev, hev, rfl⟩ := List.mem_map.mp he
  cases ev with
  | proposed b => exact absurd (List.mem_reverse.mp hev) (h b)
  | counted m => rfl
  | broadcast m => rfl
  | delivered k => rfl
  | restarted => rfl

/-- The wire does not change the outcome of `verify`. -/
theorem verify_of_wired
    {b b' : Block}
    (h : b'.txs = b.txs.map wireTransaction)
    (utxolist : UTXOlist) (walletIds : List UInt32) :
    b'.verify utxolist walletIds = b.verify utxolist walletIds := by
  have hinputs : b'.inputs = b.inputs := by
    simp [Block.inputs, h, List.flatMap_map]
  have hall : (b'.txs.all fun t => t.checkSpendingConditions utxolist walletIds) =
      b.txs.all fun t => t.checkSpendingConditions utxolist walletIds := by
    simp [h, List.all_map, Function.comp_def]
  rw [Block.verify, Block.verify, hinputs, hall]

/-- The messages a tally sends are votes. -/
theorem Tally.task_types
    {threshold f : Nat} {t : Tally} {types : List MsgType} :
    ∀ type ∈ (t.task threshold f types).2, type ≠ .other := by
  have hannounce : ∀ k v (t : Tally), ∀ type ∈ (t.announce k v).2, type ≠ .other := by
    intro k v t type htype
    unfold Tally.announce at htype
    split_ifs at htype
    · rw [List.mem_singleton.mp htype]
      decide
    · cases htype
  intro type htype
  rcases List.mem_append.mp htype with htype | htype
  · rcases List.mem_append.mp htype with htype | htype
    · split_ifs at htype
      · rw [List.mem_singleton.mp htype]
        decide
      · cases htype
    · exact hannounce _ _ _ type htype
  · exact hannounce _ _ _ type htype

theorem Tally.deliver_accepted
    (f : Nat) (t : Tally) :
    (t.deliver f).accepted = t.accepted + if 2 * f + 1 < t.ready then 1 else 0 := by
  unfold Tally.deliver
  split_ifs <;> rfl

theorem Tally.task_accepted
    (threshold f : Nat) (t : Tally) (types : List MsgType) :
    (t.task threshold f types).1.accepted =
      t.accepted + if 2 * f + 1 < (t.recv types).ready then 1 else 0 := by
  rw [Tally.task, Tally.round_fst, Tally.deliver_accepted]
  simp [Tally.recv_eq]

/-- The events of a task, read off for the links and the log. -/
theorem taskEvents_spec
    (msgs outs : List Message) (f ready : Nat) (h : Str) :
    broadcastMessages (taskEvents msgs outs f ready h) = outs ∧
      (∀ b, .proposed b ∉ taskEvents msgs outs f ready h) ∧
      deliveries h (taskEvents msgs outs f ready h) = (if 2 * f + 1 < ready then 1 else 0) ∧
      (taskEvents msgs outs f ready h).count .restarted = 0 := by
  unfold taskEvents deliveryEvents
  refine ⟨?_, ?_, ?_, ?_⟩
  · split_ifs <;> simp [broadcastMessages, List.filterMap_append, List.filterMap_map]
  · intro b hb
    split_ifs at hb <;> simp at hb
  · split_ifs <;> simp [deliveries, List.countP_append, List.countP_map, Function.comp_def]
  · apply List.count_eq_zero_of_not_mem
    split_ifs <;> simp

section Links

variable [P : Platform]

/-- A message in the queue of its signer that the wire will not refuse. -/
structure Sendable (b : Block) (i : UInt16) (m : Message) : Prop where
  signer : m.block.validatorId = i
  header : m.block.header = b.header
  txs : m.block.txs.map wireTransaction = b.txs.map wireTransaction
  immutable : m.block.isMutable = false
  encodable : Encodable m.block.txs
  writable : ∃ text, sigKeyToString m.block.validatorNextPublicKey = .ok text
  type : m.type ≠ .other

/-- A message that has arrived. -/
structure Arrived (c : Committee) (b : Block) (m : Message) : Prop where
  block : OfBlock b.header (b.txs.map wireTransaction) m.block
  digest : ∃ digest, m.block.getDigest = .ok digest
  signer : m.block.validatorId ∈ c.live

/-- The links carry messages of the block, of the given types. -/
structure Carries (c : Committee) (b : Block) (net : Links UInt16 Message)
    (types : Links UInt16 MsgType) : Prop where
  out : ∀ i j, (net.out i j).map (fun m => m.type) = types.out i j
  inbox : ∀ j, (net.inbox j).map (fun m => m.type) = types.inbox j
  sendable : ∀ i j, ∀ m ∈ net.out i j, i ∈ c.live ∧ Sendable b i m
  arrived : ∀ j, ∀ m ∈ net.inbox j, Arrived c b m

/-- The keys the live nodes have stored fit the messages on their way. -/
def KeysInStep (c : Committee) (nodes : UInt16 → Node) (net : Links UInt16 Message) : Prop :=
  ∀ i ∈ c.live, ∀ j ∈ c.live,
    Pending i ((nodes j).valSigKeys.lookup i) (messagesFrom i (net.inbox j) ++ net.out i j)
      (nodes i).myNextKeyPair.publicKey

variable {c : Committee} {b : Block} {net : Links UInt16 Message} {types : Links UInt16 MsgType}

theorem Carries.push
    {i : UInt16} {outs : List Message}
    (h : Carries c b net types)
    (hi : i ∈ c.live)
    (houts : ∀ m ∈ outs, Sendable b i m) :
    Carries c b (net.push c.vals i outs) (types.push c.vals i (outs.map fun m => m.type)) := by
  refine ⟨?_, h.inbox, ?_, h.arrived⟩
  · intro k j
    by_cases hk : k = i
    · subst hk
      by_cases hj : j ∈ c.vals
      · simp [Links.push, hj, h.out]
      · simp [Links.push, hj, h.out]
    · simp [Links.push, hk, h.out]
  · intro k j m hm
    by_cases hk : k = i
    · subst hk
      by_cases hj : j ∈ c.vals
      · simp only [Links.push, Function.update_self, hj, if_true, List.mem_append] at hm
        rcases hm with hm | hm
        · exact h.sendable k j m hm
        · exact ⟨hi, houts m hm⟩
      · simp only [Links.push, Function.update_self, hj, if_false] at hm
        exact h.sendable k j m hm
    · simp only [Links.push, Function.update_of_ne hk] at hm
      exact h.sendable k j m hm

theorem Carries.drain
    (h : Carries c b net types)
    (j : UInt16) :
    Carries c b (net.drain j) (types.drain j) := by
  refine ⟨h.out, ?_, h.sendable, ?_⟩
  · intro k
    by_cases hk : k = j
    · subst hk
      simp [Links.drain]
    · simp [Links.drain, hk, h.inbox]
  · intro k m hm
    by_cases hk : k = j
    · subst hk
      simp [Links.drain] at hm
    · simp only [Links.drain, Function.update_of_ne hk] at hm
      exact h.arrived k m hm

theorem Carries.transfer
    {i j : UInt16} {m m' : Message} {rest : List Message}
    (h : Carries c b net types)
    (hout : net.out i j = m :: rest)
    (htype : m'.type = m.type)
    (harrived : Arrived c b m') :
    Carries c b (net.transfer i j rest m')
      (types.transfer i j (rest.map fun m => m.type) m.type) := by
  refine ⟨?_, ?_, ?_, ?_⟩
  · intro k l
    by_cases hk : k = i
    · subst hk
      by_cases hl : l = j
      · subst hl
        simp [Links.transfer]
      · simp [Links.transfer, hl, h.out]
    · simp [Links.transfer, hk, h.out]
  · intro l
    by_cases hl : l = j
    · subst hl
      simp [Links.transfer, h.inbox, htype]
    · simp [Links.transfer, hl, h.inbox]
  · intro k l x hx
    by_cases hk : k = i
    · subst hk
      by_cases hl : l = j
      · subst hl
        simp only [Links.transfer, Function.update_self] at hx
        exact h.sendable k l x (by rw [hout]; exact List.mem_cons_of_mem _ hx)
      · simp only [Links.transfer, Function.update_self, Function.update_of_ne hl] at hx
        exact h.sendable k l x hx
    · simp only [Links.transfer, Function.update_of_ne hk] at hx
      exact h.sendable k l x hx
  · intro l x hx
    by_cases hl : l = j
    · subst hl
      simp only [Links.transfer, Function.update_self, List.mem_append,
        List.mem_singleton] at hx
      rcases hx with hx | rfl
      · exact h.arrived l x hx
      · exact harrived
    · simp only [Links.transfer, Function.update_of_ne hl] at hx
      exact h.arrived l x hx

variable {nodes : UInt16 → Node}

/-- A node that takes its inbox accepts every message and stores the last keys. -/
theorem KeysInStep.drain
    {j : UInt16} {nd : Node}
    (h : KeysInStep c nodes net)
    (hj : j ∈ c.live)
    (hsigners : ∀ m ∈ net.inbox j, m.block.validatorId ∈ c.live)
    (hkeys : nd.valSigKeys = keysAfter (nodes j).valSigKeys (net.inbox j))
    (hpair : nd.myNextKeyPair = (nodes j).myNextKeyPair) :
    AcceptsAll (nodes j).valSigKeys (net.inbox j) ∧
      KeysInStep c (Function.update nodes j nd) (net.drain j) := by
  obtain ⟨hacc, hafter⟩ := acceptsAll_of_pending (fun i => net.out i j)
    (fun i => (nodes i).myNextKeyPair.publicKey) hsigners (fun i hi => h i hi j hj)
  refine ⟨hacc, ?_⟩
  intro i hi k hk
  have hsame : (Function.update nodes j nd i).myNextKeyPair = (nodes i).myNextKeyPair := by
    by_cases hij : i = j
    · subst hij
      simpa using hpair
    · simp [hij]
  rw [hsame]
  by_cases hkj : k = j
  · subst hkj
    rw [Function.update_self, hkeys]
    simpa [Links.drain, messagesFrom] using hafter i hi
  · rw [Function.update_of_ne hkj]
    simpa [Links.drain, hkj] using h i hi k hk

/-- A node that sends continues its own chain. -/
theorem KeysInStep.push
    {i : UInt16} {nd : Node} {outs : List Message}
    (h : KeysInStep c nodes net)
    (hchain : SentChain i (nodes i).myNextKeyPair.publicKey outs nd.myNextKeyPair.publicKey)
    (hkeys : nd.valSigKeys = (nodes i).valSigKeys) :
    KeysInStep c (Function.update nodes i nd) (net.push c.vals i outs) := by
  intro k hk j hj
  have hstored : (Function.update nodes i nd j).valSigKeys = (nodes j).valSigKeys := by
    by_cases hji : j = i
    · subst hji
      simpa using hkeys
    · simp [hji]
  rw [hstored]
  have hold := h k hk j hj
  by_cases hki : k = i
  · subst hki
    have hvals : j ∈ c.vals := (Committee.mem_live.mp hj).1
    have hout : (net.push c.vals k outs).out k j = net.out k j ++ outs := by
      simp [Links.push, hvals]
    rw [Function.update_self, hout, ← List.append_assoc]
    exact hold.append hchain
  · have hout : (net.push c.vals i outs).out k j = net.out k j := by
      simp [Links.push, hki]
    rw [Function.update_of_ne hki, hout]
    exact hold

/-- A message that arrives takes the place of the one that was sent. -/
theorem KeysInStep.transfer
    {i j : UInt16} {m m' : Message} {rest : List Message}
    (h : KeysInStep c nodes net)
    (hout : net.out i j = m :: rest)
    (hsigner : m'.block.validatorId = i)
    (hid : m'.block.validatorId = m.block.validatorId)
    (hnext : m'.block.validatorNextPublicKey = m.block.validatorNextPublicKey)
    (hvalid : ∀ key, m.block.ValidUnder key → m'.block.ValidUnder key) :
    KeysInStep c nodes (net.transfer i j rest m') := by
  intro k hk l hl
  have hold := h k hk l hl
  by_cases hlj : l = j
  · subst hlj
    by_cases hki : k = i
    · subst hki
      rw [hout] at hold
      obtain ⟨key, hchain, hknown⟩ := hold
      refine ⟨key, ?_, hknown⟩
      simpa [Links.transfer, messagesFrom, hsigner] using hchain.replace hid hnext hvalid
    · have hskip : ¬ i = k := fun hik => hki hik.symm
      simpa [Links.transfer, messagesFrom, hki, hsigner, hskip] using hold
  · have hsame : (net.transfer i j rest m').out k l = net.out k l := by
      by_cases hki : k = i
      · subst hki
        simp [Links.transfer, hlj]
      · simp [Links.transfer, hki]
    rw [hsame]
    simpa [Links.transfer, hlj] using hold

end Links

/-- The histories after the first action of a run. -/
theorem history_act_first
    {c : Committee} {s : LinkState} {j : UInt16} {nd : Node} {evs : List NodeEvent}
    (hlog : s.log = [])
    (i : UInt16) :
    history i (s.act c j nd evs).log = if i = j then evs.reverse else [] := by
  show history i (s.toSystemState.record j _ _).log = _
  split_ifs with hi
  · rw [hi, record_history_self, hlog]
    exact List.append_nil _
  · rw [record_history_of_ne _ hi, hlog]
    rfl

section Simulation

variable [P : Platform]

/-- The block passes `Block::verify` at every live node. -/
def VerifiedEverywhere (c : Committee) (b : Block) (s : SystemState) : Prop :=
  ∀ i, c.Correct i → b.verify (s.nodes i).utxolist (s.nodes i).walletIds = true

/-- The condition on a step: only `b` is proposed, once, and all live nodes verify it. -/
def ProposesOnly (c : Committee) (b : Block) (s : LinkState) : LinkAction → Prop
  | .propose b' => b' = b ∧ proposals s.log = [] ∧ VerifiedEverywhere c b s.toSystemState
  | _ => True

/-- The states of runs in which only `b` is proposed. -/
def SingleReachable (c : Committee) (b : Block) : LinkState → Prop :=
  Reachable (LinkInit c) (Guarded (ProposesOnly c b) (LinkStep c))

/-- A correct node is summed up by its tally and will verify the block. -/
structure InLine (c : Committee) (b : Block) (i : UInt16) (nd : Node) (tally : Tally) : Prop where
  tracks : Tracks b.header (b.txs.map wireTransaction) nd tally false
  passes : Passes b.header (b.txs.map wireTransaction) nd
  configured : Configured c i nd

/-- The events take one tally to the other, as far as they are counted in it. -/
structure Noted (b : Block) (evs : List NodeEvent) (tally tally' : Tally) : Prop where
  accepted : tally'.accepted = tally.accepted + deliveries b.header.getID evs
  echoed : tally'.echoSent = tally.echoSent + sentMessages isEcho evs
  restarted : tally'.restarts = tally.restarts + evs.count .restarted

/-- The system after the proposal of `b` is summed up by the votes. -/
structure Matches (c : Committee) (b : Block) (s : LinkState) (t : VoteState) : Prop where
  nodes : ∀ i, c.Correct i → InLine c b i (s.nodes i) (t.tallies i)
  carries : Carries c b s.net t.net
  keys : KeysInStep c s.nodes s.net
  alive : s.terminated = ∅
  proposed : proposals s.log = [b]
  byLeader : (c.leader, .proposed b) ∈ s.log
  noted : ∀ i, c.Correct i → Noted b (history i s.log) {} (t.tallies i)

variable {c : Committee} {b : Block} {s : LinkState} {t : VoteState}

theorem SentChain.signer
    {id : UInt16} {msgs : List Message} {key' : SigKey} :
    ∀ {key : SigKey}, SentChain id key msgs key' → ∀ m ∈ msgs, m.block.validatorId = id := by
  induction msgs with
  | nil =>
      intro key _ m hm
      cases hm
  | cons x msgs ih =>
      intro key h
      exact List.forall_mem_cons.mpr ⟨h.1, ih h.2.2⟩

/-- What a node sends about the block is sendable. -/
theorem Sends.sendable
    {nd nd' : Node} {types : List MsgType} {outs : List Message}
    (h : Sends b.header (b.txs.map wireTransaction) nd types nd' outs)
    (henc : Encodable b.txs)
    (htypes : ∀ type ∈ types, type ≠ .other) :
    ∀ m ∈ outs, Sendable b nd.id m := by
  intro m hm
  have hbody := h.body m hm
  refine ⟨h.chain.signer m hm, hbody.header, ?_, hbody.immutable, ?_, h.writable m hm, ?_⟩
  · rw [hbody.txs]
    simp
  · rw [hbody.txs]
    exact encodable_map_wireTransaction henc
  · apply htypes
    rw [← h.types]
    exact List.mem_map_of_mem hm

/-- One node moves: the other nodes and their tallies stay. -/
theorem forall_inLine_update
    {nodes : UInt16 → Node} {tallies : UInt16 → Tally}
    (h : ∀ i, c.Correct i → InLine c b i (nodes i) (tallies i))
    {j : UInt16} {nd : Node} {tally : Tally}
    (hj : InLine c b j nd tally) :
    ∀ i, c.Correct i →
      InLine c b i (Function.update nodes j nd i) (Function.update tallies j tally i) := by
  intro i hi
  by_cases hij : i = j
  · subst hij
    simpa using hj
  · simpa [hij] using h i hi

theorem Noted.append
    {evs hist : List NodeEvent} {tally tally' tally'' : Tally}
    (h : Noted b hist tally tally')
    (h' : Noted b evs tally' tally'') :
    Noted b (evs.reverse ++ hist) tally tally'' := by
  have hdeliveries : deliveries b.header.getID (evs.reverse ++ hist) =
      deliveries b.header.getID evs + deliveries b.header.getID hist := by
    simp [deliveries, List.countP_append, List.countP_reverse]
  refine ⟨?_, ?_, ?_⟩
  · rw [hdeliveries, h'.accepted, h.accepted]
    omega
  · rw [sentMessages_append, sentMessages_reverse, h'.echoed, h.echoed]
    omega
  · rw [List.count_append, List.count_reverse, h'.restarted, h.restarted]
    omega

/-- A node that has moved in line with its tally. -/
theorem Matches.act
    {j : UInt16} {nd : Node} {evs : List NodeEvent} {tally : Tally}
    {types : Links UInt16 MsgType}
    (h : Matches c b s t)
    (net : Links UInt16 Message)
    (hnode : InLine c b j nd tally)
    (hcarries : Carries c b (net.push c.vals j (broadcastMessages evs)) types)
    (hkeys : KeysInStep c (Function.update s.nodes j nd)
      (net.push c.vals j (broadcastMessages evs)))
    (hproposed : ∀ b, .proposed b ∉ evs)
    (hnoted : Noted b evs (t.tallies j) tally) :
    Matches c b (LinkState.act { s with net := net } c j nd evs)
      ⟨Function.update t.tallies j tally, types⟩ where
  nodes := forall_inLine_update h.nodes hnode
  carries := hcarries
  keys := hkeys
  alive := h.alive
  proposed := (proposals_record _ j nd hproposed).trans h.proposed
  byLeader := List.mem_append_right _ h.byLeader
  noted := by
    intro i hi
    show Noted b (history i (s.toSystemState.record j nd evs).log) {}
      (Function.update t.tallies j tally i)
    by_cases hij : i = j
    · subst hij
      rw [record_history_self, Function.update_self]
      exact (h.noted i hi).append hnoted
    · rw [record_history_of_ne _ hij, Function.update_of_ne hij]
      exact h.noted i hi

/-- The accepted hashes are read off the tallies. -/
theorem delivered_iff
    {i : UInt16}
    (h : Matches c b s t)
    (hi : c.Correct i) :
    (i, .delivered b.header.getID) ∈ s.log ↔ 0 < (t.tallies i).accepted := by
  rw [(h.noted i hi).accepted, Nat.zero_add, deliveries, List.countP_pos_iff, ← mem_history]
  simp

theorem matches_restart
    {j : UInt16}
    (h : Matches c b s t)
    (hj : c.Correct j) :
    Matches c b (s.act c j ((s.nodes j).runProtocol true) [.restarted])
      { t with tallies := Function.update t.tallies j (t.tallies j).restart } := by
  obtain ⟨ht, hpass, hconf⟩ := h.nodes j hj
  have hnone : broadcastMessages [.restarted] = [] := rfl
  refine h.act s.net ⟨?_, hpass, hconf.id, hconf.n, hconf.f⟩ ?_ ?_ ?_ ⟨rfl, rfl, rfl⟩
  · exact ⟨ht.echo, ht.ready, ht.readySent, rfl, ht.send, ht.known, ht.voted, ht.key⟩
  · rw [hnone, Links.push_nil]
    exact h.carries
  · rw [hnone]
    exact h.keys.push rfl rfl
  · simp

/-- A new node is in line with the empty tally. -/
theorem inLine_new
    {i : UInt16} {utxolist : UTXOlist} {walletIds : List UInt32}
    (hver : b.verify utxolist walletIds = true)
    (isLead : Bool) (urandom : Nat → Draw) (erasedRead : Nat → Str → Str) :
    InLine c b i
      (Node.setUTXOlists (Node.new i c.n c.f isLead urandom erasedRead) utxolist walletIds) {} := by
  have htracks : Tracks b.header (b.txs.map wireTransaction)
      (Node.new i c.n c.f isLead urandom erasedRead) {} false :=
    tracks_new _ _ _ _ _ _
  refine ⟨{ htracks with }, ?_, rfl, rfl, rfl⟩
  intro b' hb'
  rw [← verify_of_wired hb'.txs] at hver
  simp [passesVerify, Node.setUTXOlists, hver]

/-- Drawing the next key pair leaves the votes alone. -/
theorem InLine.rotateKeys
    {i : UInt16} {nd : Node} {tally : Tally}
    (h : InLine c b i nd tally) :
    InLine c b i nd.rotateKeys tally where
  tracks := { h.tracks with key := keyGen_wellFormed _ }
  passes := h.passes
  configured := ⟨h.configured.id, h.configured.n, h.configured.f⟩

/-- Nothing is on its way in the beginning. -/
theorem carries_empty :
    Carries c b Links.empty Links.empty :=
  ⟨fun _ _ => rfl, fun _ => rfl, fun _ _ _ hm => absurd hm List.not_mem_nil,
    fun _ _ hm => absurd hm List.not_mem_nil⟩

variable [LawfulPlatform P]

/-- A sendable message arrives, with the same signature and next key. -/
theorem Sendable.wire
    {i : UInt16} {m : Message}
    (h : Sendable b i m) :
    ∃ m', m.wire = .ok m' ∧ m'.type = m.type ∧
      OfBlock b.header (b.txs.map wireTransaction) m'.block ∧
      (∃ digest, m'.block.getDigest = .ok digest) ∧
      m'.block.validatorId = m.block.validatorId ∧
      m'.block.validatorNextPublicKey = m.block.validatorNextPublicKey ∧
      ∀ key, m.block.ValidUnder key → m'.block.ValidUnder key := by
  obtain ⟨text, htext⟩ := h.writable
  obtain ⟨m', hwire⟩ := exists_wire h.immutable h.encodable htext
  obtain ⟨htype, hheader, hsigner, _, hmut⟩ := wire_eq_ok hwire
  obtain ⟨htxs, hnext, _⟩ := wire_block hwire
  obtain ⟨hdigest, hvalid⟩ := wire_getDigest hwire h.immutable
  refine ⟨m', hwire, ?_, ⟨?_, ?_, hmut⟩, ?_, hsigner, hnext, hvalid⟩
  · rw [htype, fromProto_toProto h.type]
  · rw [hheader, h.header]
  · rw [htxs, h.txs]
  · rw [hdigest]
    exact Block.exists_getDigest h.immutable htext

theorem matches_transfer
    {i j : UInt16} {m : Message} {rest : List Message}
    (h : Matches c b s t)
    (hout : s.net.out i j = m :: rest) :
    ∃ m', m.wire = .ok m' ∧
      Matches c b { s with net := s.net.transfer i j rest m' }
        { t with net := t.net.transfer i j (rest.map fun m => m.type) m.type } := by
  obtain ⟨hi, hsend⟩ := h.carries.sendable i j m (by rw [hout]; simp)
  obtain ⟨m', hwire, htype, hblock, hdigest, hid, hnext, hvalid⟩ := hsend.wire
  have hsigner : m'.block.validatorId = i := hid.trans hsend.signer
  refine ⟨m', hwire, h.nodes, ?_, ?_, h.alive, h.proposed, h.byLeader, h.noted⟩
  · exact h.carries.transfer hout htype ⟨hblock, hdigest, hsigner ▸ hi⟩
  · exact h.keys.transfer hout hsigner hid hnext hvalid

/-- The task of a node has one outcome, the one of its tally. -/
theorem matches_runTask
    {j : UInt16}
    (h : Matches c b s t)
    (henc : Encodable b.txs)
    (hj : c.Correct j) :
    ∃ nd evs,
      (∀ nd' evs', (s.nodes j).RunTask (s.net.inbox j) nd' evs' ↔ nd' = nd ∧ evs' = evs) ∧
      Matches c b (LinkState.act { s with net := s.net.drain j } c j nd evs)
        ⟨Function.update t.tallies j
            ((t.tallies j).task c.echoThreshold c.f (t.net.inbox j)).1,
          (t.net.drain j).push c.vals j
            ((t.tallies j).task c.echoThreshold c.f (t.net.inbox j)).2⟩ := by
  have hlive : j ∈ c.live := Committee.mem_live.mpr hj
  obtain ⟨htally, hverifies, hconf⟩ := h.nodes j hj
  have hpos : 0 < ((s.nodes j).n + (s.nodes j).f + 1) / 2 := by
    have hn : 0 < c.n := Finset.card_pos.mpr ⟨c.leader, c.leader_mem⟩
    rw [hconf.n]
    omega
  have hsigners : ∀ m ∈ s.net.inbox j, m.block.validatorId ∈ c.live :=
    fun m hm => (h.carries.arrived j m hm).signer
  have hgood : GoodBatch b.header (b.txs.map wireTransaction) (s.nodes j) (s.net.inbox j) := by
    refine ⟨(acceptsAll_of_pending _ _ hsigners fun i hi => h.keys i hi j hlive).1, ?_⟩
    intro m hm
    have harrived := h.carries.arrived j m hm
    exact ⟨harrived.block, harrived.digest⟩
  obtain ⟨nd₁, nd, outs, hiff, hsame, hkeys, hpass, hsends, htracks⟩ :=
    runTask_iff_tally htally hverifies hgood hpos
  have hthreshold : ((s.nodes j).n + (s.nodes j).f + 1) / 2 = c.echoThreshold := by
    rw [hconf.n, hconf.f]
    rfl
  rw [hthreshold, hconf.f, h.carries.inbox j] at hsends htracks
  rw [hconf.f, h.carries.inbox j] at hiff
  obtain ⟨hmessages, hproposed, hdeliveries, hrestarts⟩ := taskEvents_spec (s.net.inbox j) outs c.f
    ((t.tallies j).recv (t.net.inbox j)).ready b.header.getID
  have hid : nd₁.id = j := hsame.id.trans hconf.id
  refine ⟨nd, _, hiff, h.act _ ⟨htracks, hsends.passes hpass, ?_⟩ ?_ ?_ hproposed ⟨?_, ?_, ?_⟩⟩
  · exact ⟨hsends.id.trans hid, hsends.n.trans (hsame.n.trans hconf.n),
      hsends.f.trans (hsame.f.trans hconf.f)⟩
  · rw [hmessages, ← hsends.types]
    apply (h.carries.drain j).push hlive
    rw [← hid]
    exact hsends.sendable henc Tally.task_types
  · rw [hmessages]
    have hdrained := (h.keys.drain hlive hsigners hkeys hsame.key).2
    have hpushed : KeysInStep c (Function.update (Function.update s.nodes j nd₁) j nd)
        ((s.net.drain j).push c.vals j outs) := by
      apply hdrained.push
      · rw [Function.update_self, ← hid]
        exact hsends.chain
      · rw [Function.update_self]
        exact hsends.keys
    rwa [Function.update_idem] at hpushed
  · rw [hdeliveries, Tally.task_accepted]
  · rw [(Tally.task_count _ _ _ _).2.1, sentMessages, hmessages, ← hsends.types, List.count,
      List.countP_map]
    rfl
  · rw [(Tally.task_seen _ _ _ _).2.2.2, hrestarts, Nat.add_zero]

/-- The proposal leads to the start of the votes. -/
theorem matches_propose
    (hinit : LinkInit c s)
    (hleader : c.Correct c.leader)
    (hmut : b.isMutable = false)
    (henc : Encodable b.txs)
    (hverified : VerifiedEverywhere c b s.toSystemState) :
    ∃ nd evs, (s.nodes c.leader).propose b = .ok (nd, evs) ∧
      Matches c b (s.act c c.leader nd evs) (VoteState.start c) := by
  obtain ⟨⟨urandom, erasedRead, utxolist, walletIds, hs⟩, hnet, halive⟩ := hinit
  have hlog : s.log = [] := by
    rw [hs]
    rfl
  have hnew : ∀ i, c.Correct i → InLine c b i (s.nodes i) {} := by
    intro i hi
    have hver := hverified i hi
    rw [hs] at hver ⊢
    exact inLine_new hver _ _ _
  obtain ⟨hline, hpass, hconf⟩ := hnew c.leader hleader
  obtain ⟨m, hprop⟩ := exists_propose _ hline.key hmut
  obtain ⟨_, m', hsigns, hev⟩ := propose_eq_ok hprop
  obtain rfl : m = m' := by simpa using hev
  obtain ⟨hchain, hwritable⟩ := Signs.chain hline.key hsigns
  obtain ⟨htype, hheader, htxs, hid⟩ := Signs.type_eq hsigns
  have himm : m.block.isMutable = false := by
    obtain ⟨_, digest, rfl, _⟩ := hsigns
    exact hmut
  refine ⟨(s.nodes c.leader).rotateKeys, [.proposed b, .broadcast m], hprop, ?_, ?_, ?_, halive,
    ?_, ?_, ?_⟩
  · have hrotated : InLine c b c.leader (s.nodes c.leader).rotateKeys {} :=
      (hnew c.leader hleader).rotateKeys
    have hall : ∀ i, c.Correct i → InLine c b i
        (Function.update s.nodes c.leader (s.nodes c.leader).rotateKeys i)
        (Function.update (fun _ => ({} : Tally)) c.leader {} i) :=
      forall_inLine_update hnew hrotated
    rwa [Function.update_eq_self_iff.mpr rfl] at hall
  · have hempty : Carries c b s.net Links.empty := by
      rw [hnet]
      exact carries_empty
    have hsend : Sendable b c.leader m :=
      ⟨hid.trans hconf.id, hheader, by rw [htxs], himm, by rw [htxs]; exact henc, hwritable,
        by rw [htype]; decide⟩
    have hpush := hempty.push (Committee.mem_live.mpr hleader)
      (List.forall_mem_singleton.mpr hsend)
    rw [List.map_singleton, htype] at hpush
    exact hpush
  · have hempty : KeysInStep c s.nodes s.net := by
      intro i _ j _
      rw [hnet, hs]
      exact ⟨_, rfl, fun k hk => by cases hk⟩
    refine hempty.push ?_ rfl
    rw [hconf.id] at hchain
    exact hchain
  · simp [LinkState.act, SystemState.record, proposals, hlog]
  · simp [LinkState.act, SystemState.record]
  · intro i _
    rw [history_act_first hlog]
    split_ifs
    · refine ⟨rfl, ?_, rfl⟩
      simp [sentMessages, isEcho, broadcastMessages, htype, VoteState.start]
    · exact ⟨rfl, rfl, rfl⟩

/-- A run with a single proposal has not proposed yet or is summed up by the votes. -/
def Summed (c : Committee) (b : Block) (s : LinkState) : Prop :=
  LinkInit c s ∨ ∃ t, VoteReachable c t ∧ Matches c b s t

/-- From the initial state only the proposal is possible. -/
theorem summed_of_init
    {a : LinkAction} {s' : LinkState}
    (henc : Encodable b.txs)
    (hinit : LinkInit c s)
    (hguard : ProposesOnly c b s a)
    (hstep : LinkStep c s a s') :
    Summed c b s' := by
  have hnet := hinit.2.1
  cases hstep with
  | propose b' nd evs hleader halive hprop =>
      obtain ⟨rfl, _, hverified⟩ := hguard
      obtain ⟨_, m, hsigns, _⟩ := propose_eq_ok hprop
      obtain ⟨nd', evs', hprop', hmatch⟩ :=
        matches_propose hinit hleader hsigns.1 henc hverified
      obtain ⟨rfl, rfl⟩ := Prod.mk.inj (Except.ok.inj (hprop.symm.trans hprop'))
      exact Or.inr ⟨_, .start rfl, hmatch⟩
  | transfer i j m m' rest hj hout hwire =>
      rw [hnet] at hout
      cases hout
  | terminate i j m rest e hout herror =>
      rw [hnet] at hout
      cases hout
  | runTask j nd evs hj halive hrunning hnew htask =>
      rw [hnet] at hnew
      exact absurd rfl hnew
  | restart j hj halive hreturned =>
      obtain ⟨⟨urandom, erasedRead, utxolist, walletIds, hs⟩, _⟩ := hinit
      rw [hs] at hreturned
      cases hreturned

/-- After the proposal every step is a step of the votes. -/
theorem matches_step
    {a : LinkAction} {s' : LinkState}
    (henc : Encodable b.txs)
    (h : Matches c b s t)
    (hguard : ProposesOnly c b s a)
    (hstep : LinkStep c s a s') :
    ∃ a' t', t.step c a' = some t' ∧ Matches c b s' t' := by
  cases hstep with
  | propose b' nd evs hleader halive hprop =>
      have hnone := hguard.2.1
      rw [h.proposed] at hnone
      cases hnone
  | transfer i j m m' rest hj hout hwire =>
      obtain ⟨m'', hwire', hmatch⟩ := matches_transfer h hout
      obtain rfl := Except.ok.inj (hwire.symm.trans hwire')
      refine ⟨.transfer i j, _, ?_, hmatch⟩
      have hout' := h.carries.out i j
      rw [hout, List.map_cons] at hout'
      simp [VoteState.step, ← hout', hj]
  | terminate i j m rest e hout herror =>
      obtain ⟨m', hwire, _⟩ := matches_transfer h hout
      rw [Message.wire, herror] at hwire
      cases hwire
  | runTask j nd evs hj halive hrunning hnew htask =>
      obtain ⟨nd', evs', hiff, hmatch⟩ := matches_runTask h henc hj
      obtain ⟨rfl, rfl⟩ := (hiff nd evs).mp htask
      refine ⟨.runTask j, _, ?_, hmatch⟩
      have hrunning' : (t.tallies j).running = true := by
        rw [← (h.nodes j hj).tracks.running]
        exact hrunning
      have hnew' : t.net.inbox j ≠ [] := by
        rw [← h.carries.inbox j]
        simpa using hnew
      simp [VoteState.step, Committee.mem_live.mpr hj, hrunning', hnew']
  | restart j hj halive hreturned =>
      refine ⟨.restart j, _, ?_, matches_restart h hj⟩
      have hreturned' : (t.tallies j).running = false := by
        rw [← (h.nodes j hj).tracks.running]
        exact hreturned
      simp [VoteState.step, Committee.mem_live.mpr hj, hreturned']

theorem summed_of_reachable
    (henc : Encodable b.txs)
    (hs : SingleReachable c b s) :
    Summed c b s := by
  have hpreserved : ∀ s a s', Summed c b s →
      Guarded (ProposesOnly c b) (LinkStep c) s a s' → Summed c b s' := by
    rintro s a s' (hinit | ⟨t, ht, hmatch⟩) ⟨hguard, hstep⟩
    · exact summed_of_init henc hinit hguard hstep
    · obtain ⟨a', t', hvote, hmatch'⟩ := matches_step henc hmatch hguard hstep
      exact Or.inr ⟨t', ht.next hvote, hmatch'⟩
  exact hs.invariant (fun s hinit => Or.inl hinit) hpreserved

/-- There is at most the one proposal. -/
theorem proposals_of_single
    (henc : Encodable b.txs)
    (hs : SingleReachable c b s) :
    proposals s.log = [] ∨ proposals s.log = [b] := by
  rcases summed_of_reachable henc hs with hinit | ⟨t, _, hmatch⟩
  · obtain ⟨⟨urandom, erasedRead, utxolist, walletIds, hs₀⟩, _⟩ := hinit
    rw [hs₀]
    exact Or.inl rfl
  · exact Or.inr hmatch.proposed

/-- Every step of the votes is taken by the validators. -/
theorem exists_linkStep
    {a : VoteAction} {t' : VoteState}
    (henc : Encodable b.txs)
    (h : Matches c b s t)
    (hstep : t.step c a = some t') :
    ∃ a' s', ProposesOnly c b s a' ∧ LinkStep c s a' s' ∧ Matches c b s' t' := by
  have halive : ∀ j, j ∉ s.terminated := by
    intro j
    rw [h.alive]
    exact Finset.notMem_empty j
  rcases VoteState.step_cases hstep with
    ⟨i, j, type, rest, _, hj, hout, rfl⟩ | ⟨j, _, hj, hrunning, hnew, rfl⟩ |
    ⟨j, _, hj, hreturned, rfl⟩
  · have hout' := h.carries.out i j
    rw [hout] at hout'
    obtain ⟨m, rest', hnet, rfl, rfl⟩ := List.map_eq_cons_iff.mp hout'
    obtain ⟨m', hwire, hmatch⟩ := matches_transfer h hnet
    exact ⟨.transfer i j, _, trivial, .transfer s i j m m' rest' hj hnet hwire, hmatch⟩
  · have hcorrect := Committee.mem_live.mp hj
    obtain ⟨nd, evs, hiff, hmatch⟩ := matches_runTask h henc hcorrect
    refine ⟨.runTask j, _, trivial, .runTask s j nd evs hcorrect (halive j) ?_ ?_
      ((hiff nd evs).mpr ⟨rfl, rfl⟩), hmatch⟩
    · rw [(h.nodes j hcorrect).tracks.running]
      exact hrunning
    · rw [← h.carries.inbox j] at hnew
      simpa using hnew
  · have hcorrect := Committee.mem_live.mp hj
    refine ⟨.restart j, _, trivial, .restart s j hcorrect (halive j) ?_, matches_restart h hcorrect⟩
    rw [(h.nodes j hcorrect).tracks.running]
    exact hreturned

theorem exists_linkSteps
    (henc : Encodable b.txs)
    {acts : List VoteAction} {t' : VoteState} :
    ∀ {s : LinkState} {t : VoteState}, SingleReachable c b s → Matches c b s t →
      t.run c acts = some t' →
      ∃ s', SingleReachable c b s' ∧ Matches c b s' t' ∧
        ∀ i, (s'.nodes i).erasedRead = (s.nodes i).erasedRead := by
  induction acts with
  | nil =>
      intro s t hs h hrun
      obtain rfl := Option.some.inj hrun
      exact ⟨s, hs, h, fun _ => rfl⟩
  | cons a acts ih =>
      intro s t hs h hrun
      obtain ⟨t₁, hstep, hrest⟩ := Option.bind_eq_some_iff.mp hrun
      obtain ⟨a', s₁, hguard, hlink, hmatch⟩ := exists_linkStep henc h hstep
      obtain ⟨s', hs', hmatch', hreads⟩ := ih (hs.next_guarded hlink hguard) hmatch hrest
      exact ⟨s', hs', hmatch', fun i => (hreads i).trans (hlink.erasedRead_eq i)⟩

/--
A run of the votes that ends in a state with property `p` is one of the
validators, on a block they all verify; the memory of erased keys is kept in it.
-/
theorem exists_linkRun
    (utxolist : UInt16 → UTXOlist) (walletIds : UInt16 → List UInt32)
    (hleader : c.Correct c.leader)
    (hmut : b.isMutable = false)
    (henc : Encodable b.txs)
    (hverified : ∀ i, c.Correct i → b.verify (utxolist i) (walletIds i) = true)
    (urandom : UInt16 → Nat → Draw)
    (acts : List VoteAction) {p : VoteState → Bool}
    (hrun : ((VoteState.start c).run c acts).any p = true) :
    ∃ s t, SingleReachable c b s ∧ Matches c b s t ∧ p t = true ∧
      ∀ i, (s.nodes i).erasedRead = keptRead := by
  obtain ⟨t, ht, hp⟩ := (Option.any_eq_true p _).mp hrun
  let s₀ : LinkState :=
    { SystemState.initial c urandom (fun _ => keptRead) utxolist walletIds with
      net := Links.empty }
  have hinit : LinkInit c s₀ := ⟨⟨urandom, _, utxolist, walletIds, rfl⟩, rfl, rfl⟩
  obtain ⟨nd, evs, hprop, hmatch⟩ := matches_propose hinit hleader hmut henc hverified
  have hstep : LinkStep c s₀ (.propose b) (s₀.act c c.leader nd evs) :=
    .propose s₀ b nd evs hleader (Finset.notMem_empty _) hprop
  obtain ⟨s, hs, hsmatch, hreads⟩ := exists_linkSteps henc
    ((Reachable.start hinit).next_guarded hstep ⟨rfl, rfl, hverified⟩) hmatch ht
  exact ⟨s, t, hs, hsmatch, hp, fun i => (hreads i).trans (hstep.erasedRead_eq i)⟩

end Simulation

section Lockstep

/-- All transfers between the given nodes, one message for each pair. -/
def transfers (nodes : List UInt16) : List VoteAction :=
  nodes.flatMap fun i => nodes.map fun j => .transfer i j

/-- The steps after the proposal when all nodes move at the same pace. -/
def lockstep (leader : UInt16) (nodes : List UInt16) : List VoteAction :=
  nodes.map (fun j => .transfer leader j) ++ nodes.map .runTask ++
    transfers nodes ++ nodes.map .runTask ++ transfers nodes ++ nodes.map .runTask

/-- A finalized block without transactions. -/
def emptyBlock : Block :=
  { empty := false, isMutable := false }

/-- Two validators. -/
def twoValidators : Committee where
  vals := {0, 1}
  f := 0
  leader := 0
  byz := ∅
  leader_mem := by decide
  byz_subset := by decide
  byz_card := by decide
  card_lt := by decide

/-- Four validators of which the last one is faulty. -/
def oneOfFour : Committee where
  vals := {0, 1, 2, 3}
  f := 1
  leader := 0
  byz := {3}
  leader_mem := by decide
  byz_subset := by decide
  byz_card := by decide
  card_lt := by decide

variable [P : Platform] [LawfulPlatform P]

/-- Every run of the votes is one of the validators on the empty block. -/
theorem exists_emptyBlock_run
    {c : Committee}
    (hleader : c.Correct c.leader)
    (acts : List VoteAction) (p : VoteState → Bool)
    (hrun : ((VoteState.start c).run c acts).any p = true) :
    ∃ s t, SingleReachable c emptyBlock s ∧ Matches c emptyBlock s t ∧ p t = true ∧
      ∀ i, (s.nodes i).erasedRead = keptRead :=
  exists_linkRun (fun _ => []) (fun _ => []) hleader rfl ⟨[], rfl⟩ (fun _ _ => rfl)
    (fun _ _ _ => (equalBytes 0, equalBytes 0)) acts hrun

/-- Two validators in lockstep accept a block, which is then in the log of a run. -/
theorem exists_accepted
    {b : Block}
    (utxolist : UTXOlist) (walletIds : List UInt32)
    (hmut : b.isMutable = false)
    (henc : Encodable b.txs)
    (hverified : b.verify utxolist walletIds = true) :
    ∃ s, SystemReachable twoValidators s ∧ proposals s.log = [b] ∧
      (0, .delivered b.header.getID) ∈ s.log := by
  obtain ⟨s, t, hs, hmatch, hend, _⟩ := exists_linkRun (c := twoValidators) (b := b)
    (p := fun t => decide (0 < (t.tallies 0).accepted)) (fun _ => utxolist) (fun _ => walletIds)
    (by decide) hmut henc (fun _ _ => hverified) (fun _ _ _ => (equalBytes 0, equalBytes 0))
    (lockstep 0 [0, 1]) (by decide +kernel)
  refine ⟨s.toSystemState, (systemReachable_of_link (hs.mono fun _ _ _ h => h.2)).1,
    hmatch.proposed, ?_⟩
  exact (delivered_iff hmatch (by decide)).mpr (of_decide_eq_true hend)

end Lockstep

end CosiCoin
