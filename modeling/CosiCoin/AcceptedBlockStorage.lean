import CosiCoin.BrachaNodeSteps
import CosiCoin.EventHandling
import CosiCoin.ReferencePlatform

/-!
# COSICOIN: handing accepted blocks to the ledger

Three threads take part.  The consensus thread appends hashes to
`accepted_blocks_`.  `DBProcess` tests `isConsensus`, assigns
`blist_ = getConsensusBlocks(true)`, which empties `accepted_blocks_`, and unless
the list is empty publishes `DBSTORE` and subscribes a task to it.  The event
thread pops an event and runs the tasks subscribed to it; the `DBSTORE` task
passes every block of `blist_` to `OnAgreeBlk` and clears the list.

`blist_` is the only place where the blocks are kept in between.  The next round
of `DBProcess` overwrites it, with the empty list if nothing new was accepted,
and the first `DBSTORE` event may be handled before its task is subscribed.  In
both cases blocks are lost; otherwise each is applied exactly once
(`appliedOnce_of_handedOver`).
-/

namespace CosiCoin

open LabelledRuns Node

/-- `Node::isConsensus`. -/
def Node.isConsensus (nd : Node) : Bool :=
  !nd.shouldBroadcast

/-- A task of the event loop: the one for `DBSTORE`, or that of another thread. -/
inductive StoreTask where
  | store
  | other
deriving DecidableEq

/-- The next statement of `DBProcess`: the test, the assignment, the two halves of `runInLoop`. -/
inductive StorePhase where
  | test
  | assign
  | publish
  | subscribe
deriving DecidableEq

/--
The threads of a validator that store blocks.  `accepted` and `agreed` record
what was ever accepted and ever passed to `OnAgreeBlk`; `further` says that
`DBProcess` has completed an iteration since `accepted_blocks_` and the publish
list last changed.
-/
structure StoreState where
  node : Node
  handler : EventHandler StoreTask := {}
  blist : List Block := []
  phase : StorePhase := .test
  current : Option Event := .none
  further : Bool := false
  accepted : List Str := []
  agreed : List Block := []

/-- The task passed to the loop by `DBProcess`; other tasks leave the blocks alone. -/
def StoreState.runTask (s : StoreState) : StoreTask → StoreState
  | .store => { s with agreed := s.agreed ++ s.blist, blist := [] }
  | .other => s

/-- The steps of the threads. -/
inductive StoreAction where
  | accept (blkHash : Str)
  | consensus
  | test
  | assign
  | publish
  | subscribe
  | otherPublish (event : Event)
  | otherSubscribe (event : Event)
  | pop
  | run

section Steps

variable [Platform]

/--
What the consensus thread does besides accepting: it leaves `accepted_blocks_`
alone, keeps the header of every block it holds and stores new blocks under
their own hash.
-/
structure Undelivered (nd nd' : Node) : Prop where
  accepted : nd'.acceptedBlocks = nd.acceptedBlocks
  blocks : ∀ h,
    (nd'.blocks.lookup h).map Block.header = (nd.blocks.lookup h).map Block.header ∨
    (nd.blocks.lookup h = .none ∧ ∃ b, nd'.blocks.lookup h = some b ∧ b.header.getID = h)

/-- One step of the threads. -/
inductive StoreStep : StoreState → StoreAction → StoreState → Prop
  | accept
      (s : StoreState) (blkHash : Str)
      (hheld : (s.node.blocks.lookup blkHash).isSome = true) :
      StoreStep s (.accept blkHash)
        { s with
          node := s.node.deliver blkHash blkHash
          further := false
          accepted := s.accepted ++ [blkHash] }
  | consensus
      (s : StoreState) (nd : Node)
      (hsame : Undelivered s.node nd) :
      StoreStep s .consensus { s with node := nd }
  | testTrue
      (s : StoreState)
      (hphase : s.phase = .test)
      (hconsensus : s.node.isConsensus = true) :
      StoreStep s .test { s with phase := .assign }
  | testFalse
      (s : StoreState)
      (hphase : s.phase = .test)
      (hconsensus : s.node.isConsensus = false) :
      StoreStep s .test { s with further := true }
  | assignEmpty
      (s : StoreState) (nd : Node)
      (hphase : s.phase = .assign)
      (htake : s.node.getConsensusBlocks true = ([], nd)) :
      StoreStep s .assign { s with node := nd, blist := [], phase := .test, further := true }
  | assign
      (s : StoreState) (blocks : List Block) (nd : Node)
      (hphase : s.phase = .assign)
      (htake : s.node.getConsensusBlocks true = (blocks, nd))
      (hblocks : blocks ≠ []) :
      StoreStep s .assign
        { s with node := nd, blist := blocks, phase := .publish, further := false }
  | publish
      (s : StoreState)
      (hphase : s.phase = .publish) :
      StoreStep s .publish
        { s with
          handler := s.handler.publishEvent .dbstore
          phase := .subscribe
          further := false }
  | subscribe
      (s : StoreState)
      (hphase : s.phase = .subscribe) :
      StoreStep s .subscribe
        { s with handler := s.handler.subscriberEvent .dbstore .store, phase := .test }
  | otherPublish
      (s : StoreState) (event : Event)
      (hevent : event ≠ .dbstore) :
      StoreStep s (.otherPublish event)
        { s with handler := s.handler.publishEvent event, further := false }
  | otherSubscribe
      (s : StoreState) (event : Event)
      (hevent : event ≠ .dbstore) :
      StoreStep s (.otherSubscribe event)
        { s with handler := s.handler.subscriberEvent event .other }
  | pop
      (s : StoreState) (event : Event) (handler : EventHandler StoreTask)
      (hidle : s.current = .none)
      (hpop : s.handler.popEvent = some (event, handler)) :
      StoreStep s .pop { s with handler := handler, current := some event, further := false }
  | run
      (s : StoreState) (event : Event)
      (hcurrent : s.current = some event) :
      StoreStep s .run
        ((s.handler.subscribers event).foldl StoreState.runTask { s with current := .none })

/-- The threads have just been started. -/
def StoreInit (s : StoreState) : Prop :=
  ∃ nd : Node, nd.acceptedBlocks = [] ∧ nd.blocks = ∅ ∧ s = { node := nd }

/--
`accepted_blocks_` and the publish list are empty, `DBProcess` has completed a
further iteration and the event thread is idle.
-/
def StoreState.Quiescent (s : StoreState) : Prop :=
  s.node.acceptedBlocks = [] ∧ s.handler.publist = [] ∧ s.phase = .test ∧
    s.further = true ∧ s.current = .none

/-- At rest every accepted block has been passed to `OnAgreeBlk` exactly once. -/
def AppliedOnce (s : StoreState) : Prop :=
  s.Quiescent → (s.agreed.map fun b => b.header.getID).Perm s.accepted

/--
The condition on a step: `DBProcess` assigns `blist_` only when it has been
cleared, and a `DBSTORE` event is handled only when a task is subscribed to it
or there is nothing to store.
-/
def HandedOver (s : StoreState) : StoreAction → Prop
  | .assign => s.blist = []
  | .run => s.current = some .dbstore → s.blist = [] ∨ s.handler.subscribers .dbstore ≠ []
  | _ => True

end Steps

section ConsensusThread

variable [Platform]

theorem Undelivered.of_eq
    {nd nd' : Node}
    (haccepted : nd'.acceptedBlocks = nd.acceptedBlocks)
    (hblocks : nd'.blocks = nd.blocks) :
    Undelivered nd nd' := by
  refine ⟨haccepted, ?_⟩
  intro h
  rw [hblocks]
  exact Or.inl rfl

/-- Processing a message is a step of the consensus thread of this kind. -/
theorem undelivered_recvMessage
    {nd nd' : Node} {m : Message} {evs : List NodeEvent}
    (h : nd.recvMessage m = .ok (nd', evs)) :
    Undelivered nd nd' := by
  obtain ⟨⟨valid, nd₁⟩, hcheck, h⟩ := bind_eq_ok h
  obtain ⟨digest, _, hcheck⟩ := bind_eq_ok hcheck
  obtain ⟨_, hnd₁⟩ := Prod.mk.inj (Except.ok.inj hcheck)
  have hblocks : nd₁.blocks = nd.blocks := by rw [← hnd₁]
  have haccepted : nd₁.acceptedBlocks = nd.acceptedBlocks := by rw [← hnd₁]
  dsimp only at h
  split_ifs at h with hvalid hverify
  · obtain ⟨rfl, _⟩ := Prod.mk.inj (Except.ok.inj h)
    exact .of_eq haccepted hblocks
  · obtain ⟨rfl, _⟩ := Prod.mk.inj (Except.ok.inj h)
    exact .of_eq haccepted hblocks
  · obtain ⟨rfl, _⟩ := Prod.mk.inj (Except.ok.inj h)
    have hsaved : (nd₁.countMessage m).blocks = (nd₁.saveBlock m).blocks ∧
        (nd₁.countMessage m).acceptedBlocks = nd₁.acceptedBlocks := by
      rw [countMessage_eq]
      exact ⟨rfl, rfl⟩
    refine ⟨hsaved.2.trans haccepted, ?_⟩
    intro k
    rw [hsaved.1, saveBlock, hblocks]
    by_cases hk : k = m.block.header.getID
    · subst hk
      rw [AList.lookup_insert]
      cases hlookup : nd.blocks.lookup m.block.header.getID with
      | none =>
          exact Or.inr ⟨rfl, _, rfl, rfl⟩
      | some b =>
          exact Or.inl rfl
    · rw [AList.lookup_insert_ne hk]
      exact Or.inl rfl

end ConsensusThread

section Tasks

theorem foldl_runTask_other
    {tasks : List StoreTask}
    (h : ∀ task ∈ tasks, task = .other)
    (s : StoreState) :
    tasks.foldl StoreState.runTask s = s := by
  induction tasks with
  | nil =>
      rfl
  | cons task tasks ih =>
      obtain ⟨rfl, htasks⟩ := List.forall_mem_cons.mp h
      exact ih htasks

/-- However many tasks are subscribed, together they apply `blist_` once. -/
theorem foldl_runTask_store
    {tasks : List StoreTask}
    (h : ∀ task ∈ tasks, task = .store) :
    ∀ s : StoreState, s.blist = [] ∨ tasks ≠ [] →
      tasks.foldl StoreState.runTask s = { s with agreed := s.agreed ++ s.blist, blist := [] } := by
  induction tasks with
  | nil =>
      intro s hs
      have hblist := hs.resolve_right (fun hne => hne rfl)
      obtain ⟨node, handler, blist, phase, current, further, accepted, agreed⟩ := s
      have hblist : blist = [] := hblist
      subst hblist
      simp
  | cons task tasks ih =>
      intro s _
      obtain ⟨rfl, htasks⟩ := List.forall_mem_cons.mp h
      rw [List.foldl_cons, ih htasks _ (Or.inl rfl)]
      simp [StoreState.runTask]

/-- The tasks of an event move blocks from `blist_` to `OnAgreeBlk`, or none. -/
theorem foldl_runTask_same
    (tasks : List StoreTask) :
    ∀ s : StoreState, (tasks.foldl StoreState.runTask s).node = s.node ∧
      (tasks.foldl StoreState.runTask s).phase = s.phase ∧
      (tasks.foldl StoreState.runTask s).accepted = s.accepted ∧
      (tasks.foldl StoreState.runTask s).agreed ++ (tasks.foldl StoreState.runTask s).blist =
        s.agreed ++ s.blist := by
  induction tasks with
  | nil =>
      exact fun s => ⟨rfl, rfl, rfl, rfl⟩
  | cons task tasks ih =>
      intro s
      rw [List.foldl_cons]
      obtain ⟨hnode, hphase, haccepted, hblocks⟩ := ih (s.runTask task)
      cases task with
      | store =>
          exact ⟨hnode, hphase, haccepted, hblocks.trans (List.append_nil _)⟩
      | other =>
          exact ⟨hnode, hphase, haccepted, hblocks⟩

end Tasks

section Waiting

/-- What is handed over has an event waiting for it, and every event has tasks of its kind. -/
structure StoreWaiting (s : StoreState) : Prop where
  waiting : s.blist ≠ [] → s.phase = .publish ∨ .dbstore ∈ s.handler.publist ∨
    s.current = some .dbstore
  stores : ∀ task ∈ s.handler.subscribers .dbstore, task = .store
  others : ∀ event, event ≠ .dbstore → ∀ task ∈ s.handler.subscribers event, task = .other

/-- Running an event applies the handed-over blocks or leaves them alone. -/
theorem storeWaiting_run
    {s : StoreState} {event : Event}
    (hinv : StoreWaiting s)
    (hguard : HandedOver s .run)
    (hcurrent : s.current = some event) :
    StoreWaiting
      ((s.handler.subscribers event).foldl StoreState.runTask { s with current := .none }) := by
  by_cases hevent : event = .dbstore
  · subst hevent
    rw [foldl_runTask_store hinv.stores { s with current := .none } (hguard hcurrent)]
    exact ⟨fun hne => absurd rfl hne, hinv.stores, hinv.others⟩
  · rw [foldl_runTask_other (hinv.others event hevent)]
    refine ⟨?_, hinv.stores, hinv.others⟩
    intro hne
    rcases hinv.waiting hne with hphase | hpub | hcur
    · exact Or.inl hphase
    · exact Or.inr (Or.inl hpub)
    · rw [hcurrent] at hcur
      exact absurd (Option.some.inj hcur) hevent

theorem storeWaiting_pop
    {s : StoreState} {event : Event} {handler : EventHandler StoreTask}
    (hinv : StoreWaiting s)
    (hidle : s.current = .none)
    (hpop : s.handler.popEvent = some (event, handler)) :
    StoreWaiting { s with handler := handler, current := some event, further := false } := by
  obtain ⟨hpub, hsubs⟩ := EventHandler.popEvent_eq_some hpop
  have hsame : handler.subscribers = s.handler.subscribers := by
    funext e
    rw [EventHandler.subscribers, EventHandler.subscribers, hsubs]
  refine ⟨?_, ?_, ?_⟩
  · intro hne
    rcases hinv.waiting hne with hphase | hmem | hcur
    · exact Or.inl hphase
    · rw [hpub] at hmem
      rcases List.mem_cons.mp hmem with rfl | hmem
      · exact Or.inr (Or.inr rfl)
      · exact Or.inr (Or.inl hmem)
    · rw [hidle] at hcur
      cases hcur
  · rw [hsame]
    exact hinv.stores
  · rw [hsame]
    exact hinv.others

/-- Publishing an event takes nothing away. -/
theorem storeWaiting_publish
    {s : StoreState} {event : Event} {phase : StorePhase}
    (hinv : StoreWaiting s)
    (hphase : phase = s.phase ∨ event = .dbstore) :
    StoreWaiting { s with
      handler := s.handler.publishEvent event
      phase := phase
      further := false } := by
  refine ⟨?_, hinv.stores, hinv.others⟩
  intro hne
  rcases hphase with hphase | rfl
  · rcases hinv.waiting hne with hp | hmem | hcur
    · exact Or.inl (hphase.trans hp)
    · exact Or.inr (Or.inl (List.mem_append_left _ hmem))
    · exact Or.inr (Or.inr hcur)
  · exact Or.inr (Or.inl (List.mem_append_right _ (List.mem_singleton.mpr rfl)))

/-- A subscription adds a task of the right kind. -/
theorem storeWaiting_subscribe
    {s : StoreState} {event : Event} {task : StoreTask} {phase : StorePhase}
    (hinv : StoreWaiting s)
    (hphase : s.phase ≠ .publish ∨ phase = s.phase)
    (hstore : event = .dbstore → task = .store)
    (hother : event ≠ .dbstore → task = .other) :
    StoreWaiting { s with handler := s.handler.subscriberEvent event task, phase := phase } := by
  have hmem : ∀ e, ∀ t ∈ (s.handler.subscriberEvent event task).subscribers e,
      t ∈ s.handler.subscribers e ∨ (e = event ∧ t = task) := by
    intro e t ht
    by_cases he : e = event
    · subst he
      rw [EventHandler.subscribers_subscriberEvent_self] at ht
      rcases List.mem_append.mp ht with hold | hnew
      · exact Or.inl hold
      · exact Or.inr ⟨rfl, List.mem_singleton.mp hnew⟩
    · rw [EventHandler.subscribers_subscriberEvent_of_ne _ _ he] at ht
      exact Or.inl ht
  refine ⟨?_, ?_, ?_⟩
  · intro hne
    rcases hinv.waiting hne with hp | hpub | hcur
    · rcases hphase with hnot | hsame
      · exact absurd hp hnot
      · exact Or.inl (hsame.trans hp)
    · exact Or.inr (Or.inl hpub)
    · exact Or.inr (Or.inr hcur)
  · intro t ht
    rcases hmem _ t ht with hold | ⟨he, rfl⟩
    · exact hinv.stores t hold
    · exact hstore he.symm
  · intro e hne t ht
    rcases hmem e t ht with hold | ⟨rfl, rfl⟩
    · exact hinv.others e hne t hold
    · exact hother hne

/-- At rest nothing is handed over. -/
theorem StoreWaiting.blist_eq_nil
    {s : StoreState}
    (hinv : StoreWaiting s)
    (hquiet : s.Quiescent) :
    s.blist = [] := by
  obtain ⟨_, hpub, hphase, _, hcurrent⟩ := hquiet
  by_contra hne
  rcases hinv.waiting hne with hp | hmem | hcur
  · rw [hphase] at hp
    cases hp
  · rw [hpub] at hmem
    cases hmem
  · rw [hcurrent] at hcur
    cases hcur

theorem storeWaiting_new
    (nd : Node) :
    StoreWaiting { node := nd } := by
  refine ⟨fun hne => absurd rfl hne, ?_, ?_⟩
  · intro task htask
    cases htask
  · intro event _ task htask
    cases htask

variable [Platform]

theorem storeWaiting_step
    (s : StoreState) (a : StoreAction) (s' : StoreState)
    (hinv : StoreWaiting s)
    (hstep : Guarded HandedOver StoreStep s a s') :
    StoreWaiting s' := by
  obtain ⟨hguard, hstep⟩ := hstep
  cases hstep with
  | accept h hheld => exact ⟨hinv.waiting, hinv.stores, hinv.others⟩
  | consensus nd hsame => exact ⟨hinv.waiting, hinv.stores, hinv.others⟩
  | testTrue hphase hconsensus =>
      refine ⟨?_, hinv.stores, hinv.others⟩
      intro hne
      rcases hinv.waiting hne with hp | hrest
      · rw [hphase] at hp
        cases hp
      · exact Or.inr hrest
  | testFalse hphase hconsensus => exact ⟨hinv.waiting, hinv.stores, hinv.others⟩
  | assignEmpty nd hphase htake =>
      exact ⟨fun hne => absurd rfl hne, hinv.stores, hinv.others⟩
  | assign blocks nd hphase htake hblocks =>
      exact ⟨fun _ => Or.inl rfl, hinv.stores, hinv.others⟩
  | publish hphase => exact storeWaiting_publish hinv (Or.inr rfl)
  | subscribe hphase =>
      refine storeWaiting_subscribe hinv (Or.inl ?_) (fun _ => rfl) (fun hne => absurd rfl hne)
      rw [hphase]
      decide
  | otherPublish event hevent => exact storeWaiting_publish hinv (Or.inl rfl)
  | otherSubscribe event hevent =>
      exact storeWaiting_subscribe hinv (Or.inr rfl) (fun he => absurd he hevent) (fun _ => rfl)
  | pop event handler hidle hpop => exact storeWaiting_pop hinv hidle hpop
  | run event hcurrent => exact storeWaiting_run hinv hguard hcurrent

end Waiting

section Invariant

variable [Platform]

/-- Every accepted block is still to be taken, handed over or applied. -/
structure StoreHeld (s : StoreState) : Prop where
  byHash : ∀ h b, s.node.blocks.lookup h = some b → b.header.getID = h
  known : ∀ h ∈ s.node.acceptedBlocks, (s.node.blocks.lookup h).isSome = true
  balance : ((s.agreed ++ s.blist).map (fun b => b.header.getID) ++
    s.node.acceptedBlocks).Perm s.accepted

theorem storeHeld_accept
    {s : StoreState} {h : Str}
    (hinv : StoreHeld s)
    (hheld : (s.node.blocks.lookup h).isSome = true) :
    StoreHeld { s with
      node := s.node.deliver h h
      further := false
      accepted := s.accepted ++ [h] } where
  byHash := hinv.byHash
  known := by
    intro k hk
    rcases List.mem_append.mp hk with hold | hnew
    · exact hinv.known k hold
    · rw [List.mem_singleton.mp hnew]
      exact hheld
  balance := by
    have hdeliver : (s.node.deliver h h).acceptedBlocks = s.node.acceptedBlocks ++ [h] := rfl
    rw [hdeliver, ← List.append_assoc]
    exact hinv.balance.append_right _

theorem storeHeld_consensus
    {s : StoreState} {nd : Node}
    (hinv : StoreHeld s)
    (hsame : Undelivered s.node nd) :
    StoreHeld { s with node := nd } where
  byHash := by
    intro h b hb
    have hb : nd.blocks.lookup h = some b := hb
    rcases hsame.blocks h with hheader | ⟨_, b', hb', hid⟩
    · rw [hb, Option.map_some, eq_comm, Option.map_eq_some_iff] at hheader
      obtain ⟨b₀, hb₀, heq⟩ := hheader
      rw [← heq]
      exact hinv.byHash h b₀ hb₀
    · obtain rfl := Option.some.inj (hb.symm.trans hb')
      exact hid
  known := by
    intro h hh
    rw [hsame.accepted] at hh
    have hold := hinv.known h hh
    rcases hsame.blocks h with hheader | ⟨hnone, _⟩
    · rw [← Option.isSome_map (f := Block.header)] at hold ⊢
      rw [hheader]
      exact hold
    · rw [hnone] at hold
      cases hold
  balance := by
    rw [hsame.accepted]
    exact hinv.balance

/-- The blocks taken from the node are those of the accepted hashes. -/
theorem getConsensusBlocks_eq
    {s : StoreState} {blocks : List Block} {nd : Node}
    (hinv : StoreHeld s)
    (htake : s.node.getConsensusBlocks true = (blocks, nd)) :
    blocks.map (fun b => b.header.getID) = s.node.acceptedBlocks ∧
    nd.acceptedBlocks = [] ∧ ∀ h, nd.blocks.lookup h = s.node.blocks.lookup h := by
  obtain ⟨hfst, hsnd⟩ := Prod.ext_iff.mp htake
  dsimp only at hfst hsnd
  subst hfst hsnd
  refine ⟨?_, rfl, getConsensusBlocks_known hinv.known⟩
  rw [getConsensusBlocks_fst, List.map_map]
  conv_rhs => rw [← List.map_id s.node.acceptedBlocks]
  apply List.map_congr_left
  intro h hh
  obtain ⟨b, hb⟩ := Option.isSome_iff_exists.mp (hinv.known h hh)
  simpa [hb] using hinv.byHash h b hb

/-- The blocks move from the node to `blist_`. -/
theorem storeHeld_assign
    {s : StoreState} {blocks : List Block} {nd : Node} {phase : StorePhase} {further : Bool}
    (hinv : StoreHeld s)
    (hcleared : s.blist = [])
    (htake : s.node.getConsensusBlocks true = (blocks, nd)) :
    StoreHeld { s with node := nd, blist := blocks, phase := phase, further := further } := by
  obtain ⟨hids, hempty, hblocks⟩ := getConsensusBlocks_eq hinv htake
  constructor
  · intro h b hb
    exact hinv.byHash h b ((hblocks h).symm.trans hb)
  · intro h hh
    rw [hempty] at hh
    cases hh
  · have hbalance := hinv.balance
    rw [hcleared, List.append_nil] at hbalance
    rw [hempty, List.append_nil, List.map_append, hids]
    exact hbalance

theorem storeHeld_run
    {s : StoreState} {event : Event}
    (hinv : StoreHeld s) :
    StoreHeld
      ((s.handler.subscribers event).foldl StoreState.runTask { s with current := .none }) := by
  obtain ⟨hnode, _, haccepted, hblocks⟩ :=
    foldl_runTask_same (s.handler.subscribers event) { s with current := .none }
  constructor
  · rw [hnode]
    exact hinv.byHash
  · rw [hnode]
    exact hinv.known
  · rw [hnode, haccepted, hblocks]
    exact hinv.balance

theorem storeHeld_step
    (s : StoreState) (a : StoreAction) (s' : StoreState)
    (hinv : StoreHeld s)
    (hstep : Guarded HandedOver StoreStep s a s') :
    StoreHeld s' := by
  obtain ⟨hguard, hstep⟩ := hstep
  have hkept : ∀ handler phase current further, StoreHeld { s with
      handler := handler, phase := phase, current := current, further := further } :=
    fun _ _ _ _ => ⟨hinv.byHash, hinv.known, hinv.balance⟩
  cases hstep with
  | accept h hheld => exact storeHeld_accept hinv hheld
  | consensus nd hsame => exact storeHeld_consensus hinv hsame
  | testTrue hphase hconsensus => exact hkept _ _ _ _
  | testFalse hphase hconsensus => exact hkept _ _ _ _
  | assignEmpty nd hphase htake => exact storeHeld_assign hinv hguard htake
  | assign blocks nd hphase htake hblocks => exact storeHeld_assign hinv hguard htake
  | publish hphase => exact hkept _ _ _ _
  | subscribe hphase => exact hkept _ _ _ _
  | otherPublish event hevent => exact hkept _ _ _ _
  | otherSubscribe event hevent => exact hkept _ _ _ _
  | pop event handler hidle hpop => exact hkept _ _ _ _
  | run event hcurrent => exact storeHeld_run hinv

theorem storeHeld_init
    (s : StoreState)
    (h : StoreInit s) :
    StoreHeld s := by
  obtain ⟨nd, haccepted, hblocks, rfl⟩ := h
  constructor
  · intro h b hb
    change nd.blocks.lookup h = some b at hb
    rw [hblocks] at hb
    cases hb
  · intro h hh
    change h ∈ nd.acceptedBlocks at hh
    rw [haccepted] at hh
    cases hh
  · show (([] : List Block).map (fun b => b.header.getID) ++ nd.acceptedBlocks).Perm []
    rw [haccepted]
    exact List.Perm.refl _

/--
In every run whose steps all meet `HandedOver`, every block ever accepted has
been passed to `OnAgreeBlk` exactly once whenever the threads are at rest.
-/
theorem appliedOnce_of_handedOver
    (s : StoreState)
    (hrun : Reachable StoreInit (Guarded HandedOver StoreStep) s) :
    AppliedOnce s := by
  have hheld : StoreHeld s := hrun.invariant storeHeld_init storeHeld_step
  have hwaiting : StoreWaiting s := by
    refine hrun.invariant ?_ storeWaiting_step
    rintro s ⟨nd, _, _, rfl⟩
    exact storeWaiting_new nd
  intro hquiet
  have hbalance := hheld.balance
  rw [hquiet.1, hwaiting.blist_eq_nil hquiet, List.append_nil, List.append_nil] at hbalance
  exact hbalance

end Invariant

section OneBlock

variable [Platform]

/-- A finalized block without transactions. -/
def acceptedBlock : Block :=
  { empty := false, isMutable := false }

/-- A node that holds the block. -/
def holdingNode : Node :=
  let nd := Node.new 0 1 0 true (fun _ _ => (equalBytes 0, equalBytes 0)) keptRead
  { nd with blocks := nd.blocks.insert acceptedBlock.header.getID acceptedBlock }

/-- The node after it has accepted the block. -/
def acceptedNode : Node :=
  holdingNode.deliver acceptedBlock.header.getID acceptedBlock.header.getID

/-- The block has been accepted and handed over, and its event is published. -/
def handedOver : StoreState where
  node := (acceptedNode.getConsensusBlocks true).2
  handler := { publist := [.dbstore] }
  blist := [acceptedBlock]
  phase := .subscribe
  accepted := [acceptedBlock.header.getID]

theorem handedOver_reachable :
    Reachable StoreInit (Guarded HandedOver StoreStep) handedOver := by
  let nd := Node.new 0 1 0 true (fun _ _ => (equalBytes 0, equalBytes 0)) keptRead
  have hsame : Undelivered nd holdingNode := by
    refine ⟨rfl, ?_⟩
    intro h
    by_cases hh : h = acceptedBlock.header.getID
    · subst hh
      exact Or.inr ⟨rfl, acceptedBlock, AList.lookup_insert _, rfl⟩
    · left
      rw [holdingNode, AList.lookup_insert_ne hh]
  have hheld : (holdingNode.blocks.lookup acceptedBlock.header.getID).isSome = true := by
    rw [holdingNode, AList.lookup_insert]
    rfl
  have htake : acceptedNode.getConsensusBlocks true = ([acceptedBlock], handedOver.node) := by
    have hlookup : acceptedNode.blocks.lookup acceptedBlock.header.getID = some acceptedBlock :=
      AList.lookup_insert _
    refine Prod.ext ?_ rfl
    have haccepted : acceptedNode.acceptedBlocks = [acceptedBlock.header.getID] := rfl
    rw [getConsensusBlocks_fst, haccepted, List.map_singleton, hlookup, Option.getD_some]
  have hstart : Reachable StoreInit (Guarded HandedOver StoreStep) { node := nd } :=
    .start ⟨nd, rfl, rfl, rfl⟩
  have hsaved := hstart.next_guarded (.consensus { node := nd } holdingNode hsame) trivial
  have haccepted := hsaved.next_guarded (.accept _ acceptedBlock.header.getID hheld) trivial
  have htested := haccepted.next_guarded (.testTrue _ rfl rfl) trivial
  have hassigned := htested.next_guarded (.assign _ _ _ rfl htake (List.cons_ne_nil _ _)) rfl
  exact hassigned.next_guarded (.publish _ rfl) trivial

end OneBlock

/--
The event is handled before the task is subscribed, and the next iteration of
`DBProcess` overwrites the list with an empty one: the block is never applied.
-/
theorem accepted_block_is_lost :
    letI := referencePlatform
    ∃ s : StoreState, Reachable StoreInit StoreStep s ∧ ¬ AppliedOnce s := by
  let _ := referencePlatform
  have hpublished : Reachable StoreInit StoreStep handedOver :=
    handedOver_reachable.mono fun _ _ _ h => h.2
  have hpopped := hpublished.next (.pop _ .dbstore {} rfl rfl)
  have hran := hpopped.next (.run _ .dbstore rfl)
  have hsubscribed := hran.next (.subscribe _ rfl)
  have htested := hsubscribed.next (.testTrue _ rfl rfl)
  have hassigned := htested.next (.assignEmpty _ _ rfl rfl)
  refine ⟨_, hassigned, ?_⟩
  intro honce
  have hperm := honce ⟨rfl, rfl, rfl, rfl, rfl⟩
  have hlength := hperm.length_eq
  cases hlength

/-- The task is subscribed first: the block is applied, and only once. -/
theorem accepted_block_is_applied :
    letI := referencePlatform
    ∃ s : StoreState, s.Quiescent ∧ s.accepted = [acceptedBlock.header.getID] ∧
      (s.agreed.map fun b => b.header.getID).Perm s.accepted := by
  let _ := referencePlatform
  have hsubscribed := handedOver_reachable.next_guarded (.subscribe _ rfl) trivial
  have hpopped := hsubscribed.next_guarded (.pop _ .dbstore _ rfl rfl) trivial
  have hran := hpopped.next_guarded (.run _ .dbstore rfl) (fun _ => Or.inr (List.cons_ne_nil _ _))
  have htested := hran.next_guarded (.testTrue _ rfl rfl) trivial
  have hassigned := htested.next_guarded (.assignEmpty _ _ rfl rfl) rfl
  have hperm := appliedOnce_of_handedOver _ hassigned ⟨rfl, rfl, rfl, rfl, rfl⟩
  refine ⟨_, ?_, ?_, hperm⟩
  · exact ⟨rfl, rfl, rfl, rfl, rfl⟩
  · rfl

end CosiCoin
