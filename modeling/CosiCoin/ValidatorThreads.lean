import CosiCoin.AcceptedBlockStorage
import CosiCoin.LedgerReplicas
import CosiCoin.ProposalIntegrity
import CosiCoin.StoredBodies

/-!
# COSICOIN: the threads of all validators

All threads of the validators run together: transactions are received, the leader
creates blocks and proposes them, the nodes run the protocol over the links, and
`DBProcess` and the event thread hand the accepted blocks to `OnAgreeBlk` with the
steps of `AcceptedBlockStorage`.  The leader may propose any number of blocks;
faulty validators are silent.

The invariant `Chained` says which blocks a validator applies and what they leave of
the first coins.  It holds in every run, also where a block is lost between the
threads or where an erased key is read as something else (`chained_of_reachable`).
A run in which validator `i` hands every block over loses none of them
(`nothingLost_of_reachable`).
-/

namespace CosiCoin

open LabelledRuns CausalLog FifoLinks Node

section Links

/-- The committee in which a faulty validator is one that takes no step. -/
def Committee.patient (c : Committee) : Committee :=
  { c with
    byz := ∅
    byz_subset := Finset.empty_subset _
    byz_card := Nat.zero_le _ }

variable [Platform]

/-- As faulty validators are silent, nothing changes when they count as slow. -/
theorem LinkStep.patient
    {c : Committee} {s s' : LinkState} {a : LinkAction}
    (h : LinkStep c s a s') :
    LinkStep c.patient s a s' := by
  cases h with
  | propose b nd evs hleader halive hprop =>
      exact .propose s b nd evs ⟨hleader.1, Finset.notMem_empty _⟩ halive hprop
  | transfer i j m m' rest hj hout hwire =>
      exact .transfer s i j m m' rest hj hout hwire
  | terminate i j m rest e hout herror =>
      exact .terminate s i j m rest e hout herror
  | runTask j nd evs hj halive hrunning hnew htask =>
      exact .runTask s j nd evs ⟨hj.1, Finset.notMem_empty _⟩ halive hrunning hnew htask
  | restart j hj halive hreturned =>
      exact .restart s j ⟨hj.1, Finset.notMem_empty _⟩ halive hreturned

theorem LinkStep.advances
    {c : Committee} {s s' : LinkState} {a : LinkAction}
    (h : LinkStep c s a s') :
    Advances s.toSystemState s'.toSystemState := by
  cases h with
  | propose b nd evs hleader halive hprop =>
      obtain ⟨rfl, m, _, rfl⟩ := propose_eq_ok hprop
      exact advances_record (.of_eq rfl rfl rfl rfl)
  | transfer i j m m' rest hj hout hwire =>
      exact .refl _
  | terminate i j m rest e hout herror =>
      exact .refl _
  | runTask j nd evs hj halive hrunning hnew htask =>
      exact advances_record (runTask_nodeRun htask).1.appends
  | restart j hj halive hreturned =>
      exact advances_record (.of_eq rfl rfl rfl rfl)

/-- Only the step that proposes adds a proposal. -/
theorem LinkStep.proposals
    {c : Committee} {s s' : LinkState} {a : LinkAction}
    (h : LinkStep c s a s') :
    (∃ b, a = .propose b ∧ CosiCoin.proposals s'.log = b :: CosiCoin.proposals s.log) ∨
      ((∀ b, a ≠ .propose b) ∧ CosiCoin.proposals s'.log = CosiCoin.proposals s.log) := by
  cases h with
  | propose b nd evs hleader halive hprop =>
      obtain ⟨_, m, _, rfl⟩ := propose_eq_ok hprop
      exact Or.inl ⟨b, rfl, rfl⟩
  | transfer i j m m' rest hj hout hwire =>
      exact Or.inr ⟨nofun, rfl⟩
  | terminate i j m rest e hout herror =>
      exact Or.inr ⟨nofun, rfl⟩
  | runTask j nd evs hj halive hrunning hnew htask =>
      exact Or.inr ⟨nofun, proposals_record s.toSystemState j nd
        (NodeRun.proposed_notMem (runTask_nodeRun htask).1)⟩
  | restart j hj halive hreturned =>
      exact Or.inr ⟨nofun, proposals_record s.toSystemState j _ (by simp)⟩

end Links

section Chain

variable {c : Committee} {first : UTXOlist}

theorem FromProposal.mono
    {log log' : Log} {b : Block}
    (h : FromProposal c log b)
    (hsub : log ⊆ log') :
    FromProposal c log' b := by
  obtain ⟨b₀, hb₀, hheader, htxs⟩ := h
  exact ⟨b₀, hsub hb₀, hheader, htxs⟩

theorem fromProposal_of_body
    {log : Log} {b b' : Block}
    (hb : FromProposal c log b)
    (hbody : b'.body = b.body) :
    FromProposal c log b' := by
  obtain ⟨b₀, hb₀, hheader, htxs⟩ := hb
  exact ⟨b₀, hb₀, (congrArg Prod.fst hbody).trans hheader, (congrArg Prod.snd hbody).trans htxs⟩

/-- On the wire a transaction keeps its inputs and its sender. -/
theorem inputsFrom_of_fromProposal
    {log : Log} {b : Block}
    (hb : FromProposal c log b)
    (hproposed : ∀ b ∈ proposals log, ∀ t ∈ b.txs, t.InputsFrom first) :
    ∀ t ∈ b.txs, t.InputsFrom first := by
  obtain ⟨b₀, hb₀, _, htxs⟩ := hb
  intro t ht
  rw [htxs] at ht
  obtain ⟨t₀, ht₀, rfl⟩ := List.mem_map.mp ht
  exact hproposed b₀ (mem_proposals hb₀) t₀ ht₀

/-- A proposed block as it arrives over the wire, or a block without transactions. -/
def ProposedOrEmpty (c : Committee) (log : Log) (b : Block) : Prop :=
  FromProposal c log b ∨ b.txs = []

theorem ProposedOrEmpty.inputsFrom
    {log : Log} {b : Block}
    (hb : ProposedOrEmpty c log b)
    (hproposed : ∀ b ∈ proposals log, ∀ t ∈ b.txs, t.InputsFrom first) :
    ∀ t ∈ b.txs, t.InputsFrom first := by
  rcases hb with hfrom | hempty
  · exact inputsFrom_of_fromProposal hfrom hproposed
  · rw [hempty]
    exact fun t ht => absurd ht List.not_mem_nil

/-- The validators with the threads that store blocks, and the links between their nodes. -/
structure ChainState where
  stores : UInt16 → StoreState
  validators : UInt16 → Validator
  log : Log := []
  net : Links UInt16 Message := Links.empty
  terminated : Finset UInt16 := ∅

/-- The nodes and the links. -/
def ChainState.links (s : ChainState) : LinkState where
  nodes := fun i => (s.stores i).node
  log := s.log
  net := s.net
  terminated := s.terminated

/-- The consensus thread has moved the node. -/
def StoreState.follow (st : StoreState) (nd : Node) : StoreState :=
  { st with
    node := nd
    further := st.further && nd.acceptedBlocks == st.node.acceptedBlocks
    accepted := st.accepted ++ nd.acceptedBlocks.drop st.node.acceptedBlocks.length }

def ChainState.follow (s : ChainState) (links : LinkState) : ChainState :=
  { s with
    stores := fun i => (s.stores i).follow (links.nodes i)
    log := links.log
    net := links.net
    terminated := links.terminated }

/-- What the threads of the validators do. -/
inductive ChainAction where
  | recvTx (i : UInt16) (tx : Transaction)
  | createAndPropose (b : Block)
  | consensus (a : LinkAction)
  | store (i : UInt16) (a : StoreAction)

/-- A step of `DBProcess`, of another thread on the event loop, or an event being popped. -/
def StoreAction.ofThreads : StoreAction → Bool
  | .accept _ => false
  | .consensus => false
  | .run => false
  | _ => true

/-- A task with the validator it works on: blocks are applied, then `OnSyncReply` is called. -/
def applyTask (p : StoreState × Validator) : StoreTask → Option (StoreState × Validator)
  | .store => do
      let v ← p.1.blist.foldlM Validator.onAgreeBlk p.2
      return (p.1.runTask .store, v.onSyncReply)
  | .other => some p

variable [P : Platform]

/-- One step of a run. -/
inductive ChainStep (c : Committee) : ChainState → ChainAction → ChainState → Prop
  | recvTx
      (s : ChainState) (i : UInt16) (tx : Transaction) :
      ChainStep c s (.recvTx i tx)
        { s with
          validators := Function.update s.validators i ((s.validators i).onRecvTx tx).2 }
  | createAndPropose
      (s : ChainState) (b : Block) (v' : Validator) (links' : LinkState)
      (hcreate : (s.validators c.leader).createBlk {} = .ok (1, b, v'))
      (hpropose : LinkStep c s.links (.propose b) links') :
      ChainStep c s (.createAndPropose b)
        { s.follow links' with validators := Function.update s.validators c.leader v' }
  | consensus
      (s : ChainState) (a : LinkAction) (links' : LinkState)
      (ha : ∀ b, a ≠ .propose b)
      (hstep : LinkStep c s.links a links') :
      ChainStep c s (.consensus a) (s.follow links')
  | store
      (s : ChainState) (i : UInt16) (a : StoreAction) (t : StoreState)
      (hi : c.Correct i)
      (halive : i ∉ s.terminated)
      (ha : a.ofThreads = true)
      (hstep : StoreStep (s.stores i) a t) :
      ChainStep c s (.store i a) { s with stores := Function.update s.stores i t }
  | run
      (s : ChainState) (i : UInt16) (event : Event) (t : StoreState) (v' : Validator)
      (hi : c.Correct i)
      (halive : i ∉ s.terminated)
      (hcurrent : (s.stores i).current = some event)
      (hrun : ((s.stores i).handler.subscribers event).foldlM applyTask
        ({ s.stores i with current := .none }, s.validators i) = some (t, v')) :
      ChainStep c s (.store i .run)
        { s with
          stores := Function.update s.stores i t
          validators := Function.update s.validators i v' }

/-- A validator that has just initialized the coins of its wallets. -/
def firstValidator (c : Committee) (walletsIds : List UInt32) (coins : UInt64)
    (i : UInt16) : Validator :=
  Validator.initializeCoins { isLeader := decide (i = c.leader), walletsIds := walletsIds } coins

/-- A new node that verifies against the first coins. -/
def firstNode (c : Committee) (walletsIds : List UInt32) (coins : UInt64)
    (urandom : UInt16 → Nat → Draw) (erasedRead : UInt16 → Nat → Str → Str)
    (i : UInt16) : Node :=
  (SystemState.initial c urandom erasedRead
    (fun i => (firstValidator c walletsIds coins i).nodeUtxolist)
    (fun i => (firstValidator c walletsIds coins i).nodeWalletIds)).nodes i

/-- New nodes, idle threads, empty links and the ledgers of the first coins. -/
def ChainInit (c : Committee) (walletsIds : List UInt32) (coins : UInt64)
    (s : ChainState) : Prop :=
  ∃ urandom erasedRead, s =
    { stores := fun i => { node := firstNode c walletsIds coins urandom erasedRead i }
      validators := firstValidator c walletsIds coins }

/-- The hashes of the blocks that are applied or handed over, and those to be taken. -/
def StoreState.hashes (st : StoreState) : List Str :=
  (st.agreed ++ st.blist).map (fun b => b.header.getID) ++ st.node.acceptedBlocks

/-- No acceptance is applied twice, and only proposed blocks are applied. -/
structure KeptLedger (c : Committee) (log : Log) (st : StoreState)
    (hist : List NodeEvent) : Prop where
  once : st.hashes.Subperm (deliveredHashes hist)
  blocks : ∀ b ∈ st.agreed ++ st.blist, FromProposal c log b

/-- The ledger of a validator follows from what its node has accepted. -/
structure StoredLedger (c : Committee) (log : Log) (first : UTXOlist) (st : StoreState)
    (v : Validator) (hist : List NodeEvent) : Prop where
  handed : st.hashes.length ≤ (deliveredHashes hist).length
  blocks : ∀ b ∈ st.agreed ++ st.blist, ProposedOrEmpty c log b
  lists : HoldsUnspent v.utxoSets first (st.agreed.flatMap Block.inputs)
  kept : st.node.erasedRead = keptRead → KeptLedger c log st hist

/-- The invariant of all threads and the ledgers. -/
structure Chained (c : Committee) (first : UTXOlist) (s : ChainState) : Prop where
  inv : LogInv c.patient s.links.toSystemState
  net : NetSound s.links
  proposed : ∀ b ∈ proposals s.log, ∀ t ∈ b.txs, t.InputsFrom first
  stored : ∀ i, c.patient.Correct i → StoresCounted (s.links.nodes i) (history i s.log)
  keptFirst : ∀ i, c.patient.Correct i → KeptFirst (s.links.nodes i) (history i s.log)
  ledger : ∀ i, StoredLedger c s.log first (s.stores i) (s.validators i) (history i s.log)

end Chain

section Ledgers

variable [P : Platform]

variable {c : Committee} {first : UTXOlist} {log : Log} {st t : StoreState} {v v' : Validator}
  {hist : List NodeEvent}

/-- Blocks move on from `blist_` to `OnAgreeBlk`, or stay where they are. -/
theorem StoredLedger.of_same
    (h : StoredLedger c log first st v hist)
    (hnode : t.node = st.node)
    (hblocks : t.agreed ++ t.blist = st.agreed ++ st.blist)
    (hlists : HoldsUnspent v'.utxoSets first (t.agreed.flatMap Block.inputs)) :
    StoredLedger c log first t v' hist := by
  have hhashes : t.hashes = st.hashes := by
    rw [StoreState.hashes, StoreState.hashes, hblocks, hnode]
  constructor
  · rw [hhashes]
    exact h.handed
  · rw [hblocks]
    exact h.blocks
  · exact hlists
  · intro hkept
    rw [hnode] at hkept
    obtain ⟨honce, hfrom⟩ := h.kept hkept
    exact ⟨by rwa [hhashes], by rwa [hblocks]⟩

theorem hashes_follow
    {nd : Node} {evs : List NodeEvent}
    (h : st.node.Appends evs nd) :
    (st.follow nd).hashes = st.hashes ++ st.node.recordedKeys (deliveredHashes evs) := by
  rw [StoreState.hashes, StoreState.hashes, List.append_assoc, ← h.accepted]
  rfl

/-- What the node accepts is appended to `accepted_blocks_`. -/
theorem StoredLedger.follow
    {nd : Node} {evs : List NodeEvent} {log' : Log}
    (h : StoredLedger c log first st v hist)
    (happends : st.node.Appends evs nd)
    (hsub : log ⊆ log') :
    StoredLedger c log' first (st.follow nd) v (evs.reverse ++ hist) := by
  have hhashes := hashes_follow happends
  have hdelivered : (deliveredHashes hist ++ deliveredHashes evs).Perm
      (deliveredHashes (evs.reverse ++ hist)) := by
    rw [deliveredHashes_append, deliveredHashes_reverse]
    exact List.perm_append_comm.trans ((List.reverse_perm _).symm.append_right _)
  constructor
  · rw [hhashes, ← hdelivered.length_eq, List.length_append, List.length_append,
      length_recordedKeys]
    exact Nat.add_le_add_right h.handed _
  · exact fun b hb => (h.blocks b hb).imp_left fun hfrom => hfrom.mono hsub
  · exact h.lists
  · intro hread
    have hkept : st.node.erasedRead = keptRead := happends.erasedRead.symm.trans hread
    obtain ⟨honce, hfrom⟩ := h.kept hkept
    refine ⟨?_, fun b hb => (hfrom b hb).mono hsub⟩
    rw [hhashes, recordedKeys_of_kept hkept]
    exact (honce.append (List.Subperm.refl _)).trans hdelivered.subperm

/-- Taking the accepted blocks overwrites what was in `blist_`. -/
theorem length_hashes_of_taken
    (hnode : t.node = (st.node.getConsensusBlocks true).2)
    (hagreed : t.agreed = st.agreed)
    (hblist : t.blist = (st.node.getConsensusBlocks true).1) :
    t.hashes.length = st.agreed.length + st.node.acceptedBlocks.length := by
  have haccepted : t.node.acceptedBlocks = [] := by rw [hnode]; rfl
  rw [StoreState.hashes, haccepted, hagreed, hblist, getConsensusBlocks_fst]
  simp

/-- The accepted blocks are taken, and whatever was in `blist_` is overwritten. -/
theorem StoredLedger.assign
    (h : StoredLedger c log first st v hist)
    (hnode : t.node = (st.node.getConsensusBlocks true).2)
    (hagreed : t.agreed = st.agreed)
    (hblist : t.blist = (st.node.getConsensusBlocks true).1)
    (hfrom : ∀ b ∈ t.blist, ProposedOrEmpty c log b)
    (hkept : st.node.erasedRead = keptRead →
      t.blist.map (fun b => b.header.getID) = st.node.acceptedBlocks ∧
        ∀ b ∈ t.blist, FromProposal c log b) :
    StoredLedger c log first t v hist := by
  have haccepted : t.node.acceptedBlocks = [] := by rw [hnode]; rfl
  constructor
  · refine le_trans ?_ h.handed
    rw [length_hashes_of_taken hnode hagreed hblist]
    simp only [StoreState.hashes, List.length_append, List.length_map]
    omega
  · rw [hagreed]
    exact List.forall_mem_append.mpr ⟨fun b hb => h.blocks b (List.mem_append_left _ hb), hfrom⟩
  · rw [hagreed]
    exact h.lists
  · intro hread
    have hbefore : st.node.erasedRead = keptRead := by
      rwa [hnode, (getConsensusBlocks_quiet st.node true).erasedRead] at hread
    obtain ⟨honce, hblocks⟩ := h.kept hbefore
    obtain ⟨hids, htaken⟩ := hkept hbefore
    refine ⟨List.Subperm.trans (List.Sublist.subperm ?_) honce, ?_⟩
    · rw [StoreState.hashes, StoreState.hashes, haccepted, hagreed, List.append_nil,
        List.map_append, List.map_append, hids]
      exact (List.sublist_append_left _ _).append_right _
    · rw [hagreed]
      exact List.forall_mem_append.mpr
        ⟨fun b hb => hblocks b (List.mem_append_left _ hb), htaken⟩

end Ledgers

section Tasks

variable {first : UTXOlist}

/-- On the event thread the tasks do to the threads' state what they do alone. -/
theorem foldlM_applyTask
    {tasks : List StoreTask} :
    ∀ {p p' : StoreState × Validator}, tasks.foldlM applyTask p = some p' →
      p'.1 = tasks.foldl StoreState.runTask p.1 := by
  induction tasks with
  | nil =>
      intro p p' h
      obtain rfl := Option.some.inj h
      rfl
  | cons task tasks ih =>
      intro p p' h
      rw [List.foldlM_cons] at h
      obtain ⟨p₁, hone, hrest⟩ := Option.bind_eq_some_iff.mp h
      rw [ih hrest, List.foldl_cons]
      cases task with
      | store =>
          obtain ⟨v, _, hp₁⟩ := Option.bind_eq_some_iff.mp hone
          rw [← Option.some.inj hp₁]
      | other => rw [← Option.some.inj hone]; rfl

/-- The tasks apply what they take from `blist_`. -/
theorem holdsUnspent_of_tasks
    (hfirst : first.outpoints.Nodup)
    (hone : AtMostOneCoin first)
    {tasks : List StoreTask} :
    ∀ {p p' : StoreState × Validator},
      HoldsUnspent p.2.utxoSets first (p.1.agreed.flatMap Block.inputs) →
      (∀ b ∈ p.1.blist, ∀ t ∈ b.txs, t.InputsFrom first) →
      tasks.foldlM applyTask p = some p' →
      HoldsUnspent p'.2.utxoSets first (p'.1.agreed.flatMap Block.inputs) := by
  induction tasks with
  | nil =>
      intro p p' h _ htasks
      obtain rfl := Option.some.inj htasks
      exact h
  | cons task tasks ih =>
      intro p p' h hown htasks
      rw [List.foldlM_cons] at htasks
      obtain ⟨p₁, htask, hrest⟩ := Option.bind_eq_some_iff.mp htasks
      cases task with
      | store =>
          obtain ⟨v, happly, hp₁⟩ := Option.bind_eq_some_iff.mp htask
          obtain rfl := Option.some.inj hp₁
          refine ih ?_ (fun b hb => absurd hb List.not_mem_nil) hrest
          refine (h.foldlM_onAgreeBlk hfirst hone happly hown).congr fun i => ?_
          simp only [StoreState.runTask, List.flatMap_append, List.mem_append]
          exact or_comm
      | other =>
          obtain rfl := Option.some.inj htask
          exact ih h hown hrest

end Tasks

section Invariant

/-- The nodes after the threads of one validator have moved. -/
theorem links_update
    (s : ChainState) (i : UInt16) (t : StoreState) (v : UInt16 → Validator) :
    ({ s with stores := Function.update s.stores i t, validators := v } : ChainState).links =
      { s.links with nodes := Function.update s.links.nodes i t.node } := by
  have hnodes : (fun j => (Function.update s.stores i t j).node) =
      Function.update s.links.nodes i t.node := by
    funext j
    by_cases hj : j = i
    · subst hj
      simp
    · simp [hj, ChainState.links]
  rw [ChainState.links, hnodes]
  rfl

variable [P : Platform]

variable {c : Committee} {first : UTXOlist} {s : ChainState}

/-- A validator that keeps its coins changes nothing. -/
theorem Chained.update_validator
    (h : Chained c first s)
    (i : UInt16) {v : Validator}
    (hcoins : v.utxoSets = (s.validators i).utxoSets) :
    Chained c first { s with validators := Function.update s.validators i v } := by
  refine { h with ledger := ?_ }
  refine (Function.forall_update_iff s.validators fun j w =>
    StoredLedger c s.log first (s.stores j) w (history j s.log)).mpr ⟨?_, fun j _ => h.ledger j⟩
  refine (h.ledger i).of_same rfl rfl ?_
  rw [hcoins]
  exact (h.ledger i).lists

/-- What the nodes accept in a step is handed over later. -/
theorem Chained.follow
    [LawfulPlatform P]
    {a : LinkAction} {links' : LinkState}
    (h : Chained c first s)
    (hstep : LinkStep c s.links a links')
    (hproposed : ∀ b ∈ proposals links'.log, ∀ t ∈ b.txs, t.InputsFrom first) :
    Chained c first (s.follow links') := by
  have hadvances := hstep.advances
  have hledger : ∀ i, StoredLedger c links'.log first ((s.stores i).follow (links'.nodes i))
      (s.validators i) (history i links'.log) := by
    intro i
    obtain ⟨evs, happends, hhist⟩ := hadvances i
    rw [hhist]
    exact (h.ledger i).follow happends hadvances.log_subset
  rcases systemStep_of_link h.net hstep.patient with hsame | ⟨a', hsystem⟩
  · have hnodes : links'.nodes = s.links.nodes := congrArg SystemState.nodes hsame
    have hlog : links'.log = s.log := congrArg SystemState.log hsame
    refine ⟨?_, netSound_step h.net hstep, hproposed, ?_, ?_, hledger⟩
    · show LogInv c.patient links'.toSystemState
      rw [hsame]
      exact h.inv
    · show ∀ i, c.patient.Correct i → StoresCounted (links'.nodes i) (history i links'.log)
      rw [hnodes, hlog]
      exact h.stored
    · show ∀ i, c.patient.Correct i → KeptFirst (links'.nodes i) (history i links'.log)
      rw [hnodes, hlog]
      exact h.keptFirst
  · refine ⟨logInv_step h.inv hsystem, netSound_step h.net hstep, hproposed, ?_, ?_, hledger⟩
    · refine nodes_step (fun _ _ _ _ hstored => hstored.step) ?_ h.stored hsystem
      intro nd b m hist hstored _
      have hnone : ∀ m', .counted m' ∉ [.broadcast m, NodeEvent.proposed b] := by simp
      have hrotated : nd.rotateKeys.blocks = nd.blocks := rfl
      exact hstored.append hrotated hnone
    · refine nodes_step (fun _ _ _ _ hkept => hkept.step) ?_ h.keptFirst hsystem
      intro nd b m hist hkept _ hread
      have hproposed : HoldsFirst nd.rotateKeys (.proposed b :: hist) :=
        (hkept hread).cons rfl nofun
      exact hproposed.cons rfl nofun

/-- The state of one validator's threads changes, and its node goes on unnoticed. -/
theorem Chained.update
    (h : Chained c first s)
    {i : UInt16} {t : StoreState} {v : Validator}
    (hi : c.patient.Correct i)
    (hquiet : (s.stores i).node.Quiet t.node)
    (hstored : StoresCounted t.node (history i s.log))
    (hfirst : KeptFirst t.node (history i s.log))
    (hledger : StoredLedger c s.log first t v (history i s.log)) :
    Chained c first
      { s with
        stores := Function.update s.stores i t
        validators := Function.update s.validators i v } := by
  have hall : ∀ {Q : Node → List NodeEvent → Prop}, Q t.node (history i s.log) →
      (∀ j, c.patient.Correct j → Q (s.links.nodes j) (history j s.log)) →
      ∀ j, c.patient.Correct j → Q (Function.update s.stores i t j).node (history j s.log) := by
    intro Q hQ hrest
    exact (Function.forall_update_iff s.stores fun j st =>
      c.patient.Correct j → Q st.node (history j s.log)).mpr ⟨fun _ => hQ, fun j _ => hrest j⟩
  refine ⟨?_, ⟨h.net.out, h.net.inbox⟩, h.proposed, hall hstored h.stored,
    hall hfirst h.keptFirst, ?_⟩
  · have hconf := h.inv.configured i hi
    have hmoved : LogInv c.patient (s.links.toSystemState.record i t.node []) :=
      logInv_record h.inv
        ⟨hquiet.id.trans hconf.id, hquiet.n.trans hconf.n, hquiet.f.trans hconf.f⟩
        ((h.inv.recorded i hi).quiet hquiet) h.inv.causal
    rw [links_update]
    exact hmoved
  · intro j
    dsimp only
    by_cases hji : j = i
    · subst hji
      rw [Function.update_self, Function.update_self]
      exact hledger
    · rw [Function.update_of_ne hji, Function.update_of_ne hji]
      exact h.ledger j

theorem Chained.fromProposal_of_counted
    [LawfulPlatform P]
    (h : Chained c first s)
    {i : UInt16} {m : Message}
    (hm : .counted m ∈ history i s.log) :
    FromProposal c s.log m.block :=
  CosiCoin.fromProposal_of_counted (c := c.patient) rfl h.inv.causal (mem_history.mp hm)

/-- A taken block is a proposed one or a default block. -/
theorem Chained.taken
    [LawfulPlatform P]
    (h : Chained c first s)
    {i : UInt16} (hi : c.patient.Correct i)
    {b : Block}
    (hb : b ∈ ((s.stores i).node.getConsensusBlocks true).1) :
    ProposedOrEmpty c s.log b := by
  rcases (h.stored i hi).taken hb with hdefault | ⟨m, hm, hbody⟩
  · exact Or.inr (congrArg Prod.snd hdefault)
  · exact Or.inl (fromProposal_of_body (h.fromProposal_of_counted hm) hbody)

/-- Where the erased keys are read as they were, a proposed block is held for every key. -/
theorem Chained.exists_held
    [LawfulPlatform P]
    (h : Chained c first s)
    {i : UInt16} (hi : c.patient.Correct i)
    (hread : (s.stores i).node.erasedRead = keptRead)
    {k : Str}
    (hk : k ∈ (s.stores i).node.acceptedBlocks) :
    ∃ held, (s.stores i).node.blocks.lookup k = some held ∧ held.header.getID = k ∧
      FromProposal c s.log held := by
  have hdelivered : k ∈ deliveredHashes (history i s.log) :=
    ((h.ledger i).kept hread).once.subset (List.mem_append_right _ hk)
  obtain ⟨m, held, hm, hheld, hid, hbody⟩ := CosiCoin.exists_held h.inv.causal
    (h.keptFirst i hi hread) (mem_history.mp (mem_deliveredHashes.mp hdelivered))
  exact ⟨held, hheld, hid,
    fromProposal_of_body (h.fromProposal_of_counted (mem_history.mpr hm)) hbody⟩

/-- Then the taken blocks are proposed ones with the accepted hashes. -/
theorem Chained.taken_of_kept
    [LawfulPlatform P]
    (h : Chained c first s)
    {i : UInt16} (hi : c.patient.Correct i)
    (hread : (s.stores i).node.erasedRead = keptRead) :
    ((s.stores i).node.getConsensusBlocks true).1.map (fun b => b.header.getID) =
        (s.stores i).node.acceptedBlocks ∧
      ∀ b ∈ ((s.stores i).node.getConsensusBlocks true).1, FromProposal c s.log b := by
  rw [getConsensusBlocks_fst]
  constructor
  · rw [List.map_map]
    conv_rhs => rw [← List.map_id (s.stores i).node.acceptedBlocks]
    refine List.map_congr_left fun k hk => ?_
    obtain ⟨held, hheld, hhash, _⟩ := h.exists_held hi hread hk
    rw [Function.comp_apply, hheld]
    exact hhash
  · intro b hb
    obtain ⟨k, hk, rfl⟩ := List.mem_map.mp hb
    obtain ⟨held, hheld, _, hfrom⟩ := h.exists_held hi hread hk
    rw [hheld]
    exact hfrom

/-- What a step of `DBProcess`, or an event being popped, can do to the blocks. -/
theorem storeStep_cases
    {st t : StoreState} {a : StoreAction}
    (hstep : StoreStep st a t)
    (ha : a.ofThreads = true) :
    t.agreed = st.agreed ∧
      ((t.node = st.node ∧ t.blist = st.blist) ∨
        (a = .assign ∧ st.phase = .assign ∧ t.node = (st.node.getConsensusBlocks true).2 ∧
          t.blist = (st.node.getConsensusBlocks true).1)) := by
  cases hstep with
  | accept h hheld => cases ha
  | consensus nd hsame => cases ha
  | testTrue hphase hconsensus => exact ⟨rfl, Or.inl ⟨rfl, rfl⟩⟩
  | testFalse hphase hconsensus => exact ⟨rfl, Or.inl ⟨rfl, rfl⟩⟩
  | assignEmpty nd hphase htake =>
      rw [htake]
      exact ⟨rfl, Or.inr ⟨rfl, hphase, rfl, rfl⟩⟩
  | assign blocks nd hphase htake hblocks =>
      exact ⟨rfl, Or.inr (by rw [htake]; exact ⟨rfl, hphase, rfl, rfl⟩)⟩
  | publish hphase => exact ⟨rfl, Or.inl ⟨rfl, rfl⟩⟩
  | subscribe hphase => exact ⟨rfl, Or.inl ⟨rfl, rfl⟩⟩
  | otherPublish event hevent => exact ⟨rfl, Or.inl ⟨rfl, rfl⟩⟩
  | otherSubscribe event hevent => exact ⟨rfl, Or.inl ⟨rfl, rfl⟩⟩
  | pop event handler hidle hpop => exact ⟨rfl, Or.inl ⟨rfl, rfl⟩⟩
  | run event hcurrent => cases ha

/-- A step of `DBProcess` takes the accepted blocks or leaves them alone. -/
theorem Chained.store
    [LawfulPlatform P]
    (h : Chained c first s)
    {i : UInt16} (hi : c.patient.Correct i)
    {a : StoreAction} {t : StoreState}
    (ha : a.ofThreads = true)
    (hstep : StoreStep (s.stores i) a t) :
    Chained c first { s with stores := Function.update s.stores i t } := by
  have hsame : Function.update s.validators i (s.validators i) = s.validators :=
    Function.update_eq_self i s.validators
  rw [← hsame]
  obtain ⟨hagreed, ⟨hnode, hblist⟩ | ⟨_, _, hnode, hblist⟩⟩ := storeStep_cases hstep ha
  · have hquiet : (s.stores i).node.Quiet t.node := by
      rw [hnode]
      exact .refl _
    refine h.update hi hquiet ?_ ?_ ?_
    · rw [hnode]
      exact h.stored i hi
    · rw [hnode]
      exact h.keptFirst i hi
    · refine (h.ledger i).of_same hnode (by rw [hagreed, hblist]) ?_
      rw [hagreed]
      exact (h.ledger i).lists
  · refine h.update hi (by rw [hnode]; exact getConsensusBlocks_quiet _ true) ?_ ?_ ?_
    · rw [hnode]
      exact (h.stored i hi).take true
    · rw [hnode]
      refine (h.keptFirst i hi).take true fun hread k hk => ?_
      obtain ⟨held, hheld, _⟩ := h.exists_held hi hread hk
      exact Option.isSome_iff_exists.mpr ⟨held, hheld⟩
    · refine (h.ledger i).assign hnode hagreed hblist ?_ ?_
      · rw [hblist]
        exact fun b hb => h.taken hi hb
      · rw [hblist]
        exact h.taken_of_kept hi

/-- The tasks of an event move blocks to the ledger. -/
theorem Chained.run
    (h : Chained c first s)
    (hfirst : first.outpoints.Nodup)
    (hone : AtMostOneCoin first)
    {i : UInt16} (hi : c.patient.Correct i)
    {tasks : List StoreTask} {t : StoreState} {v' : Validator}
    (hrun : tasks.foldlM applyTask ({ s.stores i with current := .none }, s.validators i) =
      some (t, v')) :
    Chained c first
      { s with
        stores := Function.update s.stores i t
        validators := Function.update s.validators i v' } := by
  have ht : t = tasks.foldl StoreState.runTask { s.stores i with current := .none } :=
    foldlM_applyTask hrun
  obtain ⟨hnode, _, _, hblocks⟩ := foldl_runTask_same tasks { s.stores i with current := .none }
  rw [← ht] at hnode hblocks
  have hnode : t.node = (s.stores i).node := hnode
  refine h.update hi ?_ ?_ ?_ ?_
  · rw [hnode]
    exact .refl _
  · rw [hnode]
    exact h.stored i hi
  · rw [hnode]
    exact h.keptFirst i hi
  · refine (h.ledger i).of_same hnode hblocks ?_
    refine holdsUnspent_of_tasks hfirst hone (h.ledger i).lists ?_ hrun
    exact fun b hb => ((h.ledger i).blocks b (List.mem_append_right _ hb)).inputsFrom h.proposed

theorem chained_step
    [LawfulPlatform P]
    {s' : ChainState} {a : ChainAction}
    (hfirst : first.outpoints.Nodup)
    (hone : AtMostOneCoin first)
    (h : Chained c first s)
    (hstep : ChainStep c s a s') :
    Chained c first s' := by
  cases hstep with
  | recvTx i tx =>
      rcases onRecvTx_cases (s.validators i) tx with ⟨_, _, hv⟩ | ⟨_, hv⟩
      · rw [hv]
        exact h.update_validator i rfl
      · rw [hv]
        exact h.update_validator i rfl
  | createAndPropose b v' links' hcreate hpropose =>
      obtain ⟨rfl, hblk⟩ := createBlk_eq_ok hcreate
      have hown : ∀ t ∈ b.txs, t.InputsFrom first := fun t ht =>
        inputsFrom_of_spendable (fun w => (h.ledger c.leader).lists.sublist w) (hblk t ht).2
      have hproposed : ∀ b' ∈ proposals links'.log, ∀ t ∈ b'.txs, t.InputsFrom first := by
        intro b' hb'
        rcases hpropose.proposals with ⟨b₁, heq, hlog⟩ | ⟨hnone, _⟩
        · obtain rfl := LinkAction.propose.inj heq
          rw [hlog] at hb'
          rcases List.mem_cons.mp hb' with rfl | hb'
          · exact hown
          · exact h.proposed b' hb'
        · exact absurd rfl (hnone b)
      exact (h.follow hpropose hproposed).update_validator c.leader rfl
  | consensus a links' ha hlink =>
      refine h.follow hlink ?_
      rcases hlink.proposals with ⟨b, heq, _⟩ | ⟨_, hlog⟩
      · exact absurd heq (ha b)
      · rw [hlog]
        exact h.proposed
  | store i a t hi halive ha hstore =>
      exact h.store ⟨hi.1, Finset.notMem_empty i⟩ ha hstore
  | run i event t v' hi halive hcurrent hrun =>
      exact h.run hfirst hone ⟨hi.1, Finset.notMem_empty i⟩ hrun

theorem chained_init
    {walletsIds : List UInt32} {coins : UInt64}
    (h : ChainInit c walletsIds coins s) :
    Chained c (Validator.firstCoins { walletsIds := walletsIds } coins) s := by
  obtain ⟨urandom, erasedRead, rfl⟩ := h
  have hsystem : SystemInv c.patient (SystemState.initial c.patient urandom erasedRead
      (fun i => (firstValidator c walletsIds coins i).nodeUtxolist)
      (fun i => (firstValidator c walletsIds coins i).nodeWalletIds)) :=
    systemInv_init c.patient _ ⟨urandom, erasedRead, _, _, rfl⟩
  refine ⟨hsystem.toLogInv, ?_, ?_, ?_, fun i hi _ => hsystem.holdsFirst i hi, ?_⟩
  · exact ⟨fun _ _ _ hm => absurd hm List.not_mem_nil, fun _ _ hm => absurd hm List.not_mem_nil⟩
  · exact fun b hb => absurd hb List.not_mem_nil
  · intro i _
    exact ⟨fun m hm => absurd hm List.not_mem_nil, fun k b hb => by cases hb⟩
  · intro i
    refine ⟨le_rfl, nofun, ?_, fun _ => ⟨List.Subperm.refl _, nofun⟩⟩
    intro w
    refine (initializeCoins_get walletsIds coins w).trans ?_
    simp

/-- The invariant holds in every state of every run. -/
theorem chained_of_reachable
    [LawfulPlatform P]
    {walletsIds : List UInt32} {coins : UInt64}
    (hids : walletsIds.Nodup)
    (hrun : Reachable (ChainInit c walletsIds coins) (ChainStep c) s) :
    Chained c (Validator.firstCoins { walletsIds := walletsIds } coins) s := by
  have hfirst := firstCoins_outpoints_nodup walletsIds coins (length_le_of_nodup hids)
  have hone := atMostOneCoin_firstCoins hids coins
  exact hrun.invariant (fun _ hinit => chained_init hinit)
    fun _ _ _ h hstep => chained_step hfirst hone h hstep

end Invariant

section HandOver

variable [P : Platform]

variable {c : Committee} {s : ChainState}

/-- The condition on a step: the threads of validator `i` hand their blocks over. -/
def HandsOver (i : UInt16) (s : ChainState) : ChainAction → Prop
  | .store j a => j = i → HandedOver (s.stores j) a
  | _ => True

/-- Nothing that validator `i` has accepted is lost. -/
structure NothingLost (i : UInt16) (s : ChainState) : Prop where
  waiting : StoreWaiting (s.stores i)
  length : (s.stores i).hashes.length = (deliveredHashes (history i s.log)).length

theorem NothingLost.follow
    {i : UInt16} {a : LinkAction} {links' : LinkState}
    (h : NothingLost i s)
    (hstep : LinkStep c s.links a links') :
    NothingLost i (s.follow links') := by
  obtain ⟨evs, happends, hhist⟩ := hstep.advances i
  refine ⟨⟨h.waiting.waiting, h.waiting.stores, h.waiting.others⟩, ?_⟩
  have hhashes : ((s.follow links').stores i).hashes =
      (s.stores i).hashes ++ (s.stores i).node.recordedKeys (deliveredHashes evs) :=
    hashes_follow happends
  have hlog : history i (s.follow links').log = evs.reverse ++ history i s.log := hhist
  rw [hhashes, hlog, deliveredHashes_append, deliveredHashes_reverse, List.length_append,
    List.length_append, List.length_reverse, length_recordedKeys, h.length, Nat.add_comm]

/-- The threads of validator `i` take a step that loses nothing. -/
theorem NothingLost.update
    {i j : UInt16} {a : StoreAction} {t : StoreState}
    (h : NothingLost i s)
    (hguard : HandsOver i s (.store j a))
    (hstep : StoreStep (s.stores j) a t)
    (hlength : HandedOver (s.stores j) a → t.hashes.length = (s.stores j).hashes.length)
    (v : UInt16 → Validator) :
    NothingLost i { s with stores := Function.update s.stores j t, validators := v } := by
  by_cases hj : i = j
  · subst hj
    have hover := hguard rfl
    constructor
    · dsimp only
      rw [Function.update_self]
      exact storeWaiting_step _ a _ h.waiting ⟨hover, hstep⟩
    · dsimp only
      rw [Function.update_self, hlength hover]
      exact h.length
  · constructor
    · dsimp only
      rw [Function.update_of_ne hj]
      exact h.waiting
    · dsimp only
      rw [Function.update_of_ne hj]
      exact h.length

theorem nothingLost_step
    {i : UInt16} {s' : ChainState} {a : ChainAction}
    (h : NothingLost i s)
    (hstep : Guarded (HandsOver i) (ChainStep c) s a s') :
    NothingLost i s' := by
  obtain ⟨hguard, hstep⟩ := hstep
  cases hstep with
  | recvTx j tx => exact ⟨h.waiting, h.length⟩
  | createAndPropose b v' links' hcreate hpropose =>
      obtain ⟨hwaiting, hlength⟩ := h.follow hpropose
      exact ⟨hwaiting, hlength⟩
  | consensus a links' ha hlink => exact h.follow hlink
  | store j a t hj halive ha hstore =>
      refine h.update hguard hstore (fun hover => ?_) s.validators
      obtain ⟨hagreed, ⟨hnode, hblist⟩ | ⟨rfl, _, hnode, hblist⟩⟩ := storeStep_cases hstore ha
      · rw [StoreState.hashes, StoreState.hashes, hagreed, hblist, hnode]
      · have hcleared : (s.stores j).blist = [] := hover
        rw [length_hashes_of_taken hnode hagreed hblist, StoreState.hashes, hcleared]
        simp
  | run j event t v' hj halive hcurrent hrun =>
      obtain rfl := foldlM_applyTask hrun
      refine h.update hguard (.run _ event hcurrent) (fun _ => ?_) _
      obtain ⟨hnode, _, _, hblocks⟩ := foldl_runTask_same
        ((s.stores j).handler.subscribers event) { s.stores j with current := .none }
      rw [StoreState.hashes, StoreState.hashes, hblocks, hnode]

/-- In a run that hands all blocks of validator `i` over, none of them is lost. -/
theorem nothingLost_of_reachable
    {walletsIds : List UInt32} {coins : UInt64} {i : UInt16}
    (hrun : Reachable (ChainInit c walletsIds coins)
      (Guarded (HandsOver i) (ChainStep c)) s) :
    NothingLost i s := by
  refine hrun.invariant ?_ fun _ _ _ h hstep => nothingLost_step h hstep
  rintro s ⟨urandom, erasedRead, rfl⟩
  exact ⟨storeWaiting_new _, rfl⟩

end HandOver

end CosiCoin
