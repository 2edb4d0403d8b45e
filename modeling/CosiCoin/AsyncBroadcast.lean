import CosiCoin.CausalLog
import CosiCoin.LabelledRuns
import CosiCoin.NodeHistory

/-!
# COSICOIN: the validators over an asynchronous network

A system of validators that follow the code, except for the faulty ones.  The
network may delay, drop, duplicate and reorder messages: a task may be given any
list of messages that some correct validator has broadcast before, as they
arrive after the wire, or that carry the signature of a faulty validator.  A
faulty validator is not modelled further; whatever can be decoded from the wire
and names it as the signer may arrive at any node, any number of times.

The log of a system lists the events of all nodes, newest first.  In every
reachable state each entry of the log has its cause in the earlier part
(`Rule`), and each correct node is in line with its own part of the log; this is
`systemInv_of_reachable`, from which the safety properties are derived.
-/

namespace CosiCoin

open LabelledRuns CausalLog Node

/-- The configured validators, with the faulty ones among them. -/
structure Committee where
  vals : Finset UInt16
  f : Nat
  leader : UInt16
  byz : Finset UInt16
  leader_mem : leader ∈ vals
  byz_subset : byz ⊆ vals
  byz_card : byz.card ≤ f
  card_lt : vals.card < 2 ^ 16

namespace Committee

/-- The number of validators, `n_`. -/
def n (c : Committee) : Nat :=
  c.vals.card

/-- A validator that follows the code. -/
def Correct (c : Committee) (i : UInt16) : Prop :=
  i ∈ c.vals ∧ i ∉ c.byz

instance (c : Committee) (i : UInt16) : Decidable (c.Correct i) :=
  inferInstanceAs (Decidable (_ ∧ _))

/-- The number of `ECHO` messages after which `READY` is sent. -/
def echoThreshold (c : Committee) : Nat :=
  (c.n + c.f + 1) / 2

end Committee

/-- The events of all nodes, newest first. -/
abbrev Log := List (UInt16 × NodeEvent)

/-- The part of the log that belongs to one node. -/
def history (i : UInt16) (log : Log) : List NodeEvent :=
  log.filterMap fun e => if e.1 = i then some e.2 else none

theorem mem_history
    {i : UInt16} {log : Log} {e : NodeEvent} :
    e ∈ history i log ↔ (i, e) ∈ log := by
  constructor
  · intro h
    obtain ⟨⟨j, e'⟩, hin, heq⟩ := List.mem_filterMap.mp h
    split_ifs at heq with hj
    obtain rfl := Option.some.inj heq
    subst hj
    exact hin
  · intro h
    exact List.mem_filterMap.mpr ⟨(i, e), h, by simp⟩

theorem history_append
    (i : UInt16) (log log' : Log) :
    history i (log ++ log') = history i log ++ history i log' :=
  List.filterMap_append

/-- All nodes and the log of the run. -/
structure SystemState where
  nodes : UInt16 → Node
  log : Log := []

/-- A node moves to a new state and its events are logged. -/
def SystemState.record (s : SystemState) (i : UInt16) (nd : Node) (evs : List NodeEvent) :
    SystemState where
  nodes := Function.update s.nodes i nd
  log := (evs.reverse.map fun e => (i, e)) ++ s.log

theorem history_map_self
    (i : UInt16) (evs : List NodeEvent) :
    history i (evs.map fun e => (i, e)) = evs := by
  simp [history, List.filterMap_map]

theorem history_map_of_ne
    {i j : UInt16}
    (h : j ≠ i)
    (evs : List NodeEvent) :
    history j (evs.map fun e => (i, e)) = [] := by
  simp [history, Ne.symm h]

theorem record_history_self
    (s : SystemState) (i : UInt16) (nd : Node) (evs : List NodeEvent) :
    history i (s.record i nd evs).log = evs.reverse ++ history i s.log := by
  rw [SystemState.record, history_append, history_map_self]

theorem record_history_of_ne
    (s : SystemState) {i j : UInt16} (h : j ≠ i) (nd : Node) (evs : List NodeEvent) :
    history j (s.record i nd evs).log = history j s.log := by
  rw [SystemState.record, history_append, history_map_of_ne h, List.nil_append]

/-- Recording step by step is recording at once. -/
theorem record_record
    (s : SystemState) (i : UInt16) (nd nd' : Node) (evs evs' : List NodeEvent) :
    (s.record i nd evs).record i nd' evs' = s.record i nd' (evs ++ evs') := by
  simp [SystemState.record]

/-- The memory of the other nodes is not touched. -/
theorem record_erasedRead
    {s : SystemState} {j : UInt16} {nd : Node}
    (h : nd.erasedRead = (s.nodes j).erasedRead)
    (evs : List NodeEvent) (i : UInt16) :
    ((s.record j nd evs).nodes i).erasedRead = (s.nodes i).erasedRead := by
  by_cases hi : i = j
  · subst hi
    simpa [SystemState.record] using h
  · simp [SystemState.record, hi]

section System

variable [Platform]

/-- A message that may arrive at a node. -/
def Available (c : Committee) (log : Log) (m : Message) : Prop :=
  (∃ j m₀, (j, .broadcast m₀) ∈ log ∧ m₀.wire = .ok m) ∨
    (m.block.validatorId ∈ c.byz ∧ ∃ p, Message.fromProtoMessage p = .ok m)

/-- What can happen in a run. -/
inductive SystemAction where
  | propose (b : Block)
  | runTask (i : UInt16) (msgs : List Message)
  | restart (i : UInt16)
  | setUTXOlists (i : UInt16) (utxolist : UTXOlist) (walletIds : List UInt32)

/-- One step of the system. -/
inductive SystemStep (c : Committee) : SystemState → SystemAction → SystemState → Prop
  | propose
      (s : SystemState) (b : Block) (nd : Node) (evs : List NodeEvent)
      (hleader : c.Correct c.leader)
      (h : (s.nodes c.leader).propose b = .ok (nd, evs)) :
      SystemStep c s (.propose b) (s.record c.leader nd evs)
  | runTask
      (s : SystemState) (i : UInt16) (msgs : List Message) (nd : Node) (evs : List NodeEvent)
      (hi : c.Correct i)
      (hrunning : (s.nodes i).shouldBroadcast = true)
      (havail : ∀ m ∈ msgs, Available c s.log m)
      (h : (s.nodes i).RunTask msgs nd evs) :
      SystemStep c s (.runTask i msgs) (s.record i nd evs)
  | restart
      (s : SystemState) (i : UInt16)
      (hi : c.Correct i)
      (hreturned : (s.nodes i).shouldBroadcast = false) :
      SystemStep c s (.restart i) (s.record i ((s.nodes i).runProtocol true) [.restarted])
  | setUTXOlists
      (s : SystemState) (i : UInt16) (utxolist : UTXOlist) (walletIds : List UInt32)
      (hi : c.Correct i) :
      SystemStep c s (.setUTXOlists i utxolist walletIds)
        (s.record i ((s.nodes i).setUTXOlists utxolist walletIds) [])

/-- All nodes are new, with the lists of unspent outputs they were given. -/
def SystemState.initial (c : Committee) (urandom : UInt16 → Nat → Draw)
    (erasedRead : UInt16 → Nat → Str → Str)
    (utxolist : UInt16 → UTXOlist) (walletIds : UInt16 → List UInt32) : SystemState where
  nodes := fun i =>
    Node.setUTXOlists (Node.new i c.n c.f (decide (i = c.leader)) (urandom i) (erasedRead i))
      (utxolist i) (walletIds i)

/-- The states in which a run starts. -/
def SystemInit (c : Committee) (s : SystemState) : Prop :=
  ∃ urandom erasedRead utxolist walletIds,
    s = SystemState.initial c urandom erasedRead utxolist walletIds

/-- The states a run of the committee can reach. -/
def SystemReachable (c : Committee) : SystemState → Prop :=
  Reachable (SystemInit c) (SystemStep c)

end System

section Invariant

variable [Platform]

/-- The body of a broadcast block is the one its node counted first for the hash. -/
def EchoesCounted (i : UInt16) (m : Message) (earlier : Log) : Prop :=
  ∃ m', firstCounted m.block.header.getID (history i earlier) = some m' ∧
    m'.block.body = m.block.body

/-- The cause of a broadcast message in the earlier part of the log. -/
def BroadcastRule (c : Committee) (i : UInt16) (m : Message) (earlier : Log) : Prop :=
  match m.type with
  | .send => ∃ b, (c.leader, .proposed b) ∈ earlier ∧ m.block.body = b.body
  | .echo => EchoesCounted i m earlier ∧
      0 < votes .send m.block.header.getID (history i earlier)
  | .ready => EchoesCounted i m earlier ∧
      (c.echoThreshold ≤ votes .echo m.block.header.getID (history i earlier) ∨
        c.f + 1 ≤ votes .ready m.block.header.getID (history i earlier))
  | .other => False

/-- The cause of an event in the earlier part of the log. -/
def Rule (c : Committee) (e : UInt16 × NodeEvent) (earlier : Log) : Prop :=
  c.Correct e.1 ∧
  match e.2 with
  | .proposed _ => e.1 = c.leader
  | .counted m => Available c earlier m
  | .broadcast m => m.block.validatorId = e.1 ∧ BroadcastRule c e.1 m earlier
  | .delivered h => 2 * c.f + 1 < votes .ready h (history e.1 earlier)
  | .restarted => True

/-- A node with the numbers of its committee. -/
structure Configured (c : Committee) (i : UInt16) (nd : Node) : Prop where
  id : nd.id = i
  n : nd.n = c.n
  f : nd.f = c.f

/-- The log has its causes, and the correct nodes are in line with it. -/
structure LogInv (c : Committee) (s : SystemState) : Prop where
  causal : Causal (Rule c) s.log
  configured : ∀ i, c.Correct i → Configured c i (s.nodes i)
  recorded : ∀ i, c.Correct i → Recorded (s.nodes i) (history i s.log)

/-- While no accepted blocks are taken, the correct nodes also hold the first blocks. -/
structure SystemInv (c : Committee) (s : SystemState) : Prop extends LogInv c s where
  holdsFirst : ∀ i, c.Correct i → HoldsFirst (s.nodes i) (history i s.log)

theorem Available.mono
    {c : Committee} {log : Log} {m : Message}
    (h : Available c log m)
    (later : Log) :
    Available c (later ++ log) m := by
  rcases h with ⟨j, m₀, hin, hwire⟩ | hbyz
  · exact Or.inl ⟨j, m₀, List.mem_append_right _ hin, hwire⟩
  · exact Or.inr hbyz

theorem Configured.step
    {c : Committee} {i : UInt16} {nd nd' : Node} {ev : List NodeEvent}
    (h : Configured c i nd)
    (hstep : NodeStep nd ev nd') :
    Configured c i nd' := by
  cases hstep with
  | quiet hq hkept =>
      exact ⟨hq.id.trans h.id, hq.n.trans h.n, hq.f.trans h.f⟩
  | count m =>
      obtain ⟨hid, hn, hf, _⟩ := countMessage_same nd m
      exact ⟨hid.trans h.id, hn.trans h.n, hf.trans h.f⟩
  | echo m hsend hm =>
      exact ⟨h.id, h.n, h.f⟩
  | ready m hash round hvotes hsent hm =>
      exact ⟨h.id, h.n, h.f⟩
  | deliver hash hvotes =>
      exact ⟨h.id, h.n, h.f⟩
  | restart =>
      exact ⟨h.id, h.n, h.f⟩

/-- The nodes of a system after one of them has moved. -/
theorem logInv_record
    {c : Committee} {s : SystemState} {i : UInt16} {nd : Node} {evs : List NodeEvent}
    (h : LogInv c s)
    (hconf : Configured c i nd)
    (hrec : Recorded nd (evs.reverse ++ history i s.log))
    (hcausal : Causal (Rule c) (s.record i nd evs).log) :
    LogInv c (s.record i nd evs) := by
  refine ⟨hcausal, ?_, ?_⟩
  · intro j hj
    by_cases hji : j = i
    · subst hji
      simpa [SystemState.record] using hconf
    · simpa [SystemState.record, hji] using h.configured j hj
  · intro j hj
    by_cases hji : j = i
    · subst hji
      rw [record_history_self]
      simpa [SystemState.record] using hrec
    · rw [record_history_of_ne s hji]
      simpa [SystemState.record, hji] using h.recorded j hj

/-- The events of one step of a correct node have their causes. -/
theorem causal_step
    {c : Committee} {s : SystemState} {i : UInt16} {nd : Node} {ev : List NodeEvent}
    (h : LogInv c s)
    (hi : c.Correct i)
    (hstep : NodeStep (s.nodes i) ev nd)
    (havail : ∀ m ∈ countedMessages ev, Available c s.log m) :
    Causal (Rule c) (s.record i nd ev).log := by
  have hconf := h.configured i hi
  have hrec := h.recorded i hi
  cases hstep with
  | quiet hq hkept =>
      exact h.causal
  | count m =>
      exact ⟨⟨hi, havail m (by simp [countedMessages])⟩, h.causal⟩
  | echo m hsend hm =>
      obtain ⟨htype, _, _, hid⟩ := Signs.type_eq hm
      obtain ⟨m', hfirst, hbody, hhash⟩ := hrec.body_of_signs hm
      refine ⟨⟨hi, hid.trans hconf.id, ?_⟩, h.causal⟩
      rw [BroadcastRule, htype]
      refine ⟨⟨m', by rw [hhash]; exact hfirst, hbody⟩, ?_⟩
      rw [hhash]
      exact hrec.send hsend
  | ready m hash round hvotes hsent hm =>
      obtain ⟨htype, _, _, hid⟩ := Signs.type_eq hm
      obtain ⟨m', hfirst, hbody, hhash⟩ := hrec.body_of_signs hm
      refine ⟨⟨hi, hid.trans hconf.id, ?_⟩, h.causal⟩
      rw [BroadcastRule, htype]
      refine ⟨⟨m', by rw [hhash]; exact hfirst, hbody⟩, ?_⟩
      rw [hhash, Committee.echoThreshold, ← hconf.n, ← hconf.f]
      rcases hvotes with hecho | hready
      · exact Or.inl (hecho.trans (hrec.echo hash))
      · have hle := hrec.ready hash
        have henough : (s.nodes i).f + 1 ≤ votes .ready hash (history i s.log) := by omega
        exact Or.inr henough
  | deliver hash hvotes =>
      refine ⟨⟨hi, ?_⟩, h.causal⟩
      show 2 * c.f + 1 < votes .ready hash (history i s.log)
      have := hrec.ready hash
      rw [← hconf.f]
      omega
  | restart =>
      exact ⟨⟨hi, trivial⟩, h.causal⟩

/-- A sequence of steps of a correct node preserves the invariant. -/
theorem logInv_nodeRun
    {c : Committee} {i : UInt16} {nd nd' : Node} {evs : List NodeEvent}
    (hrun : NodeRun nd evs nd') :
    ∀ {s : SystemState}, LogInv c s → c.Correct i → s.nodes i = nd →
      (∀ m ∈ countedMessages evs, Available c s.log m) →
      LogInv c (s.record i nd' evs) := by
  induction hrun with
  | refl nd =>
      intro s h hi hnd _
      have hsame : s.record i nd [] = s := by
        simp [SystemState.record, ← hnd]
      rw [hsame]
      exact h
  | @head nd nd₁ nd' ev evs hstep rest ih =>
      intro s h hi hnd havail
      rw [countedMessages_append] at havail
      subst hnd
      have hfirst : LogInv c (s.record i nd₁ ev) := by
        refine logInv_record h ((h.configured i hi).step hstep)
          ((h.recorded i hi).step hstep) (causal_step h hi hstep ?_)
        intro m hm
        exact havail m (List.mem_append_left _ hm)
      rw [← record_record s i nd₁]
      refine ih hfirst hi (by simp [SystemState.record]) ?_
      intro m hm
      exact (havail m (List.mem_append_right _ hm)).mono _

theorem logInv_propose
    {c : Committee} {s : SystemState} {b : Block} {nd : Node} {evs : List NodeEvent}
    (h : LogInv c s)
    (hleader : c.Correct c.leader)
    (hprop : (s.nodes c.leader).propose b = .ok (nd, evs)) :
    LogInv c (s.record c.leader nd evs) := by
  obtain ⟨rfl, m, hm, rfl⟩ := propose_eq_ok hprop
  have hconf := h.configured _ hleader
  obtain ⟨htype, hheader, htxs, hid⟩ := Signs.type_eq hm
  refine logInv_record h ⟨hconf.id, hconf.n, hconf.f⟩
    ((h.recorded _ hleader).propose hm) ?_
  refine ⟨⟨hleader, hid.trans hconf.id, ?_⟩, ⟨hleader, rfl⟩, h.causal⟩
  rw [BroadcastRule, htype]
  exact ⟨b, List.mem_cons_self, by rw [Block.body, Block.body, hheader, htxs]⟩

/-- A step of the system is a run of steps of a correct node, or a proposal. -/
theorem systemStep_nodeRun
    {c : Committee} {s s' : SystemState} {a : SystemAction}
    (hstep : SystemStep c s a s') :
    (∃ i nd evs, c.Correct i ∧ NodeRun (s.nodes i) evs nd ∧ s' = s.record i nd evs ∧
      ∀ m ∈ countedMessages evs, Available c s.log m) ∨
    ∃ b nd evs, c.Correct c.leader ∧ (s.nodes c.leader).propose b = .ok (nd, evs) ∧
      s' = s.record c.leader nd evs := by
  cases hstep with
  | propose b nd evs hleader hprop =>
      exact Or.inr ⟨b, nd, evs, hleader, hprop, rfl⟩
  | runTask i msgs nd evs hi hrunning havail htask =>
      obtain ⟨hrun, hsub⟩ := runTask_nodeRun htask
      exact Or.inl ⟨i, nd, evs, hi, hrun, rfl, fun m hm => havail m (hsub.subset hm)⟩
  | restart i hi hreturned =>
      exact Or.inl ⟨i, _, _, hi, .single (.restart (s.nodes i)), rfl, by simp [countedMessages]⟩
  | setUTXOlists i utxolist walletIds hi =>
      exact Or.inl ⟨i, _, _, hi, .single (.quiet (setUTXOlists_quiet _ utxolist walletIds)
        ⟨rfl, rfl, rfl⟩), rfl, by simp [countedMessages]⟩

theorem SystemStep.erasedRead_eq
    {c : Committee} {s s' : SystemState} {a : SystemAction}
    (hstep : SystemStep c s a s')
    (i : UInt16) :
    (s'.nodes i).erasedRead = (s.nodes i).erasedRead := by
  rcases systemStep_nodeRun hstep with ⟨j, nd, evs, _, hrun, rfl, _⟩ | hpropose
  · exact record_erasedRead hrun.erasedRead_eq evs i
  · obtain ⟨b, nd, evs, _, hprop, rfl⟩ := hpropose
    obtain ⟨rfl, _⟩ := propose_eq_ok hprop
    have hsame : (s.nodes c.leader).rotateKeys.erasedRead = (s.nodes c.leader).erasedRead := rfl
    exact record_erasedRead hsame evs i

theorem logInv_step
    {c : Committee} {s s' : SystemState} {a : SystemAction}
    (h : LogInv c s)
    (hstep : SystemStep c s a s') :
    LogInv c s' := by
  rcases systemStep_nodeRun hstep with ⟨i, nd, evs, hi, hrun, rfl, havail⟩ | hpropose
  · exact logInv_nodeRun hrun h hi rfl havail
  · obtain ⟨b, nd, evs, hleader, hprop, rfl⟩ := hpropose
    exact logInv_propose h hleader hprop

/-- What the steps of a node and its proposals preserve is preserved of every correct node. -/
theorem nodes_step
    {c : Committee} {Q : Node → List NodeEvent → Prop}
    (hnode : ∀ nd ev nd' hist, Q nd hist → NodeStep nd ev nd' → Q nd' (ev.reverse ++ hist))
    (hpropose : ∀ nd b m hist, Q nd hist → nd.Signs .send b 0 m →
      Q nd.rotateKeys (.broadcast m :: .proposed b :: hist))
    {s s' : SystemState} {a : SystemAction}
    (h : ∀ i, c.Correct i → Q (s.nodes i) (history i s.log))
    (hstep : SystemStep c s a s') :
    ∀ i, c.Correct i → Q (s'.nodes i) (history i s'.log) := by
  have hmoved : ∃ j nd evs, s' = s.record j nd evs ∧ Q nd (evs.reverse ++ history j s.log) := by
    rcases systemStep_nodeRun hstep with ⟨j, nd, evs, hj, hrun, hs', _⟩ | hproposed
    · exact ⟨j, nd, evs, hs', nodeRun_invariant hnode hrun (h j hj)⟩
    · obtain ⟨b, nd, evs, hleader, hprop, hs'⟩ := hproposed
      obtain ⟨rfl, m, hm, rfl⟩ := propose_eq_ok hprop
      exact ⟨c.leader, _, _, hs', hpropose _ b m _ (h _ hleader) hm⟩
  obtain ⟨j, nd, evs, rfl, hQ⟩ := hmoved
  intro i hi
  by_cases hij : i = j
  · subst hij
    rw [record_history_self]
    simpa [SystemState.record] using hQ
  · rw [record_history_of_ne s hij]
    simpa [SystemState.record, hij] using h i hi

theorem systemInv_step
    (c : Committee)
    (s : SystemState) (a : SystemAction) (s' : SystemState)
    (h : SystemInv c s)
    (hstep : SystemStep c s a s') :
    SystemInv c s' := by
  refine { logInv_step h.toLogInv hstep with
    holdsFirst := nodes_step (fun _ _ _ _ hfirst => hfirst.step) ?_ h.holdsFirst hstep }
  intro nd b m hist hfirst _
  have hproposed : HoldsFirst nd.rotateKeys (.proposed b :: hist) := hfirst.cons rfl nofun
  exact hproposed.cons rfl nofun

theorem systemInv_init
    (c : Committee)
    (s : SystemState)
    (h : SystemInit c s) :
    SystemInv c s := by
  obtain ⟨urandom, erasedRead, utxolist, walletIds, rfl⟩ := h
  refine ⟨⟨trivial, ?_, ?_⟩, ?_⟩
  · intro i _
    exact ⟨rfl, rfl, rfl⟩
  · intro i _
    exact (Recorded.new i c.n c.f (decide (i = c.leader)) (urandom i) (erasedRead i)).quiet
      (setUTXOlists_quiet _ _ _)
  · intro i _ h
    rfl

/-- The invariant holds in every reachable state. -/
theorem systemInv_of_reachable
    {c : Committee} {s : SystemState}
    (h : SystemReachable c s) :
    SystemInv c s :=
  h.invariant (systemInv_init c) (systemInv_step c)

/-- The block held under an accepted hash is the one counted first, before the acceptance. -/
theorem held_of_holdsFirst
    {c : Committee} {s : SystemState}
    (hcausal : Causal (Rule c) s.log)
    {i : UInt16}
    (hholds : HoldsFirst (s.nodes i) (history i s.log))
    {h : Str} {later earlier : Log}
    (hlog : s.log = later ++ (i, .delivered h) :: earlier) :
    ∃ m held, (i, .counted m) ∈ earlier ∧ m.block.header.getID = h ∧
      (s.nodes i).blocks.lookup h = some held ∧ held.body = m.block.body := by
  rw [hlog] at hcausal
  obtain ⟨_, hvotes⟩ := hcausal.cause
  have hpos : 0 < votes .ready h (history i earlier) := lt_of_le_of_lt (Nat.zero_le _) hvotes
  obtain ⟨m, hm, _, hhash⟩ := exists_of_votes_pos hpos
  obtain ⟨first, hfirst⟩ := firstCounted_isSome hm hhash
  obtain ⟨hcounted, hfirstHash⟩ := firstCounted_spec hfirst
  have hblocks := hholds h
  have hhist : history i s.log =
      history i (later ++ [(i, .delivered h)]) ++ history i earlier := by
    rw [hlog, ← history_append, List.append_assoc, List.singleton_append]
  rw [hhist, firstCounted_append hfirst] at hblocks
  obtain ⟨held, hheld, hbody⟩ := Option.map_eq_some_iff.mp hblocks
  exact ⟨first, held, mem_history.mp hcounted, hfirstHash, hheld, hbody⟩

theorem held_of_delivered
    {c : Committee} {s : SystemState}
    (hinv : SystemInv c s)
    {i : UInt16} {h : Str} {later earlier : Log}
    (hlog : s.log = later ++ (i, .delivered h) :: earlier) :
    ∃ m held, (i, .counted m) ∈ earlier ∧ m.block.header.getID = h ∧
      (s.nodes i).blocks.lookup h = some held ∧ held.body = m.block.body := by
  have hcausal := hinv.causal
  rw [hlog] at hcausal
  exact held_of_holdsFirst hinv.causal (hinv.holdsFirst i hcausal.cause.1) hlog

/-- What a node holds under a hash it has accepted, wherever this is in the log. -/
theorem exists_held
    {c : Committee} {s : SystemState}
    (hcausal : Causal (Rule c) s.log)
    {i : UInt16}
    (hholds : HoldsFirst (s.nodes i) (history i s.log))
    {h : Str}
    (hdel : (i, .delivered h) ∈ s.log) :
    ∃ m held, (i, .counted m) ∈ s.log ∧ (s.nodes i).blocks.lookup h = some held ∧
      held.header.getID = h ∧ held.body = m.block.body := by
  obtain ⟨later, earlier, hlog⟩ := List.append_of_mem hdel
  obtain ⟨m, held, hm, hhash, hheld, hbody⟩ := held_of_holdsFirst hcausal hholds hlog
  have hheader : held.header = m.block.header := congrArg Prod.fst hbody
  refine ⟨m, held, ?_, hheld, by rw [hheader, hhash], hbody⟩
  rw [hlog]
  exact List.mem_append_right _ (List.mem_cons_of_mem _ hm)

end Invariant

end CosiCoin
