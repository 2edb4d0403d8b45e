import CosiCoin.BrachaAgreement
import CosiCoin.KeyChainRuns
import CosiCoin.NodeLifetime
import CosiCoin.RoundFrame
import CosiCoin.WireRoundTrip

/-!
# COSICOIN: ECHO messages and batches

The node remembers the hash of a `SEND` in a single variable, which every batch
empties first and which the round after the batch echoes.  So a batch is answered
by one `ECHO`, for its last accepted `SEND`, if it has one (`runTask_echo`), and
each hash with an accepted `SEND` is echoed once if and only if it is the last
one of exactly one batch (`echoedOnce_iff`).

No exception stands in the way: a node completes every batch of messages read
from the wire, in whatever order its counters are listed (`completes_of_reachable`).
-/

namespace CosiCoin

open LabelledRuns Node

section Batches

variable [P : Platform]

/-- An `ECHO` for a hash. -/
def isEchoFor (h : Str) : NodeEvent → Bool
  | .broadcast m => m.type = .echo ∧ m.block.header.getID = h
  | _ => false

/-- The number of `ECHO` messages broadcast for a hash. -/
def echoBroadcasts (h : Str) (evs : List NodeEvent) : Nat :=
  evs.countP (isEchoFor h)

/-- The hashes of the `SEND` messages that passed the checks, in order. -/
def sendHashes (evs : List NodeEvent) : List Str :=
  ((countedMessages evs).filter fun m => m.type = .send).map fun m => m.block.header.getID

/-- Batches of messages, each followed by `broadcastRound`, with the events of each. -/
inductive Node.Batches : Node → List (List Message) → List (List NodeEvent) → Node → Prop
  | nil
      (nd : Node) :
      Batches nd [] [] nd
  | cons
      {nd nd₁ nd' : Node} {msgs : List Message} {evs : List NodeEvent}
      {batches : List (List Message)} {evss : List (List NodeEvent)}
      (h : nd.RunTask msgs nd₁ evs)
      (rest : Batches nd₁ batches evss nd') :
      Batches nd (msgs :: batches) (evs :: evss) nd'

/-- The batches go through without an exception, in whatever order the counters are listed. -/
def Node.Completes : List (List Message) → Node → Prop
  | [], _ => True
  | msgs :: batches, nd =>
      ∃ nd₁ ev₁, nd.updateRecvMessages msgs = .ok (nd₁, ev₁) ∧
        ∀ nd₂, nd₁.Rehashed nd₂ →
          ∃ nd' ev₂, nd₂.broadcastRound = .ok (nd', ev₂) ∧ nd'.Completes batches

/-- One `ECHO` for every hash with an accepted `SEND`, and none for any other. -/
def EchoedOnce (evss : List (List NodeEvent)) : Prop :=
  ∀ h, echoBroadcasts h evss.flatten = if h ∈ sendHashes evss.flatten then 1 else 0

/-- Every hash with an accepted `SEND` is the last one of exactly one batch. -/
def LastOfOneBatch (evss : List (List NodeEvent)) : Prop :=
  ∀ h ∈ sendHashes evss.flatten, evss.countP (fun evs => (sendHashes evs).getLast? = some h) = 1

theorem sendHashes_append
    (evs evs' : List NodeEvent) :
    sendHashes (evs ++ evs') = sendHashes evs ++ sendHashes evs' := by
  simp [sendHashes]

theorem sendHashes_of_counted_nil
    {evs : List NodeEvent}
    (h : countedMessages evs = []) :
    sendHashes evs = [] := by
  rw [sendHashes, h]
  rfl

theorem sendHashes_counted
    (m : Message) :
    sendHashes [.counted m] = if m.type = .send then [m.block.header.getID] else [] := by
  by_cases htype : m.type = .send
  · simp [sendHashes, countedMessages, htype]
  · simp [sendHashes, countedMessages, htype]

theorem echoBroadcasts_append
    (h : Str) (evs evs' : List NodeEvent) :
    echoBroadcasts h (evs ++ evs') = echoBroadcasts h evs + echoBroadcasts h evs' :=
  List.countP_append

theorem echoBroadcasts_of_onlyReady
    {evs : List NodeEvent}
    (hready : OnlyReady evs)
    (h : Str) :
    echoBroadcasts h evs = 0 := by
  rw [echoBroadcasts, List.countP_eq_zero]
  intro e he hecho
  cases e with
  | broadcast m =>
      have htype : m.type = .echo := by
        simp only [isEchoFor, decide_eq_true_eq] at hecho
        exact hecho.1
      rw [hready m he] at htype
      cases htype
  | proposed b => cases hecho
  | counted m => cases hecho
  | delivered k => cases hecho
  | restarted => cases hecho

end Batches

section Echoes

variable [P : Platform]

/-- A received message broadcasts nothing, and its `SEND` is the last one. -/
theorem recvMessage_send
    {nd nd' : Node} {m : Message} {evs : List NodeEvent}
    (h : nd.recvMessage m = .ok (nd', evs)) :
    OnlyReady evs ∧ nd'.sendThisRound = ((sendHashes evs).getLast?).getD nd.sendThisRound := by
  rcases recvMessage_cases h with ⟨_, rfl, rfl⟩ | ⟨_, rfl, rfl⟩
  · exact ⟨by simp [OnlyReady], rfl⟩
  · refine ⟨by simp [OnlyReady], ?_⟩
    rw [(receive_counters nd m).2.2.1, sendHashes_counted]
    split_ifs
    · rfl
    · rfl

/-- After a batch the pending `SEND` is the last accepted one. -/
theorem recvMessages_send
    {msgs : List Message} :
    ∀ {nd nd' : Node} {evs : List NodeEvent}, recvMessages msgs nd = .ok (nd', evs) →
      OnlyReady evs ∧ nd'.sendThisRound = ((sendHashes evs).getLast?).getD nd.sendThisRound := by
  induction msgs with
  | nil =>
      intro nd nd' evs h
      obtain ⟨rfl, rfl⟩ := Prod.mk.inj (Except.ok.inj h)
      exact ⟨by simp [OnlyReady], rfl⟩
  | cons m msgs ih =>
      intro nd nd' evs h
      obtain ⟨⟨nd₁, ev₁⟩, hm, h⟩ := bind_eq_ok h
      obtain ⟨⟨nd₂, ev₂⟩, hrest, h⟩ := bind_eq_ok h
      obtain ⟨rfl, rfl⟩ := Prod.mk.inj (Except.ok.inj h)
      obtain ⟨hready₁, hsend₁⟩ := recvMessage_send hm
      obtain ⟨hready₂, hsend₂⟩ := ih hrest
      refine ⟨hready₁.append hready₂, ?_⟩
      rw [hsend₂, hsend₁, sendHashes_append, List.getLast?_append]
      cases (sendHashes ev₂).getLast? with
      | none => rfl
      | some k => rfl

/-- A round echoes the pending `SEND`. -/
theorem broadcastRound_echoes
    {nd nd' : Node} {hist evs : List NodeEvent}
    (hrec : Recorded nd hist)
    (hround : nd.broadcastRound = .ok (nd', evs))
    (h : Str) :
    echoBroadcasts h evs = if nd.sendThisRound = h ∧ nd.sendThisRound ≠ [] then 1 else 0 := by
  obtain ⟨nd₁, ev₁, ev₂, hecho, _, hready, rfl⟩ := broadcastRound_echo hround
  rw [echoBroadcasts_append, echoBroadcasts_of_onlyReady hready]
  rcases sendEcho_cases hecho with ⟨hsend, _, rfl⟩ | ⟨hsend, _, m, hm, rfl⟩
  · have hnil : nd.sendThisRound = [] := hsend
    rw [if_neg (fun hboth => hboth.2 hnil)]
    rfl
  · have hne : nd.sendThisRound ≠ [] := hsend
    have hm' : nd.Signs .echo ((nd.blkList.lookup nd.sendThisRound).getD {}) 1 m := hm
    obtain ⟨_, _, _, hhash⟩ := hrec.body_of_signs hm'
    have htype := (Signs.type_eq hm').1
    by_cases hsame : nd.sendThisRound = h
    · simp [echoBroadcasts, isEchoFor, htype, hhash, hsame, hsame ▸ hne]
    · simp [echoBroadcasts, isEchoFor, hhash, hsame]

variable [LawfulPlatform P]

theorem nil_notMem_sendHashes
    (evs : List NodeEvent) :
    [] ∉ sendHashes evs := by
  intro hmem
  obtain ⟨m, _, hm⟩ := List.mem_map.mp hmem
  exact getID_ne_nil _ hm

/-- A task echoes the last accepted `SEND` of its batch. -/
theorem runTask_echo
    {n f : Nat} {s : NodeLife} {msgs : List Message} {nd : Node} {evs : List NodeEvent}
    (hs : LifeReachable n f s)
    (htask : s.node.RunTask msgs nd evs)
    (h : Str) :
    echoBroadcasts h evs = if (sendHashes evs).getLast? = some h then 1 else 0 := by
  obtain ⟨nd₁, ev₁, nd₂, ev₂, hrecv, hrehash, hround, rfl⟩ := htask
  have hbatch : LifeReachable n f (s.record { s.node with sendThisRound := [] } []) :=
    .next hs (.batch s)
  have hrec := (recorded_of_reachable (hbatch.messages hrecv)).quiet (quiet_of_rehashed hrehash).1
  obtain ⟨hready, hsend⟩ := recvMessages_send hrecv
  have hsame : nd₂.sendThisRound = ((sendHashes ev₁).getLast?).getD [] := by
    obtain ⟨echo, ready, _, _, rfl⟩ := hrehash
    exact hsend
  rw [echoBroadcasts_append, echoBroadcasts_of_onlyReady hready, broadcastRound_echoes hrec hround,
    Nat.zero_add, sendHashes_append, sendHashes_of_counted_nil (broadcastRound_nodeRun hround).2,
    List.append_nil, hsame]
  cases hlast : (sendHashes ev₁).getLast? with
  | none => simp
  | some k =>
      have hne : k ≠ [] := by
        rintro rfl
        exact nil_notMem_sendHashes ev₁ (List.mem_of_getLast? hlast)
      simp [hne]

/-- The `ECHO` messages of a run are counted by its batches. -/
theorem batches_echo
    {n f : Nat} {nd nd' : Node} {batches : List (List Message)} {evss : List (List NodeEvent)}
    (hrun : nd.Batches batches evss nd') :
    ∀ {s : NodeLife}, LifeReachable n f s → s.node = nd → ∀ h,
      echoBroadcasts h evss.flatten =
        evss.countP fun evs => (sendHashes evs).getLast? = some h := by
  induction hrun with
  | nil nd =>
      intro s _ _ h
      rfl
  | cons htask rest ih =>
      intro s hs hnode h
      subst hnode
      rw [List.flatten_cons, echoBroadcasts_append, runTask_echo hs htask,
        ih (hs.task htask) rfl, List.countP_cons, Nat.add_comm]
      simp

/-- The hashes are echoed once if and only if each is the last one of exactly one batch. -/
theorem echoedOnce_iff
    {n f : Nat} {s : NodeLife} {nd : Node} {batches : List (List Message)}
    {evss : List (List NodeEvent)}
    (hs : LifeReachable n f s)
    (hrun : s.node.Batches batches evss nd) :
    EchoedOnce evss ↔ LastOfOneBatch evss := by
  have hcount := batches_echo hrun hs rfl
  constructor
  · intro hecho h hmem
    rw [← hcount h, hecho h, if_pos hmem]
  · intro hlast h
    rw [hcount h]
    split_ifs with hmem
    · exact hlast h hmem
    · rw [List.countP_eq_zero]
      intro evs hevs hh
      have hin : h ∈ sendHashes evs := List.mem_of_getLast? (of_decide_eq_true hh)
      apply hmem
      obtain ⟨m, hm, rfl⟩ := List.mem_map.mp hin
      refine List.mem_map.mpr ⟨m, ?_, rfl⟩
      rw [List.mem_filter] at hm ⊢
      refine ⟨?_, hm.2⟩
      obtain ⟨e, he, hem⟩ := List.mem_filterMap.mp hm.1
      exact List.mem_filterMap.mpr ⟨e, List.mem_flatten.mpr ⟨evs, hevs, he⟩, hem⟩

end Echoes

section Completion

variable [P : Platform]

theorem Node.Supplied.receive
    {nd : Node} {m : Message}
    (h : nd.Supplied)
    (hfrozen : m.block.isMutable = false) :
    (nd.receive m).Supplied := by
  obtain ⟨hecho, hready, hsend, _⟩ := receive_counters nd m
  have hblk := receive_blkList nd m
  have hkept : ∀ {k}, k ∈ nd.blkList → k ∈ (nd.receive m).blkList := by
    intro k hk
    rw [hblk]
    exact (AList.mem_insert _).mpr (Or.inr hk)
  have hnew : m.block.header.getID ∈ (nd.receive m).blkList := by
    rw [hblk]
    exact (AList.mem_insert _).mpr (Or.inl rfl)
  have hcounter : ∀ {c : Counter} {type : MsgType}, (∀ k ∈ c, k ∈ nd.blkList) →
      ∀ k ∈ (if m.type = type then c.increment m.block.header.getID else c),
        k ∈ (nd.receive m).blkList := by
    intro c type hc k hk
    split_ifs at hk
    · rcases (AList.mem_insert _).mp hk with rfl | hk
      · exact hnew
      · exact hkept (hc k hk)
    · exact hkept (hc k hk)
  refine ⟨?_, ?_, ?_, ?_, ?_⟩
  · rw [(receive_same nd m).1.key]
    exact h.key
  · intro k b hb
    rw [hblk] at hb
    by_cases hk : k = m.block.header.getID
    · subst hk
      rw [AList.lookup_insert] at hb
      obtain rfl := Option.some.inj hb
      cases hold : nd.blkList.lookup m.block.header.getID with
      | none => exact hfrozen
      | some b => exact h.frozen _ b hold
    · rw [AList.lookup_insert_ne hk] at hb
      exact h.frozen k b hb
  · rw [hsend]
    split_ifs
    · exact fun _ => hnew
    · exact fun hne => hkept (h.send hne)
  · rw [hecho]
    exact hcounter h.echo
  · rw [hready]
    exact hcounter h.ready

theorem supplied_step
    {s s' : NodeLife} {a : LifeAction}
    (h : s.node.Supplied)
    (hstep : LifeStep s a s') :
    s'.node.Supplied := by
  cases hstep with
  | batch => exact ⟨h.key, h.frozen, fun hne => absurd rfl hne, h.echo, h.ready⟩
  | receive m nd evs hrecv =>
      obtain ⟨digest, _, _, hdigest, _⟩ := recvMessage_eq_ok hrecv
      rcases recvMessage_cases hrecv with ⟨_, _, rfl⟩ | ⟨_, _, rfl⟩
      · exact { h with }
      · exact h.receive (Block.frozen_of_getDigest hdigest)
  | round nd₁ nd evs hrehash hround =>
      exact h.framed ((framed_of_rehashed hrehash).trans (broadcastRound_framed hround))
  | runProtocol broadcast => exact { h with }
  | setUTXOlists utxolist walletIds => exact { h with }
  | propose b nd evs hpropose =>
      obtain ⟨rfl, _⟩ := propose_eq_ok hpropose
      exact ⟨keyGen_wellFormed _, h.frozen, h.send, h.echo, h.ready⟩
  | getConsensusBlocks erase =>
      cases erase with
      | false => exact { h with }
      | true => exact { h with }

theorem supplied_of_reachable
    {n f : Nat} {s : NodeLife}
    (h : LifeReachable n f s) :
    s.node.Supplied := by
  unfold LifeReachable at h
  induction h with
  | start h =>
      obtain ⟨id, isLead, urandom, erasedRead, rfl⟩ := h
      refine ⟨keyGen_wellFormed _, ?_, fun hne => absurd rfl hne, ?_, ?_⟩
      · intro k b hb
        cases hb
      · intro k hk
        cases hk
      · intro k hk
        cases hk
  | next run hstep ih =>
      exact supplied_step ih hstep

/-- Messages with a digest are received. -/
theorem exists_recvMessages
    {msgs : List Message} :
    ∀ (nd : Node), (∀ m ∈ msgs, ∃ digest, m.block.getDigest = .ok digest) →
      ∃ nd' evs, recvMessages msgs nd = .ok (nd', evs) := by
  induction msgs with
  | nil =>
      intro nd _
      exact ⟨nd, [], rfl⟩
  | cons m msgs ih =>
      intro nd hdigests
      obtain ⟨digest, hdigest⟩ := hdigests m List.mem_cons_self
      obtain ⟨valid, stored, hcheck⟩ : ∃ valid stored,
          nd.checkBlockSig m.block = .ok (valid, stored) := by
        rw [checkBlockSig, hdigest]
        exact ⟨_, _, rfl⟩
      obtain ⟨nd₁, ev₁, hm⟩ := exists_recvMessage hcheck
      obtain ⟨nd₂, ev₂, hrest⟩ := ih nd₁ fun m' hm' => hdigests m' (List.mem_cons_of_mem _ hm')
      refine ⟨nd₂, ev₁ ++ ev₂, ?_⟩
      simp [recvMessages, hm, hrest, bind, Except.bind, pure, Except.pure]

variable [LawfulPlatform P]

/-- A batch that is received is answered, in whatever order the counters are listed. -/
theorem exists_round
    {n f : Nat} {s : NodeLife} {msgs : List Message} {nd₁ nd₂ : Node} {ev₁ : List NodeEvent}
    (hs : LifeReachable n f s)
    (hrecv : s.node.updateRecvMessages msgs = .ok (nd₁, ev₁))
    (hrehash : nd₁.Rehashed nd₂) :
    ∃ nd ev₂, nd₂.broadcastRound = .ok (nd, ev₂) ∧ s.node.RunTask msgs nd (ev₁ ++ ev₂) := by
  have hbatch : LifeReachable n f (s.record { s.node with sendThisRound := [] } []) :=
    .next hs (.batch s)
  have hsupplied := (supplied_of_reachable (hbatch.messages hrecv)).framed
    (framed_of_rehashed hrehash)
  obtain ⟨nd, ev₂, hround⟩ := exists_broadcastRound hsupplied
  exact ⟨nd, ev₂, hround, nd₁, ev₁, nd₂, ev₂, hrecv, hrehash, hround, rfl⟩

variable [UnicodeJson P]

/-- A node completes all batches of messages read from the wire. -/
theorem completes_of_reachable
    {n f : Nat} {batches : List (List Message)} :
    ∀ {s : NodeLife}, LifeReachable n f s →
      (∀ msgs ∈ batches, ∀ m ∈ msgs, ∃ p, Message.fromProtoMessage p = .ok m) →
      s.node.Completes batches := by
  induction batches with
  | nil =>
      intro s _ _
      trivial
  | cons msgs batches ih =>
      intro s hs hread
      have hdigests : ∀ m ∈ msgs, ∃ digest, m.block.getDigest = .ok digest := by
        intro m hm
        obtain ⟨p, hp⟩ := hread msgs List.mem_cons_self m hm
        exact exists_getDigest_of_fromProtoMessage hp
      obtain ⟨nd₁, ev₁, hrecv⟩ := exists_recvMessages { s.node with sendThisRound := [] } hdigests
      refine ⟨nd₁, ev₁, hrecv, ?_⟩
      intro nd₂ hrehash
      obtain ⟨nd, ev₂, hround, htask⟩ := exists_round hs hrecv hrehash
      refine ⟨nd, ev₂, hround, ?_⟩
      exact ih (hs.task htask) fun msgs' hmsgs' => hread msgs' (List.mem_cons_of_mem _ hmsgs')

/--
A node completes all batches read from the wire, and echoes every hash with an
accepted `SEND` once, and no other, if and only if each of these hashes is the
last one of exactly one batch.
-/
theorem one_echo_per_batch
    (n f : Nat) (s : NodeLife)
    (hs : LifeReachable n f s)
    (batches : List (List Message))
    (hread : ∀ msgs ∈ batches, ∀ m ∈ msgs, ∃ p, Message.fromProtoMessage p = .ok m) :
    s.node.Completes batches ∧
      ∀ evss nd, s.node.Batches batches evss nd → (EchoedOnce evss ↔ LastOfOneBatch evss) :=
  ⟨completes_of_reachable hs hread, fun _ _ hrun => echoedOnce_iff hs hrun⟩

end Completion

section EmptyBlocks

variable [P : Platform]

/-- Messages of blocks without transactions are counted if their signatures are accepted. -/
theorem recvMessages_of_empty
    {msgs : List Message} :
    ∀ (nd : Node), AcceptsAll nd.valSigKeys msgs →
      (∀ m ∈ msgs, m.block.txs = [] ∧ ∃ digest, m.block.getDigest = .ok digest) →
      ∃ nd', recvMessages msgs nd = .ok (nd', msgs.map .counted) ∧
        nd'.valSigKeys = keysAfter nd.valSigKeys msgs := by
  induction msgs with
  | nil =>
      intro nd _ _
      exact ⟨nd, rfl, rfl⟩
  | cons m msgs ih =>
      intro nd haccepts hmsgs
      obtain ⟨hempty, digest, hdigest⟩ := hmsgs m List.mem_cons_self
      have hm := recvMessage_eq_receive hdigest haccepts.1 (passesVerify_of_empty hempty nd)
      have hkeys := (receive_same nd m).2.1
      obtain ⟨nd', hrest, hkeys'⟩ := ih (nd.receive m) (by rw [hkeys]; exact haccepts.2)
        fun m' hm' => hmsgs m' (List.mem_cons_of_mem _ hm')
      refine ⟨nd', ?_, ?_⟩
      · simp [recvMessages, hm, hrest, bind, Except.bind, pure, Except.pure]
      · rw [hkeys', hkeys, keysAfter]

variable [LawfulPlatform P]

/-- A batch of such messages is counted and answered. -/
theorem exists_task_of_empty
    {n f : Nat} {s : NodeLife} {msgs : List Message}
    (hs : LifeReachable n f s)
    (haccepts : AcceptsAll s.node.valSigKeys msgs)
    (hmsgs : ∀ m ∈ msgs, m.block.txs = [] ∧ ∃ digest, m.block.getDigest = .ok digest) :
    ∃ nd evs, s.node.RunTask msgs nd evs ∧
      sendHashes evs = sendHashes (msgs.map .counted) ∧
      nd.valSigKeys = keysAfter s.node.valSigKeys msgs := by
  obtain ⟨nd₁, hrecv, hkeys⟩ :=
    recvMessages_of_empty { s.node with sendThisRound := [] } haccepts hmsgs
  have hrehash : nd₁.Rehashed nd₁ := ⟨_, _, List.Perm.refl _, List.Perm.refl _, rfl⟩
  obtain ⟨nd, ev₂, hround, htask⟩ := exists_round hs hrecv hrehash
  refine ⟨nd, _, htask, ?_, ?_⟩
  · rw [sendHashes_append, sendHashes_of_counted_nil (broadcastRound_nodeRun hround).2,
      List.append_nil]
  · rw [(broadcastRound_framed hround).valSigKeys, hkeys]

/-- Of two such proposals in one batch only the second is echoed. -/
theorem exists_lost_proposal
    {n f : Nat} {s : NodeLife} {m m' : Message}
    (hs : LifeReachable n f s)
    (haccepts : AcceptsAll s.node.valSigKeys [m, m'])
    (hmsgs : ∀ k ∈ [m, m'], k.block.txs = [] ∧ ∃ digest, k.block.getDigest = .ok digest)
    (htype : m.type = .send)
    (htype' : m'.type = .send)
    (hne : m'.block.header.getID ≠ m.block.header.getID) :
    ∃ evss nd, s.node.Batches [[m, m']] evss nd ∧
      m.block.header.getID ∈ sendHashes evss.flatten ∧
      echoBroadcasts m.block.header.getID evss.flatten = 0 := by
  obtain ⟨nd, evs, htask, hsends, _⟩ := exists_task_of_empty hs haccepts hmsgs
  have hhashes : sendHashes evs = [m.block.header.getID, m'.block.header.getID] := by
    rw [hsends]
    simp [sendHashes, countedMessages, htype, htype']
  have hrun : s.node.Batches [[m, m']] [evs] nd := .cons htask (.nil nd)
  refine ⟨[evs], nd, hrun, ?_, ?_⟩
  · simp [hhashes]
  · rw [batches_echo hrun hs rfl]
    simp [hhashes, hne]

/-- Two such proposals in two batches. -/
theorem exists_two_tasks
    {n f : Nat} {s : NodeLife} {m m' : Message}
    (hs : LifeReachable n f s)
    (haccepts : AcceptsAll s.node.valSigKeys [m])
    (haccepts' : AcceptsAll (keysAfter s.node.valSigKeys [m]) [m'])
    (hmsgs : ∀ k ∈ [m], k.block.txs = [] ∧ ∃ digest, k.block.getDigest = .ok digest)
    (hmsgs' : ∀ k ∈ [m'], k.block.txs = [] ∧ ∃ digest, k.block.getDigest = .ok digest)
    (htype : m.type = .send)
    (htype' : m'.type = .send) :
    ∃ evs evs' nd, s.node.Batches [[m], [m']] [evs, evs'] nd ∧
      sendHashes evs = [m.block.header.getID] ∧ sendHashes evs' = [m'.block.header.getID] := by
  have hhashes : ∀ {k : Message}, k.type = .send →
      sendHashes ([k].map .counted) = [k.block.header.getID] := by
    intro k hk
    rw [List.map_singleton, sendHashes_counted, if_pos hk]
  obtain ⟨nd, evs, htask, hsends, hkeys⟩ := exists_task_of_empty hs haccepts hmsgs
  rw [← hkeys] at haccepts'
  obtain ⟨nd', evs', htask', hsends', _⟩ := exists_task_of_empty (hs.task htask) haccepts' hmsgs'
  exact ⟨evs, evs', nd', .cons htask (.cons htask' (.nil nd')), hsends.trans (hhashes htype),
    hsends'.trans (hhashes htype')⟩

/-- Such a proposal is echoed by each of two batches that hold it. -/
theorem exists_repeated_proposal
    {n f : Nat} {s : NodeLife} {m : Message}
    (hs : LifeReachable n f s)
    (haccepts : AcceptsAll s.node.valSigKeys [m])
    (hself : m.block.ValidUnder m.block.validatorNextPublicKey)
    (hmsgs : ∀ k ∈ [m], k.block.txs = [] ∧ ∃ digest, k.block.getDigest = .ok digest)
    (htype : m.type = .send) :
    ∃ evss nd, s.node.Batches [[m], [m]] evss nd ∧
      m.block.header.getID ∈ sendHashes evss.flatten ∧
      echoBroadcasts m.block.header.getID evss.flatten = 2 := by
  -- The key the first batch stores is the one the proposal announces.
  have hagain : AcceptsAll (keysAfter s.node.valSigKeys [m]) [m] := by
    refine ⟨?_, trivial⟩
    intro key hkey
    rw [keysAfter, keysAfter, AList.lookup_insert] at hkey
    obtain rfl := Option.some.inj hkey
    exact hself
  obtain ⟨evs, evs', nd, hrun, hsends, hsends'⟩ :=
    exists_two_tasks hs haccepts hagain hmsgs hmsgs htype htype
  refine ⟨[evs, evs'], nd, hrun, ?_, ?_⟩
  · simp [sendHashes_append, hsends]
  · rw [batches_echo hrun hs rfl]
    simp [hsends, hsends']

/-- A proposal of a block without transactions that verifies under the key it announces. -/
theorem exists_emptySend
    {b : Block}
    (hmut : b.isMutable = false)
    (hempty : b.txs = [])
    (v : UInt16) :
    ∃ m p, Message.fromProtoMessage p = .ok m ∧ m.type = .send ∧
      m.block.header = b.header ∧ m.block.validatorId = v ∧
      m.block.ValidUnder m.block.validatorNextPublicKey ∧
      m.block.txs = [] ∧ ∃ digest, m.block.getDigest = .ok digest := by
  have henc : Encodable b.txs := by
    rw [hempty]
    exact ⟨[], rfl⟩
  have hsend : MsgType.send ≠ .other := nofun
  obtain ⟨m, p, hp, htype, hblock, hdigest, hsigner, hself⟩ := exists_selfSigned hmut henc v hsend
  have htxs := hblock.txs
  rw [hempty, List.map_nil] at htxs
  exact ⟨m, p, hp, htype, hblock.header, hsigner, hself, htxs, hdigest⟩

end EmptyBlocks

/-- The proposals of two validators have different hashes, and a new node accepts both. -/
theorem exists_two_proposals :
    letI := textPlatform
    ∃ s m m', LifeReachable 4 1 s ∧
      ((∃ p, Message.fromProtoMessage p = .ok m) ∧ ∃ p, Message.fromProtoMessage p = .ok m') ∧
      (m.type = .send ∧ m'.type = .send) ∧
      m'.block.header.getID ≠ m.block.header.getID ∧
      AcceptsAll s.node.valSigKeys [m, m'] ∧
      m.block.ValidUnder m.block.validatorNextPublicKey ∧
      ∀ k ∈ [m, m'], k.block.txs = [] ∧ ∃ digest, k.block.getDigest = .ok digest := by
  let _ := textPlatform
  obtain ⟨m, p, hp, htype, hheader, hsigner, hself, hbody⟩ :=
    exists_emptySend (b := emptyBlock) rfl rfl 1
  obtain ⟨m', p', hp', htype', hheader', hsigner', _, hbody'⟩ :=
    exists_emptySend (b := blockAfter (equalBytes 48)) rfl rfl 2
  let s : NodeLife :=
    { node := Node.new 0 4 1 false (fun _ _ => (equalBytes 0, equalBytes 0)) keptRead }
  have hs : LifeReachable 4 1 s := .start ⟨_, _, _, _, rfl⟩
  have hne : m'.block.header.getID ≠ m.block.header.getID := by
    rw [hheader, hheader']
    show Sha256.digest (equalBytes 48 ++ []) ≠ Sha256.digest []
    decide +kernel
  have haccepts : AcceptsAll s.node.valSigKeys [m, m'] := by
    refine ⟨?_, ?_, trivial⟩
    · intro key hkey
      cases hkey
    · intro key hkey
      rw [hsigner, hsigner', AList.lookup_insert_ne (by decide)] at hkey
      cases hkey
  exact ⟨s, m, m', hs, ⟨⟨p, hp⟩, p', hp'⟩, ⟨htype, htype'⟩, hne, haccepts, hself,
    by simpa using ⟨hbody, hbody'⟩⟩

/-- Two proposals in two batches are echoed once each. -/
theorem two_proposals_are_echoed :
    letI := textPlatform
    ∃ s m m' evss nd, LifeReachable 4 1 s ∧
      m'.block.header.getID ≠ m.block.header.getID ∧
      s.node.Completes [[m], [m']] ∧ s.node.Batches [[m], [m']] evss nd ∧
      m.block.header.getID ∈ sendHashes evss.flatten ∧
      m'.block.header.getID ∈ sendHashes evss.flatten ∧ EchoedOnce evss := by
  let _ := textPlatform
  obtain ⟨s, m, m', hs, hread, htypes, hne, haccepts, _, hmsgs⟩ := exists_two_proposals
  obtain ⟨evs, evs', nd, hrun, hsends, hsends'⟩ := exists_two_tasks hs ⟨haccepts.1, trivial⟩
    haccepts.2 (fun k hk => hmsgs k (List.mem_cons.mpr (.inl (List.mem_singleton.mp hk))))
    (fun k hk => hmsgs k (List.mem_cons_of_mem _ hk)) htypes.1 htypes.2
  obtain ⟨hcompletes, hiff⟩ := one_echo_per_batch 4 1 s hs [[m], [m']] (by simpa using hread)
  refine ⟨s, m, m', [evs, evs'], nd, hs, hne, hcompletes, hrun, ?_, ?_, (hiff _ _ hrun).mpr ?_⟩
  · simp [sendHashes_append, hsends]
  · simp [sendHashes_append, hsends']
  · intro h hmem
    have hcases : h = m.block.header.getID ∨ h = m'.block.header.getID := by
      simpa [sendHashes_append, hsends, hsends'] using hmem
    rcases hcases with rfl | rfl
    · simp [hsends, hsends', hne]
    · simp [hsends, hsends', hne.symm]

/--
Of two proposals in one batch the first is not echoed, and a proposal in two
batches is echoed twice.
-/
theorem proposals_lost_and_repeated :
    letI := textPlatform
    (∃ s m m' evss nd, LifeReachable 4 1 s ∧ (∃ p, Message.fromProtoMessage p = .ok m) ∧
      (∃ p, Message.fromProtoMessage p = .ok m') ∧ s.node.Batches [[m, m']] evss nd ∧
      m.block.header.getID ∈ sendHashes evss.flatten ∧
      echoBroadcasts m.block.header.getID evss.flatten = 0) ∧
    ∃ s m evss nd, LifeReachable 4 1 s ∧ (∃ p, Message.fromProtoMessage p = .ok m) ∧
      s.node.Batches [[m], [m]] evss nd ∧
      m.block.header.getID ∈ sendHashes evss.flatten ∧
      echoBroadcasts m.block.header.getID evss.flatten = 2 := by
  let _ := textPlatform
  obtain ⟨s, m, m', hs, ⟨hread, hread'⟩, ⟨htype, htype'⟩, hne, haccepts, hself, hmsgs⟩ :=
    exists_two_proposals
  constructor
  · obtain ⟨evss, nd, hrun, hmem, hecho⟩ :=
      exists_lost_proposal hs haccepts hmsgs htype htype' hne
    exact ⟨s, m, m', evss, nd, hs, hread, hread', hrun, hmem, hecho⟩
  · obtain ⟨evss, nd, hrun, hmem, hecho⟩ := exists_repeated_proposal hs ⟨haccepts.1, trivial⟩ hself
      (fun k hk => hmsgs k (List.mem_cons.mpr (.inl (List.mem_singleton.mp hk)))) htype
    exact ⟨s, m, evss, nd, hs, hread, hrun, hmem, hecho⟩

end CosiCoin
