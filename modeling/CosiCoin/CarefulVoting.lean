import CosiCoin.ReadyProvenance
import CosiCoin.VoteBalance

/-!
# COSICOIN: counting votes with care

The argument for agreement needs two things of the nodes that the code does not
see to: votes of one validator have to count once, and a correct validator must
count `SEND` messages of one hash only, as it echoes each of them.  `CarefulVoting`
is this condition on a step.

Nothing is missing as long as the faulty validators are silent, the links are
first-in-first-out and there is one proposal: such runs are careful
(`carefulVoting_of_single`).
-/

namespace CosiCoin

open LabelledRuns CausalLog FifoLinks Node

section Ballots

theorem mem_countedMessages
    {m : Message} {evs : List NodeEvent} :
    m ∈ countedMessages evs ↔ .counted m ∈ evs := by
  constructor
  · intro h
    obtain ⟨e, he, heq⟩ := List.mem_filterMap.mp h
    cases e with
    | counted m' =>
        obtain rfl := Option.some.inj heq
        exact he
    | proposed b => cases heq
    | broadcast m' => cases heq
    | delivered k => cases heq
    | restarted => cases heq
  · intro h
    exact List.mem_filterMap.mpr ⟨.counted m, h, rfl⟩

/-- The counted messages of a node in an earlier part of the log. -/
theorem countedMessages_sublist_of_suffix
    {earlier log : Log}
    (h : earlier <:+ log)
    (i : UInt16) :
    (countedMessages (history i earlier)).Sublist (countedMessages (history i log)) :=
  (h.sublist.filterMap _).filterMap _

variable [Platform]

/-- The validators whose votes of a type were counted for a hash. -/
def ballots (type : MsgType) (h : Str) (msgs : List Message) : List UInt16 :=
  (msgs.filter fun m => m.type = type ∧ m.block.header.getID = h).map fun m => m.block.validatorId

/-- No validator has two `ECHO` or two `READY` votes for the same hash. -/
def OneVoteEach (msgs : List Message) : Prop :=
  ∀ type h, type = .echo ∨ type = .ready → (ballots type h msgs).Nodup

/-- The `SEND` messages are all for the same hash. -/
def OneSend (msgs : List Message) : Prop :=
  ∀ m ∈ msgs, ∀ m' ∈ msgs, m.type = .send → m'.type = .send →
    m.block.header.getID = m'.block.header.getID

theorem length_ballots
    (type : MsgType) (h : Str) (hist : List NodeEvent) :
    (ballots type h (countedMessages hist)).length = votes type h hist := by
  rw [ballots, List.length_map, ← List.countP_eq_length_filter, votes_eq_countP]
  rfl

/-- The votes of one validator. -/
theorem count_ballots
    (type : MsgType) (h : Str) (hist : List NodeEvent) (v : UInt16) :
    (ballots type h (countedMessages hist)).count v = countedFrom (isMessage type h) v hist := by
  rw [ballots, List.count, List.countP_map, List.countP_filter, countedFrom, messagesFrom,
    List.countP_filter]
  congr 1
  funext m
  simp only [Function.comp_apply, isMessage, beq_eq_decide, Bool.and_comm]

theorem mem_ballots
    {type : MsgType} {h : Str} {msgs : List Message} {v : UInt16} :
    v ∈ ballots type h msgs ↔
      ∃ m ∈ msgs, m.type = type ∧ m.block.header.getID = h ∧ m.block.validatorId = v := by
  simp only [ballots, List.mem_map, List.mem_filter, decide_eq_true_eq]
  constructor
  · rintro ⟨m, ⟨hm, htype, hhash⟩, rfl⟩
    exact ⟨m, hm, htype, hhash, rfl⟩
  · rintro ⟨m, hm, htype, hhash, rfl⟩
    exact ⟨m, ⟨hm, htype, hhash⟩, rfl⟩

theorem OneVoteEach.of_sublist
    {msgs msgs' : List Message}
    (h : OneVoteEach msgs)
    (hsub : msgs'.Sublist msgs) :
    OneVoteEach msgs' := by
  intro type k htype
  exact (h type k htype).sublist ((hsub.filter _).map _)

end Ballots

section Counting

variable [Platform]

/-- Only `updateRecvMessages` counts messages during a task. -/
theorem runTask_countedMessages
    {nd nd' : Node} {msgs : List Message} {evs : List NodeEvent}
    (h : nd.RunTask msgs nd' evs)
    (hist : List NodeEvent) :
    ∃ nd₁ ev₁, nd.updateRecvMessages msgs = .ok (nd₁, ev₁) ∧
      countedMessages (evs.reverse ++ hist) = countedMessages (ev₁.reverse ++ hist) := by
  obtain ⟨nd₁, ev₁, nd₂, ev₂, hrecv, _, hround, rfl⟩ := h
  refine ⟨nd₁, ev₁, hrecv, ?_⟩
  have hnone : countedMessages ev₂.reverse = [] := by
    rw [countedMessages, List.filterMap_reverse, List.reverse_eq_nil_iff]
    exact (broadcastRound_nodeRun hround).2
  simp [hnone]

/-- What every task counts keeps the counted messages of its node in `Φ`. -/
def CountsWithin (Φ : List Message → Prop) (s : SystemState) : SystemAction → Prop
  | .runTask i msgs => ∀ nd evs, (s.nodes i).updateRecvMessages msgs = .ok (nd, evs) →
      Φ (countedMessages (evs.reverse ++ history i s.log))
  | _ => True

/-- The counted messages of every node are in `Φ`. -/
def CountedWithin (Φ : List Message → Prop) (s : SystemState) : Prop :=
  ∀ i, Φ (countedMessages (history i s.log))

theorem countedWithin_step
    {c : Committee} {Φ : List Message → Prop}
    (s : SystemState) (a : SystemAction) (s' : SystemState)
    (h : CountedWithin Φ s)
    (hstep : Guarded (CountsWithin Φ) (SystemStep c) s a s') :
    CountedWithin Φ s' := by
  obtain ⟨hguard, hstep⟩ := hstep
  intro i
  cases hstep with
  | propose b nd evs hleader hprop =>
      obtain ⟨_, m, _, rfl⟩ := propose_eq_ok hprop
      by_cases hi : i = c.leader
      · subst hi
        rw [record_history_self]
        exact h c.leader
      · rw [record_history_of_ne s hi]
        exact h i
  | runTask j msgs nd evs hj hrunning havail htask =>
      by_cases hi : i = j
      · subst hi
        rw [record_history_self]
        obtain ⟨nd₁, ev₁, hrecv, hsame⟩ := runTask_countedMessages htask (history i s.log)
        rw [hsame]
        exact hguard nd₁ ev₁ hrecv
      · rw [record_history_of_ne s hi]
        exact h i
  | restart j hj hreturned =>
      by_cases hi : i = j
      · subst hi
        rw [record_history_self]
        exact h i
      · rw [record_history_of_ne s hi]
        exact h i
  | setUTXOlists j utxolist walletIds hj =>
      by_cases hi : i = j
      · subst hi
        rw [record_history_self]
        exact h i
      · rw [record_history_of_ne s hi]
        exact h i

theorem countedWithin_of_reachable
    {c : Committee} {Φ : List Message → Prop} {s : SystemState}
    (hnil : Φ [])
    (hs : Reachable (SystemInit c) (Guarded (CountsWithin Φ) (SystemStep c)) s) :
    CountedWithin Φ s := by
  refine hs.invariant ?_ countedWithin_step
  rintro s ⟨urandom, erasedRead, utxolist, walletIds, rfl⟩ i
  exact hnil

/--
The condition on a step: no task counts a second `ECHO` or `READY` of a
validator for the same hash, or `SEND` messages of two hashes.
-/
def CarefulVoting : SystemState → SystemAction → Prop :=
  CountsWithin fun msgs => OneVoteEach msgs ∧ OneSend msgs

/-- What was counted in a step is what the condition on the step is about. -/
theorem countsWithin_of_step
    {c : Committee} {Φ : List Message → Prop} {s s' : SystemState} {a : SystemAction}
    (hstep : SystemStep c s a s')
    (h : CountedWithin Φ s') :
    CountsWithin Φ s a := by
  cases hstep with
  | runTask i msgs nd evs hi hrunning havail htask =>
      intro nd' evs' hrecv
      obtain ⟨nd₁, ev₁, hrecv', hsame⟩ := runTask_countedMessages htask (history i s.log)
      obtain ⟨_, rfl⟩ := Prod.mk.inj (Except.ok.inj (hrecv.symm.trans hrecv'))
      have hcounted := h i
      rw [record_history_self, hsame] at hcounted
      exact hcounted
  | propose b nd evs hleader hprop => trivial
  | restart i hi hreturned => trivial
  | setUTXOlists i utxolist walletIds hi => trivial

end Counting

section FifoRuns

variable [P : Platform]

/-- A counted message was broadcast by its signer, when faulty validators are silent. -/
theorem broadcast_of_countedFrom
    {c : Committee} {s : LinkState} {j : UInt16} {m : Message}
    (hs : LinkReachable c s)
    (hm : (j, .counted m) ∈ s.log) :
    ∃ m₀, (m.block.validatorId, .broadcast m₀) ∈ s.log ∧ m₀.type = m.type ∧
      m₀.block.header.getID = m.block.header.getID := by
  have hcausal := (systemInv_of_reachable (systemReachable_of_link hs).1).causal
  obtain ⟨_, _, _, hj, _⟩ := hcausal.exists_of_mem hm
  have hpos : 0 < countedFrom (isMessage m.type m.block.header.getID) m.block.validatorId
      (history j s.log) := by
    apply List.countP_pos_iff.mpr
    refine ⟨m, ?_, by simp [isMessage]⟩
    simpa [messagesFrom] using mem_countedMessages.mpr (mem_history.mpr hm)
  have hle := countedFrom_le hs m.type m.block.header.getID m.block.validatorId hj.1
  obtain ⟨m₀, hm₀, hsame⟩ := List.countP_pos_iff.mp (lt_of_lt_of_le hpos hle)
  obtain ⟨htype, hhash⟩ := of_decide_eq_true hsame
  exact ⟨m₀, mem_history.mp (mem_broadcastMessages.mp hm₀), htype, hhash⟩

/-- Nodes count one vote of a validator that broadcasts one. -/
theorem oneVoteEach_of_sent
    {c : Committee} {s : LinkState} {j : UInt16}
    (hs : LinkReachable c s)
    (hj : j ∈ c.vals)
    (hsent : ∀ type h i, type = .echo ∨ type = .ready →
      sentMessages (isMessage type h) (history i s.log) ≤ 1) :
    OneVoteEach (countedMessages (history j s.log)) := by
  intro type h htype
  rw [List.nodup_iff_count_le_one]
  intro v
  rw [count_ballots]
  exact (countedFrom_le hs type h v hj).trans (hsent type h v htype)

variable [LawfulPlatform P]

/-- After a single proposal every live validator sends one `ECHO` and one `READY`. -/
theorem sent_le_one_of_single
    {c : Committee} {b : Block} {s : LinkState}
    (henc : Encodable b.txs)
    (hs : SingleReachable c b s)
    (type : MsgType) (h : Str) (i : UInt16)
    (htype : type = .echo ∨ type = .ready) :
    sentMessages (isMessage type h) (history i s.log) ≤ 1 := by
  have hinv := systemInv_of_reachable
    (systemReachable_of_link (hs.mono fun _ _ _ hstep => hstep.2)).1
  by_contra hmany
  -- somebody has broadcast, so the node is correct and the block was proposed
  obtain ⟨m, hm, _⟩ := List.countP_pos_iff.mp
    (show 0 < sentMessages (isMessage type h) (history i s.log) by omega)
  have hin := mem_history.mp (mem_broadcastMessages.mp hm)
  obtain ⟨_, _, _, hi, _⟩ := hinv.causal.exists_of_mem hin
  rcases htype with rfl | rfl
  · rcases summed_of_reachable henc hs with hinit | ⟨t, ht, hmatch⟩
    · obtain ⟨⟨urandom, erasedRead, utxolist, walletIds, hs₀⟩, _⟩ := hinit
      rw [hs₀] at hin
      cases hin
    · have hleader : c.leader ∈ c.live := by
        obtain ⟨_, _, _, hcorrect, _⟩ := hinv.causal.exists_of_mem hmatch.byLeader
        exact Committee.mem_live.mpr hcorrect
      have hvote := voteInv_of_reachable hleader ht
      have hsend := hvote.send i (Committee.mem_live.mpr hi)
      have hecho := (hvote.sound i (Committee.mem_live.mpr hi)).echoSent
      have hsame := (hmatch.noted i hi).echoed
      have hzero : ({} : Tally).echoSent = 0 := rfl
      have hless : sentMessages (isMessage .echo h) (history i s.log) ≤
          sentMessages isEcho (history i s.log) := by
        apply List.countP_mono_left
        intro m _ hm
        simp only [isMessage, decide_eq_true_eq] at hm
        simp [isEcho, hm.1]
      simp only [Finset.sum_const_zero] at hsend
      omega
  · have hle := (hinv.recorded i hi).readySent h
    rw [readyBroadcasts_eq_countP] at hle
    have hone : (if h ∈ (s.nodes i).readySent then 1 else 0) ≤ 1 := by split_ifs <;> omega
    exact hmany (hle.trans hone)

/-- Over links all nodes count with care after a single proposal. -/
theorem countedWithin_of_single
    {c : Committee} {b : Block} {s : LinkState}
    (henc : Encodable b.txs)
    (hs : SingleReachable c b s) :
    CountedWithin (fun msgs => OneVoteEach msgs ∧ OneSend msgs) s.toSystemState := by
  have hreach : LinkReachable c s := hs.mono fun _ _ _ hstep => hstep.2
  have hcausal := (systemInv_of_reachable (systemReachable_of_link hreach).1).causal
  intro j
  refine ⟨?_, ?_⟩
  · by_cases hj : c.Correct j
    · exact oneVoteEach_of_sent hreach hj.1 (sent_le_one_of_single henc hs)
    · have hnone : countedMessages (history j s.log) = [] := by
        refine List.eq_nil_iff_forall_not_mem.mpr fun m hm => hj ?_
        obtain ⟨_, _, _, hcorrect, _⟩ :=
          hcausal.exists_of_mem (mem_history.mp (mem_countedMessages.mp hm))
        exact hcorrect
      rw [hnone]
      exact fun _ _ _ => List.nodup_nil
  · -- a counted `SEND` carries the hash of the only proposal
    have hsend : ∀ m ∈ countedMessages (history j s.log), m.type = .send →
        m.block.header.getID = b.header.getID := by
      intro m hm htype
      obtain ⟨m₀, hin, htype₀, hhash₀⟩ := broadcast_of_countedFrom hreach
        (mem_history.mp (mem_countedMessages.mp hm))
      obtain ⟨later, earlier, hlog, _, _, hrule⟩ := hcausal.exists_of_mem hin
      rw [BroadcastRule, htype₀.trans htype] at hrule
      obtain ⟨b', hb', hbody⟩ := hrule
      have hb : b' = b := by
        have hmem : b' ∈ proposals s.log := by
          apply mem_proposals (i := c.leader)
          rw [hlog]
          exact List.mem_append_right _ (List.mem_cons_of_mem _ hb')
        rcases proposals_of_single henc hs with hnone | hone
        · rw [hnone] at hmem
          cases hmem
        · rw [hone] at hmem
          exact List.mem_singleton.mp hmem
      have hheader : m₀.block.header = b'.header := congrArg Prod.fst hbody
      rw [← hhash₀, hheader, hb]
    intro m hm m' hm' htype htype'
    rw [hsend m hm htype, hsend m' hm' htype']

/-- Runs over links with a single proposal meet the condition of the agreement theorem. -/
theorem carefulVoting_of_single
    {c : Committee} {b : Block} {s : LinkState}
    (henc : Encodable b.txs)
    (hs : SingleReachable c b s) :
    Reachable (SystemInit c) (Guarded CarefulVoting (SystemStep c)) s.toSystemState := by
  refine (guarded_of_link CarefulVoting ?_ hs).1
  intro s a s' a' hreach hlink hsystem
  exact countsWithin_of_step hsystem (countedWithin_of_single henc (.next hreach hlink))

end FifoRuns

end CosiCoin
