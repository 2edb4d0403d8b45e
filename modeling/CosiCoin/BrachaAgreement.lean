import CosiCoin.CarefulVoting
import CosiCoin.QuorumCounting
import CosiCoin.ReferencePlatform
import CosiCoin.VoteStuffing

/-!
# COSICOIN: agreement of the broadcast

Two validators should accept the same hash.  The argument needs three things of
the nodes: votes of one validator count once, a correct validator echoes one
hash, and two echo quorums share a correct validator.  The code grants none of
them by itself: it counts messages and not senders, it echoes every `SEND` it
counts, and its echo threshold rounds down.

`votedHash_eq_of_careful` shows that these three conditions are enough, and
`faulty_validator_splits_votes` is a run in which a single faulty validator
makes two correct ones accept different hashes by sending four `READY` messages
to each.
-/

namespace CosiCoin

open LabelledRuns CausalLog QuorumCounting Node

section Agreement

variable [Platform]

/-- Single votes make `f + 1` of them sound. -/
theorem readyVotesSound_of_oneVoteEach
    {c : Committee} {log : Log}
    (hsingle : ∀ i, OneVoteEach (countedMessages (history i log)))
    (h : Str) :
    ReadyVotesSound c h log := by
  intro earlier hearlier i hvotes
  have hnodup := ((hsingle i).of_sublist (countedMessages_sublist_of_suffix hearlier i))
    .ready h (Or.inr rfl)
  rw [← length_ballots] at hvotes
  have hmany : c.byz.card < (ballots .ready h (countedMessages (history i earlier))).length :=
    lt_of_le_of_lt c.byz_card hvotes
  obtain ⟨v, hv, hcorrect⟩ := exists_notMem_of_length hnodup hmany
  obtain ⟨m, hm, htype, hhash, rfl⟩ := mem_ballots.mp hv
  exact ⟨m, mem_history.mp (mem_countedMessages.mp hm), htype, hhash, hcorrect⟩

/-- Every voter is a validator of the committee. -/
theorem mem_vals_of_counted
    {c : Committee} {log : Log} {i : UInt16} {m : Message}
    (hcausal : Causal (Rule c) log)
    (hm : (i, .counted m) ∈ log) :
    m.block.validatorId ∈ c.vals := by
  by_cases hbyz : m.block.validatorId ∈ c.byz
  · exact c.byz_subset hbyz
  · obtain ⟨later, earlier, m₀, hlog, hin, _⟩ := broadcast_of_counted hcausal hm hbyz
    rw [hlog] at hcausal
    obtain ⟨_, _, _, hcorrect, _⟩ := hcausal.of_append.2.exists_of_mem hin
    exact hcorrect.1

/-- A correct validator whose `ECHO` was counted has counted a `SEND` itself. -/
theorem send_counted_of_echo
    {c : Committee} {log : Log} {i : UInt16} {m : Message}
    (hcausal : Causal (Rule c) log)
    (hm : (i, .counted m) ∈ log)
    (htype : m.type = .echo)
    (hcorrect : m.block.validatorId ∉ c.byz) :
    ∃ m', (m.block.validatorId, .counted m') ∈ log ∧ m'.type = .send ∧
      m'.block.header.getID = m.block.header.getID := by
  obtain ⟨later, earlier, m₀, hlog, hin, _, htype₀, hheader₀⟩ :=
    broadcast_of_counted hcausal hm hcorrect
  rw [hlog] at hcausal
  obtain ⟨later', earlier', hlog', _, _, hrule⟩ := hcausal.of_append.2.exists_of_mem hin
  rw [BroadcastRule, htype₀, htype] at hrule
  obtain ⟨m', hm', htype', hhash'⟩ := exists_of_votes_pos hrule.2
  refine ⟨m', ?_, htype', by rw [hhash', hheader₀]⟩
  rw [hlog, hlog']
  have hin' := mem_history.mp hm'
  exact List.mem_append_right _ (List.mem_cons_of_mem _
    (List.mem_append_right _ (List.mem_cons_of_mem _ hin')))

/-- An accepted hash has an echo quorum behind it. -/
theorem echo_quorum_of_delivered
    {c : Committee} {log : Log} {i : UInt16} {h : Str}
    (hcausal : Causal (Rule c) log)
    (hsound : ReadyVotesSound c h log)
    (hdel : (i, .delivered h) ∈ log) :
    ∃ j, c.Correct j ∧ c.echoThreshold ≤ votes .echo h (history j log) := by
  obtain ⟨later, earlier, rfl, _, hvotes⟩ := hcausal.exists_of_mem hdel
  have henough : c.f + 1 ≤ votes .ready h (history i (later ++ (i, .delivered h) :: earlier)) := by
    have hmono := votes_mono .ready h i (later ++ [(i, .delivered h)]) earlier
    rw [List.append_assoc, List.singleton_append] at hmono
    have hmany : 2 * c.f + 1 < votes .ready h (history i earlier) := hvotes
    omega
  exact echo_quorum_of_ready hcausal hsound (ready_sent_of_votes hcausal hsound henough)

/-- Under the three conditions all accepted hashes of a log are equal. -/
theorem delivered_eq
    {c : Committee} {log : Log}
    (hcausal : Causal (Rule c) log)
    (hsingle : ∀ i, OneVoteEach (countedMessages (history i log)))
    (hsend : ∀ i, OneSend (countedMessages (history i log)))
    (hquorum : c.n + c.byz.card < 2 * c.echoThreshold)
    {i j : UInt16} {h h' : Str}
    (hi : (i, .delivered h) ∈ log)
    (hj : (j, .delivered h') ∈ log) :
    h = h' := by
  obtain ⟨k, _, hk⟩ := echo_quorum_of_delivered hcausal
    (readyVotesSound_of_oneVoteEach hsingle h) hi
  obtain ⟨k', _, hk'⟩ := echo_quorum_of_delivered hcausal
    (readyVotesSound_of_oneVoteEach hsingle h') hj
  rw [← length_ballots] at hk hk'
  have hvals : ∀ type a i, ∀ v ∈ ballots type a (countedMessages (history i log)),
      v ∈ c.vals := by
    intro type a i v hv
    obtain ⟨m, hm, _, _, rfl⟩ := mem_ballots.mp hv
    exact mem_vals_of_counted hcausal (mem_history.mp (mem_countedMessages.mp hm))
  obtain ⟨v, hv, hv', hcorrect⟩ := exists_common_notMem
    (hsingle k .echo h (Or.inl rfl)) (hsingle k' .echo h' (Or.inl rfl))
    (hvals .echo h k) (hvals .echo h' k')
    (show c.n + c.byz.card < _ by omega)
  obtain ⟨m, hm, htype, hhash, rfl⟩ := mem_ballots.mp hv
  obtain ⟨m', hm', htype', hhash', hsame⟩ := mem_ballots.mp hv'
  obtain ⟨m₁, hm₁, htype₁, hhash₁⟩ := send_counted_of_echo hcausal
    (mem_history.mp (mem_countedMessages.mp hm)) htype hcorrect
  obtain ⟨m₂, hm₂, htype₂, hhash₂⟩ := send_counted_of_echo hcausal
    (mem_history.mp (mem_countedMessages.mp hm')) htype' (by rw [hsame]; exact hcorrect)
  rw [hsame] at hm₂
  have hone := hsend m.block.validatorId m₁ (mem_countedMessages.mpr (mem_history.mpr hm₁))
    m₂ (mem_countedMessages.mpr (mem_history.mpr hm₂)) htype₁ htype₂
  rw [← hhash, ← hhash', ← hhash₁, ← hhash₂, hone]

/-- The first `RunProtocol` of the node has returned with an accepted hash. -/
def FirstRunAccepted (s : SystemState) (i : UInt16) : Prop :=
  (s.nodes i).shouldBroadcast = false ∧ .restarted ∉ history i s.log ∧
    ∃ h, .delivered h ∈ history i s.log

/-- Correct validators whose first run has accepted a hash have voted for the same one. -/
def Agreement (c : Committee) (s : SystemState) : Prop :=
  ∀ i j, c.Correct i → c.Correct j → FirstRunAccepted s i → FirstRunAccepted s j →
    (s.nodes i).votedHash = (s.nodes j).votedHash

/--
Agreement holds in every run with careful voting of a committee whose echo
quorums share more validators than are faulty.
-/
theorem votedHash_eq_of_careful
    (c : Committee)
    (hquorum : c.n + c.byz.card < 2 * ((c.n + c.f + 1) / 2))
    (s : SystemState)
    (hs : Reachable (SystemInit c) (Guarded CarefulVoting (SystemStep c)) s) :
    Agreement c s := by
  have hreach : SystemReachable c s := hs.mono fun _ _ _ h => h.2
  have hinv := systemInv_of_reachable hreach
  have hvotes := countedWithin_of_reachable
    ⟨fun _ _ _ => List.nodup_nil, fun m hm => absurd hm List.not_mem_nil⟩ hs
  intro i j hi hj hri hrj
  obtain ⟨_, _, h, hdel⟩ := hri
  obtain ⟨_, _, h', hdel'⟩ := hrj
  have hvoted := (hinv.recorded i hi).voted h hdel
  have hvoted' := (hinv.recorded j hj).voted h' hdel'
  exact delivered_eq hinv.causal (fun i => (hvotes i).1) (fun i => (hvotes i).2) hquorum
    (mem_history.mp hvoted) (mem_history.mp hvoted')

/-- A node whose only accepted hash is `h` has voted for it. -/
theorem votedHash_of_only
    {c : Committee} {s : SystemState} {i : UInt16} {h : Str}
    (hinv : SystemInv c s)
    (hi : c.Correct i)
    (honly : ∀ h', .delivered h' ∈ history i s.log ↔ h' = h) :
    (s.nodes i).votedHash = h :=
  (honly _).mp ((hinv.recorded i hi).voted h ((honly h).mpr rfl))

theorem firstRunAccepted_of_tally
    {c : Committee} {b : Block} {s : LinkState} {t : VoteState} {i : UInt16}
    (h : Matches c b s t)
    (hi : c.Correct i)
    (hrunning : (t.tallies i).running = false)
    (hrestarts : (t.tallies i).restarts = 0)
    (haccepted : 0 < (t.tallies i).accepted) :
    FirstRunAccepted s.toSystemState i := by
  refine ⟨?_, ?_, b.header.getID, mem_history.mpr ((delivered_iff h hi).mpr haccepted)⟩
  · rw [(h.nodes i hi).tracks.running]
    exact hrunning
  · have hcount := (h.noted i hi).restarted
    have hzero : ({} : Tally).restarts = 0 := rfl
    exact List.count_eq_zero.mp (by omega)

/-- A stuffed node has accepted the block in its first run. -/
theorem Stuffed.firstRunAccepted
    {s : SystemState} {i : UInt16} {b : Block} {evs : List NodeEvent}
    (h : Stuffed b (s.nodes i) evs)
    (hhistory : history i s.log = evs.reverse) :
    FirstRunAccepted s i := by
  refine ⟨h.returned, ?_, b.header.getID, ?_⟩
  · rw [hhistory, List.mem_reverse]
    exact h.restarted
  · rw [hhistory, List.mem_reverse]
    exact (h.delivered _).mpr rfl

theorem Stuffed.votedHash
    {c : Committee} {s : SystemState} {i : UInt16} {b : Block} {evs : List NodeEvent}
    (h : Stuffed b (s.nodes i) evs)
    (hhistory : history i s.log = evs.reverse)
    (hinv : SystemInv c s)
    (hi : c.Correct i) :
    (s.nodes i).votedHash = b.header.getID := by
  refine votedHash_of_only hinv hi ?_
  intro h'
  rw [hhistory, List.mem_reverse]
  exact h.delivered h'

end Agreement

/-- Three validators, none of them faulty. -/
def threeValidators : Committee where
  vals := {0, 1, 2}
  f := 0
  leader := 0
  byz := ∅
  leader_mem := by decide
  byz_subset := by decide
  byz_card := twoValidators.byz_card
  card_lt := by decide

/-- Three validators in lockstep vote for the same hash. -/
theorem three_validators_agree :
    letI := referencePlatform
    ∃ s, Reachable (SystemInit threeValidators)
        (Guarded CarefulVoting (SystemStep threeValidators)) s ∧
      FirstRunAccepted s 0 ∧ FirstRunAccepted s 1 ∧
      (s.nodes 0).votedHash = (s.nodes 1).votedHash := by
  let _ := referencePlatform
  obtain ⟨s, t, hs, hmatch, hend, _⟩ := exists_emptyBlock_run (c := threeValidators) (by decide)
    (lockstep 0 [0, 1, 2])
    (fun t => decide (∀ i ∈ threeValidators.live, (t.tallies i).running = false ∧
      (t.tallies i).restarts = 0 ∧ 0 < (t.tallies i).accepted)) (by decide +kernel)
  have hfirst : ∀ i ∈ threeValidators.live, FirstRunAccepted s.toSystemState i := by
    intro i hi
    obtain ⟨hrunning, hrestarts, haccepted⟩ := of_decide_eq_true hend i hi
    exact firstRunAccepted_of_tally hmatch (Committee.mem_live.mp hi) hrunning hrestarts haccepted
  have hcareful := carefulVoting_of_single ⟨[], rfl⟩ hs
  exact ⟨s.toSystemState, hcareful, hfirst 0 (by decide), hfirst 1 (by decide),
    votedHash_eq_of_careful threeValidators (by decide) _ hcareful 0 1 (by decide) (by decide)
      (hfirst 0 (by decide)) (hfirst 1 (by decide))⟩

/-- A finalized block without transactions on top of the given one. -/
def blockAfter (prevBlockDigest : Str) : Block :=
  { emptyBlock with header := { prevBlockDigest := prevBlockDigest } }

/-- One faulty validator of four makes two correct ones vote for different hashes. -/
theorem faulty_validator_splits_votes :
    letI := referencePlatform
    3 * oneOfFour.f < oneOfFour.n ∧ ∃ s, SystemReachable oneOfFour s ∧ ¬ Agreement oneOfFour s := by
  let _ := referencePlatform
  refine ⟨by decide, ?_⟩
  let s₀ := SystemState.initial oneOfFour (fun _ _ _ => (equalBytes 0, equalBytes 0))
    (fun _ => keptRead) (fun _ => []) (fun _ => [])
  have hs₀ : SystemReachable oneOfFour s₀ := .start ⟨_, _, _, _, rfl⟩
  -- validator 0 is stuffed with votes for one block, validator 1 with votes for another
  obtain ⟨_, nd, evs, hstep, hstuffed⟩ := exists_stuffed_step (s := s₀) (i := 0) (v := 3)
    (b := emptyBlock) (by decide) (by decide) rfl ⟨[], rfl⟩ (inLine_new rfl _ _ _) rfl
  obtain ⟨_, nd', evs', hstep', hstuffed'⟩ := exists_stuffed_step (s := s₀.record 0 nd evs)
    (i := 1) (v := 3) (b := blockAfter (equalBytes 48)) (by decide) (by decide) rfl ⟨[], rfl⟩
    (inLine_new rfl _ _ _) rfl
  let s := (s₀.record 0 nd evs).record 1 nd' evs'
  have hs : SystemReachable oneOfFour s := (hs₀.next hstep).next hstep'
  have hinv := systemInv_of_reachable hs
  have hhistory : history 0 s.log = evs.reverse := by
    rw [record_history_of_ne _ (by decide), record_history_self]
    exact List.append_nil _
  have hhistory' : history 1 s.log = evs'.reverse := by
    rw [record_history_self, record_history_of_ne _ (by decide)]
    exact List.append_nil _
  have hzero : Stuffed emptyBlock (s.nodes 0) evs := hstuffed
  have hone : Stuffed (blockAfter (equalBytes 48)) (s.nodes 1) evs' := hstuffed'
  refine ⟨s, hs, ?_⟩
  intro hagree
  have hsame := hagree 0 1 (by decide) (by decide) (hzero.firstRunAccepted hhistory)
    (hone.firstRunAccepted hhistory')
  rw [hzero.votedHash hhistory hinv (by decide), hone.votedHash hhistory' hinv (by decide)] at hsame
  have hne : Sha256.digest [] ≠ Sha256.digest (equalBytes 48 ++ []) := by decide +kernel
  exact hne hsame

end CosiCoin
