import CosiCoin.ReferencePlatform
import CosiCoin.SingleProposal

/-!
# COSICOIN: where a READY comes from

A node sends `READY` for a hash after enough `ECHO` messages or after `f + 1`
`READY` messages of others.  The first `READY` of a run cannot have the second
cause, as long as one of the `f + 1` messages stems from a correct validator:
that validator would have sent `READY` before.  So every `READY`, and every
delivery, is preceded by an echo quorum at some correct node
(`echo_quorum_of_ready`).  When all validators follow the code nothing else is
needed (`ready_after_echo_quorum`).
-/

namespace CosiCoin

open CausalLog Node

section Provenance

variable [Platform]

theorem votes_mono
    (type : MsgType) (h : Str) (j : UInt16) (later earlier : Log) :
    votes type h (history j earlier) ≤ votes type h (history j (later ++ earlier)) := by
  rw [history_append, votes, votes, List.countP_append]
  omega

/-- A counted message of a correct validator was broadcast by it before. -/
theorem broadcast_of_counted
    {c : Committee} {log : Log} {i : UInt16} {m : Message}
    (hcausal : Causal (Rule c) log)
    (hm : (i, .counted m) ∈ log)
    (hcorrect : m.block.validatorId ∉ c.byz) :
    ∃ later earlier m₀,
      log = later ++ (i, .counted m) :: earlier ∧
      (m.block.validatorId, .broadcast m₀) ∈ earlier ∧
      m₀.wire = .ok m ∧ m₀.type = m.type ∧
      m₀.block.header = m.block.header := by
  obtain ⟨later, earlier, hlog, _, havail⟩ := hcausal.exists_of_mem hm
  rcases havail with ⟨j, m₀, hin, hwire⟩ | ⟨hbyz, _⟩
  · obtain ⟨htype, hheader, hid, _, _⟩ := wire_eq_ok hwire
    have hearlier : Causal (Rule c) earlier := by
      rw [hlog] at hcausal
      exact hcausal.of_append.2
    obtain ⟨_, _, _, _, hj, hrule⟩ := hearlier.exists_of_mem hin
    have hother : m₀.type ≠ .other := by
      intro hother
      rw [BroadcastRule, hother] at hrule
      exact hrule
    refine ⟨later, earlier, m₀, hlog, ?_, hwire, ?_, hheader.symm⟩
    · rw [hid, hj]
      exact hin
    · rw [htype, fromProto_toProto hother]
  · exact absurd hbyz hcorrect

/--
In every earlier part of the log, `f + 1` votes for `READY` contain one of a
correct validator.
-/
def ReadyVotesSound (c : Committee) (h : Str) (log : Log) : Prop :=
  ∀ earlier, earlier <:+ log →
    ∀ i, c.f + 1 ≤ votes .ready h (history i earlier) →
      ∃ m, (i, .counted m) ∈ earlier ∧ m.type = .ready ∧
        m.block.header.getID = h ∧ m.block.validatorId ∉ c.byz

theorem ReadyVotesSound.of_suffix
    {c : Committee} {h : Str} {earlier log : Log}
    (hsound : ReadyVotesSound c h log)
    (hsuffix : earlier <:+ log) :
    ReadyVotesSound c h earlier := by
  intro earlier' hearlier'
  exact hsound earlier' (hearlier'.trans hsuffix)

theorem isReadyFor_iff
    {h : Str} {e : NodeEvent} :
    isReadyFor h e = true ↔ ∃ m, e = .broadcast m ∧ m.type = .ready ∧ m.block.header.getID = h := by
  cases e with
  | broadcast m => simp [isReadyFor]
  | counted m => simp [isReadyFor]
  | proposed b => simp [isReadyFor]
  | delivered k => simp [isReadyFor]
  | restarted => simp [isReadyFor]

/-- A sound set of `READY` votes stems from a `READY` that was sent before. -/
theorem ready_sent_of_votes
    {c : Committee} {h : Str} {log : Log} {i : UInt16}
    (hcausal : Causal (Rule c) log)
    (hsound : ReadyVotesSound c h log)
    (hvotes : c.f + 1 ≤ votes .ready h (history i log)) :
    ∃ e ∈ log, isReadyFor h e.2 = true := by
  obtain ⟨m, hm, htype, hhash, hcorrect⟩ := hsound log List.suffix_rfl i hvotes
  obtain ⟨later, earlier, m₀, hlog, hin, _, htype₀, hheader₀⟩ :=
    broadcast_of_counted hcausal hm hcorrect
  refine ⟨(m.block.validatorId, .broadcast m₀), ?_, ?_⟩
  · rw [hlog]
    exact List.mem_append_right _ (List.mem_cons_of_mem _ hin)
  · exact isReadyFor_iff.mpr ⟨m₀, rfl, htype₀.trans htype, by rw [hheader₀, hhash]⟩

/-- Behind every `READY` there is an echo quorum at a correct node. -/
theorem echo_quorum_of_ready
    {c : Committee} {h : Str} {log : Log}
    (hcausal : Causal (Rule c) log)
    (hsound : ReadyVotesSound c h log)
    (hready : ∃ e ∈ log, isReadyFor h e.2 = true) :
    ∃ j, c.Correct j ∧ c.echoThreshold ≤ votes .echo h (history j log) := by
  obtain ⟨later, ⟨j, e⟩, earlier, rfl, he, hno⟩ := exists_first hready
  obtain ⟨m, rfl, htype, hhash⟩ := isReadyFor_iff.mp he
  obtain ⟨hj, _, hrule⟩ := hcausal.cause
  rw [BroadcastRule, htype] at hrule
  rcases hrule.2 with hecho | hvotes
  · refine ⟨j, hj, hecho.trans ?_⟩
    rw [hhash]
    have hmono := votes_mono .echo h j (later ++ [(j, .broadcast m)]) earlier
    rwa [List.append_assoc, List.singleton_append] at hmono
  · -- the votes stem from a `READY` before the first one
    rw [hhash] at hvotes
    have hsuffix : earlier <:+ later ++ (j, .broadcast m) :: earlier :=
      (List.suffix_cons _ _).trans (List.suffix_append _ _)
    obtain ⟨e', he', hready'⟩ :=
      ready_sent_of_votes hcausal.of_append.2 (hsound.of_suffix hsuffix) hvotes
    exact absurd hready' (hno e' he')

/-- When all validators follow the code, every vote is one of a correct validator. -/
theorem readyVotesSound_of_byz_empty
    {c : Committee}
    (hbyz : c.byz = ∅)
    (h : Str) (log : Log) :
    ReadyVotesSound c h log := by
  intro earlier _ i hvotes
  obtain ⟨m, hm, htype, hhash⟩ := exists_of_votes_pos (lt_of_lt_of_le (Nat.succ_pos _) hvotes)
  exact ⟨m, mem_history.mp hm, htype, hhash, by simp [hbyz]⟩

/-- A broadcast `READY` for the hash, or its acceptance. -/
def ReadyOrAccepted (h : Str) (e : NodeEvent) : Prop :=
  isReadyFor h e = true ∨ e = .delivered h

/--
When all validators follow the code, every `READY` for a hash and every
acceptance of it comes after some node has counted as many `ECHO` messages for
the hash as the threshold asks for.
-/
theorem ready_after_echo_quorum
    (c : Committee) (s : SystemState)
    (hbyz : c.byz = ∅)
    (hs : SystemReachable c s)
    (i : UInt16) (h : Str) (e : NodeEvent) (later earlier : Log)
    (hlog : s.log = later ++ (i, e) :: earlier)
    (he : ReadyOrAccepted h e) :
    ∃ j, c.Correct j ∧ (c.n + c.f + 1) / 2 ≤ votes .echo h (history j earlier) := by
  have hcausal : Causal (Rule c) ((i, e) :: earlier) := by
    have hinv := (systemInv_of_reachable hs).causal
    rw [hlog] at hinv
    exact hinv.of_append
  have hsound := readyVotesSound_of_byz_empty hbyz h
  obtain ⟨hi, hrule⟩ := hcausal.1
  -- an amplified `READY` and a delivery rest on a `READY` sent before them
  have hbefore : c.f + 1 ≤ votes .ready h (history i earlier) →
      ∃ j, c.Correct j ∧ (c.n + c.f + 1) / 2 ≤ votes .echo h (history j earlier) := by
    intro hvotes
    exact echo_quorum_of_ready hcausal.2 (hsound earlier)
      (ready_sent_of_votes hcausal.2 (hsound earlier) hvotes)
  rcases he with hready | rfl
  · obtain ⟨m, rfl, htype, hhash⟩ := isReadyFor_iff.mp hready
    have hcause := hrule.2
    rw [BroadcastRule, htype] at hcause
    rw [hhash] at hcause
    rcases hcause.2 with hecho | hvotes
    · exact ⟨i, hi, hecho⟩
    · exact hbefore hvotes
  · apply hbefore
    have hmany : 2 * c.f + 1 < votes .ready h (history i earlier) := hrule
    omega

end Provenance

/-- Two validators accept the empty block after an `ECHO` was counted. -/
theorem echo_before_acceptance :
    letI := referencePlatform
    ∃ (s : SystemState) (later earlier : Log), SystemReachable twoValidators s ∧
      s.log = later ++ (0, .delivered emptyBlock.header.getID) :: earlier ∧
      ∃ j, twoValidators.Correct j ∧
        1 ≤ votes .echo emptyBlock.header.getID (history j earlier) := by
  let _ := referencePlatform
  obtain ⟨s, hs, _, hdel⟩ := exists_accepted (b := emptyBlock) [] [] rfl ⟨[], rfl⟩ rfl
  obtain ⟨later, earlier, hlog⟩ := List.append_of_mem hdel
  exact ⟨s, later, earlier, hs, hlog, ready_after_echo_quorum twoValidators s rfl hs 0
    emptyBlock.header.getID _ later earlier hlog (Or.inr rfl)⟩

end CosiCoin
