import CosiCoin.ReadyDiscipline

/-!
# COSICOIN: votes and validators

The comments of include/bracha/node.h describe the counters as lists of node
ids, but they count messages.  A counter is at most the number of validators
that voted as long as no validator repeats an accepted `ECHO` or `READY` for a
hash that has not been delivered since (`countsValidators_of_fresh`).
-/

namespace CosiCoin

open LabelledRuns Node

section Ballots

variable [Platform]

/-- The counters do not exceed the number of validators that voted. -/
def CountsValidators (s : NodeLife) : Prop :=
  ∀ h,
    s.node.echoThisRound.count h ≤ (ballots .echo h (countedMessages s.hist)).toFinset.card ∧
    s.node.readyThisRound.count h ≤ (ballots .ready h (countedMessages s.hist)).toFinset.card

/-- The validators whose votes for a hash were counted since it was last accepted. -/
def ballotsSince (type : MsgType) (h : Str) (hist : List NodeEvent) : List UInt16 :=
  ballots type h (countedMessages (sinceDelivery h hist))

theorem ballotsSince_counted
    (type : MsgType) (h : Str) (m : Message) (hist : List NodeEvent) :
    ballotsSince type h (.counted m :: hist) =
      if m.type = type ∧ m.block.header.getID = h then
        m.block.validatorId :: ballotsSince type h hist
      else ballotsSince type h hist := by
  have hsince : sinceDelivery h (.counted m :: hist) = .counted m :: sinceDelivery h hist := by
    simp [sinceDelivery]
  rw [ballotsSince, hsince]
  show ballots type h (m :: countedMessages (sinceDelivery h hist)) = _
  rw [ballots, List.filter_cons]
  split_ifs with hvote hboth hboth
  · rfl
  · exact absurd (of_decide_eq_true hvote) hboth
  · exact absurd (decide_eq_true hboth) hvote
  · rfl

/-- Other events leave the votes as they are, or forget them. -/
theorem ballotsSince_of_ne
    {e : NodeEvent}
    (he : ∀ m, e ≠ .counted m)
    (type : MsgType) (h : Str) (hist : List NodeEvent) :
    ballotsSince type h (e :: hist) = [] ∨
      ballotsSince type h (e :: hist) = ballotsSince type h hist := by
  unfold ballotsSince sinceDelivery
  by_cases hdel : e = .delivered h
  · left
    simp [hdel, countedMessages, ballots]
  · right
    rw [List.takeWhile_cons_of_pos (by simpa using hdel)]
    cases e with
    | counted m => exact absurd rfl (he m)
    | proposed b => rfl
    | broadcast m => rfl
    | delivered k => rfl
    | restarted => rfl

/-- No vote was repeated since its hash was last accepted. -/
def VotesDistinct (hist : List NodeEvent) : Prop :=
  ∀ type h, type = .echo ∨ type = .ready → (ballotsSince type h hist).Nodup

theorem VotesDistinct.append
    {ev hist : List NodeEvent}
    (h : VotesDistinct hist)
    (hev : ∀ m, .counted m ∉ ev) :
    VotesDistinct (ev ++ hist) := by
  induction ev with
  | nil =>
      exact h
  | cons e ev ih =>
      have hrest := ih fun m hm => hev m (List.mem_cons_of_mem _ hm)
      have he : ∀ m, e ≠ .counted m := fun m hm => hev m (hm ▸ List.mem_cons_self)
      intro type k htype
      rcases ballotsSince_of_ne he type k (ev ++ hist) with hnil | hsame
      · rw [List.cons_append, hnil]
        exact List.nodup_nil
      · rw [List.cons_append, hsame]
        exact hrest type k htype

/-- Without repetitions the counters count validators. -/
theorem countsValidators_of_distinct
    {s : NodeLife}
    (htally : Tallied s.node s.hist)
    (hdistinct : VotesDistinct s.hist) :
    CountsValidators s := by
  have hle : ∀ type h, type = .echo ∨ type = .ready →
      tally type h s.hist ≤ (ballots type h (countedMessages s.hist)).toFinset.card := by
    intro type h htype
    have hsub : (sinceDelivery h s.hist).Sublist s.hist := List.takeWhile_sublist _
    have hnodup : (ballots type h (countedMessages (sinceDelivery h s.hist))).Nodup :=
      hdistinct type h htype
    rw [tally, ← length_ballots, ← List.toFinset_card_of_nodup hnodup]
    apply Finset.card_le_card
    intro v hv
    exact List.mem_toFinset.mpr
      (((hsub.filterMap _).filter _ |>.map _).subset (List.mem_toFinset.mp hv))
  intro h
  rw [htally.echo, htally.ready]
  exact ⟨hle .echo h (Or.inl rfl), hle .ready h (Or.inr rfl)⟩

end Ballots

section FreshVotes

variable [Platform]

/--
An accepted `ECHO` or `READY` comes from a validator without a vote of that type
for the hash since the hash was last accepted.
-/
def VotesFresh (s : NodeLife) : LifeAction → Prop
  | .receive m => s.node.Accepts m → m.type = .echo ∨ m.type = .ready →
      m.block.validatorId ∉ ballotsSince m.type m.block.header.getID s.hist
  | _ => True

theorem votesDistinct_step
    {s s' : NodeLife} {a : LifeAction}
    (hdistinct : VotesDistinct s.hist)
    (hfresh : VotesFresh s a)
    (h : LifeStep s a s') :
    VotesDistinct s'.hist := by
  cases h with
  | batch => exact hdistinct
  | receive m nd evs h =>
      rcases recvMessage_cases h with ⟨_, rfl, _⟩ | ⟨haccepts, rfl, _⟩
      · exact hdistinct
      · intro type k htype
        show (ballotsSince type k (.counted m :: s.hist)).Nodup
        rw [ballotsSince_counted]
        split_ifs with hvote
        · obtain ⟨rfl, rfl⟩ := hvote
          exact List.nodup_cons.mpr ⟨hfresh haccepts htype, hdistinct _ _ htype⟩
        · exact hdistinct type k htype
  | round nd₁ nd evs hrehash h =>
      refine hdistinct.append fun m hm => ?_
      have hin := mem_countedMessages.mpr (List.mem_reverse.mp hm)
      rw [(broadcastRound_nodeRun h).2] at hin
      cases hin
  | runProtocol broadcast =>
      show VotesDistinct ([.restarted] ++ s.hist)
      exact hdistinct.append (by simp)
  | setUTXOlists utxolist walletIds => exact hdistinct
  | propose b nd evs h =>
      obtain ⟨_, m, _, rfl⟩ := propose_eq_ok h
      exact hdistinct.append (by simp)
  | getConsensusBlocks erase => exact hdistinct

/-- In every run without repeated votes the counters count validators. -/
theorem countsValidators_of_fresh
    (n f : Nat) (s : NodeLife)
    (hs : Reachable (LifeInit n f) (Guarded VotesFresh LifeStep) s) :
    CountsValidators s := by
  have hlife : LifeReachable n f s := hs.mono fun _ _ _ h => h.2
  refine countsValidators_of_distinct (tallied_of_reachable hlife) ?_
  clear hlife
  induction hs with
  | start h =>
      obtain ⟨id, isLead, urandom, erasedRead, rfl⟩ := h
      exact fun _ _ _ => List.nodup_nil
  | next run h ih =>
      exact votesDistinct_step ih h.1 h.2

end FreshVotes

/-- Two votes a node counts are the votes of two validators. -/
theorem two_votes_are_counted :
    letI := referencePlatform
    ∃ s, Reachable (LifeInit 4 1) (Guarded VotesFresh LifeStep) s ∧
      s.node.readyThisRound.count emptyBlock.header.getID = 2 ∧ CountsValidators s := by
  let _ := referencePlatform
  obtain ⟨m, _, _, htype, hblock, ⟨digest, hdigest⟩, hsigner, _⟩ :=
    exists_reusableVote (b := emptyBlock) rfl ⟨[], rfl⟩ 3
  obtain ⟨m', _, _, htype', hblock', ⟨digest', hdigest'⟩, hsigner', _⟩ :=
    exists_reusableVote (b := emptyBlock) rfl ⟨[], rfl⟩ 2
  let s₀ : NodeLife :=
    { node := Node.new 0 4 1 false (fun _ _ => (equalBytes 0, equalBytes 0)) keptRead }
  let s₁ : NodeLife := s₀.record (s₀.node.receive m) [.counted m]
  have hother : m'.block.validatorId ≠ m.block.validatorId := by
    rw [hsigner, hsigner']
    decide
  have hrecv : s₀.node.recvMessage m = .ok (s₀.node.receive m, [.counted m]) := by
    refine recvMessage_eq_receive hdigest ?_ (passesVerify_of_empty hblock.txs _)
    intro key hkey
    cases hkey
  have hrecv' : s₁.node.recvMessage m' = .ok (s₁.node.receive m', [.counted m']) := by
    refine recvMessage_eq_receive hdigest' ?_ (passesVerify_of_empty hblock'.txs _)
    intro key hkey
    have hstored : s₁.node.valSigKeys =
        s₀.node.valSigKeys.insert m.block.validatorId m.block.validatorNextPublicKey :=
      (receive_same s₀.node m).2.1
    rw [hstored, AList.lookup_insert_ne hother] at hkey
    cases hkey
  have hs₁ : Reachable (LifeInit 4 1) (Guarded VotesFresh LifeStep) s₁ := by
    refine .next (.start ⟨_, _, _, _, rfl⟩) ⟨?_, .receive s₀ m _ _ hrecv⟩
    intro _ _
    exact List.not_mem_nil
  have hs : Reachable (LifeInit 4 1) (Guarded VotesFresh LifeStep)
      (s₁.record (s₁.node.receive m') [.counted m']) := by
    refine .next hs₁ ⟨?_, .receive s₁ m' _ _ hrecv'⟩
    intro _ _ hmem
    -- the only vote so far is the one of the other validator
    change m'.block.validatorId ∈ ballotsSince _ _ (.counted m :: s₀.hist) at hmem
    rw [ballotsSince_counted] at hmem
    split_ifs at hmem
    · exact hother (List.mem_singleton.mp hmem)
    · exact absurd hmem List.not_mem_nil
  refine ⟨_, hs, ?_, countsValidators_of_fresh 4 1 _ hs⟩
  show (s₁.node.receive m').readyThisRound.count emptyBlock.header.getID = 2
  have hone : s₁.node.readyThisRound.count emptyBlock.header.getID = 1 := by
    show (s₀.node.receive m).readyThisRound.count emptyBlock.header.getID = 1
    rw [(receive_counters s₀.node m).2.1, if_pos htype, Counter.count_increment, hblock.header,
      if_pos rfl]
    rfl
  rw [(receive_counters s₁.node m').2.1, if_pos htype', Counter.count_increment, hblock'.header,
    if_pos rfl, hone]

/-- One validator that sends the same `READY` twice is counted twice. -/
theorem one_validator_counted_twice :
    letI := referencePlatform
    ∃ s, LifeReachable 4 1 s ∧ ¬ CountsValidators s := by
  let _ := referencePlatform
  obtain ⟨m, s, hs, htype, hheader, _, hhist, _, htracks⟩ :=
    exists_repeated_life 4 1 (b := emptyBlock) rfl rfl 3 (Or.inr rfl) 2
  refine ⟨s, hs, ?_⟩
  intro hcounts
  have hready := (hcounts emptyBlock.header.getID).2
  have htwo : s.node.readyThisRound.count emptyBlock.header.getID = 2 := by
    rw [htracks.ready, Counter.count_only]
    rfl
  have hballots : ballots .ready emptyBlock.header.getID (countedMessages s.hist) =
      [m.block.validatorId, m.block.validatorId] := by
    rw [hhist]
    simp [countedMessages, ballots, htype, hheader]
  rw [htwo, hballots] at hready
  simp at hready

end CosiCoin
