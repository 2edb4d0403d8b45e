import CosiCoin.NodeLifetime
import CosiCoin.ReferencePlatform

/-!
# COSICOIN: READY messages and deliveries of a node

Whatever a node receives, it broadcasts `READY` at most once for a hash and only
when one of its counters for the hash has reached its threshold, and it accepts
a hash only after it has broadcast `READY` for it (`ready_once_before_delivery`).

The set `ready_sent_` is the guard both loops of `broadcastRound` share.  A
delivery ends the second loop, and the `READY` of its own turn stands before it.
-/

namespace CosiCoin

open LabelledRuns CausalLog Node

section Rounds

/-- The events of a round: messages, and at most one delivery of a hash with a `READY`. -/
def EndsReady (nd : Node) (evs : List NodeEvent) : Prop :=
  ∃ ev, (∀ k, .delivered k ∉ ev) ∧
    (evs = ev ∨ ∃ h, h ∈ nd.readySent ∧ evs = ev ++ [.delivered h])

theorem EndsReady.append_left
    {nd : Node} {ev evs : List NodeEvent}
    (h : EndsReady nd evs)
    (hsilent : ∀ k, .delivered k ∉ ev) :
    EndsReady nd (ev ++ evs) := by
  obtain ⟨ev', hev', hevs⟩ := h
  refine ⟨ev ++ ev', ?_, ?_⟩
  · intro k
    simp [hsilent k, hev' k]
  · rcases hevs with rfl | ⟨h, hmem, rfl⟩
    · exact Or.inl rfl
    · exact Or.inr ⟨h, hmem, (List.append_assoc _ _ _).symm⟩

variable [Platform]

/-- After its turn in a loop, a hash with enough votes has its `READY`. -/
theorem announceReady_readySent
    {nd nd' : Node} {threshold nbRecv : Nat} {h : Str} {round : UInt32} {evs : List NodeEvent}
    (hok : nd.announceReady threshold nbRecv h round = .ok (nd', evs))
    (hle : threshold ≤ nbRecv) :
    h ∈ nd'.readySent := by
  rcases announceReady_cases hok with ⟨hcond, rfl, _⟩ | ⟨_, _, rfl, _⟩
  · by_contra hnot
    exact hcond ⟨hle, hnot⟩
  · exact Finset.mem_insert_self _ _

/-- Only messages are sent in the turn of a hash. -/
theorem announceReady_silent
    {nd nd' : Node} {threshold nbRecv : Nat} {h : Str} {round : UInt32} {evs : List NodeEvent}
    (hok : nd.announceReady threshold nbRecv h round = .ok (nd', evs))
    (k : Str) :
    .delivered k ∉ evs := by
  rcases announceReady_cases hok with ⟨_, _, rfl⟩ | ⟨_, _, _, m, _, rfl⟩
  · simp
  · simp

theorem sendEcho_silent
    {nd nd' : Node} {evs : List NodeEvent}
    (h : nd.sendEcho = .ok (nd', evs))
    (k : Str) :
    .delivered k ∉ evs := by
  rcases sendEcho_cases h with ⟨_, _, rfl⟩ | ⟨_, _, m, _, rfl⟩
  · simp
  · simp

theorem echoLoop_silent
    {entries : List ((_ : Str) × Nat)} :
    ∀ {nd nd' : Node} {evs : List NodeEvent}, echoLoop entries nd = .ok (nd', evs) →
      ∀ k, .delivered k ∉ evs := by
  induction entries with
  | nil =>
      intro nd nd' evs h k
      obtain ⟨rfl, rfl⟩ := Prod.mk.inj (Except.ok.inj h)
      simp
  | cons e entries ih =>
      obtain ⟨h, nbRecv⟩ := e
      intro nd nd' evs hok k
      obtain ⟨⟨nd₁, ev₁⟩, hone, hok⟩ := bind_eq_ok hok
      obtain ⟨⟨nd₂, ev₂⟩, hloop, hok⟩ := bind_eq_ok hok
      obtain ⟨rfl, rfl⟩ := Prod.mk.inj (Except.ok.inj hok)
      have hfirst := announceReady_silent hone k
      have hrest := ih hloop k
      simp [hfirst, hrest]

theorem readyLoop_endsReady
    {entries : List ((_ : Str) × Nat)} :
    ∀ {nd nd' : Node} {evs : List NodeEvent}, readyLoop entries nd = .ok (nd', evs) →
      EndsReady nd' evs := by
  induction entries with
  | nil =>
      intro nd nd' evs h
      obtain ⟨rfl, rfl⟩ := Prod.mk.inj (Except.ok.inj h)
      exact ⟨[], by simp, Or.inl rfl⟩
  | cons e entries ih =>
      obtain ⟨h, nbRecv⟩ := e
      intro nd nd' evs hok
      obtain ⟨⟨nd₁, ev₁⟩, hone, hok⟩ := bind_eq_ok hok
      have hsilent := announceReady_silent hone
      dsimp only at hok
      split_ifs at hok with hdeliver
      · obtain ⟨rfl, rfl⟩ := Prod.mk.inj (Except.ok.inj hok)
        -- the votes for a delivery are more than enough for the `READY` before it
        have hsize : nd₁.f = nd.f := by
          rcases announceReady_cases hone with ⟨_, rfl, _⟩ | ⟨_, _, rfl, _⟩
          · rfl
          · rfl
        have hmem : h ∈ nd₁.readySent := by
          refine announceReady_readySent hone ?_
          have hmany : 2 * nd₁.f + 1 < nbRecv := hdeliver
          omega
        exact ⟨ev₁, hsilent, Or.inr ⟨h, hmem, rfl⟩⟩
      · obtain ⟨⟨nd₂, ev₂⟩, hloop, hok⟩ := bind_eq_ok hok
        obtain ⟨rfl, rfl⟩ := Prod.mk.inj (Except.ok.inj hok)
        exact (ih hloop).append_left hsilent

theorem broadcastRound_endsReady
    {nd nd' : Node} {evs : List NodeEvent}
    (h : nd.broadcastRound = .ok (nd', evs)) :
    EndsReady nd' evs := by
  obtain ⟨⟨nd₁, ev₁⟩, hecho, h⟩ := bind_eq_ok h
  obtain ⟨⟨nd₂, ev₂⟩, hloop₁, h⟩ := bind_eq_ok h
  obtain ⟨⟨nd₃, ev₃⟩, hloop₂, h⟩ := bind_eq_ok h
  obtain ⟨rfl, rfl⟩ := Prod.mk.inj (Except.ok.inj h)
  rw [List.append_assoc]
  exact ((readyLoop_endsReady hloop₂).append_left (echoLoop_silent hloop₁)).append_left
    (sendEcho_silent hecho)

end Rounds

section Thresholds

variable [Platform]

/-- One of the two counters of the hash has reached its threshold. -/
def EnoughVotes (nd : Node) (h : Str) : Prop :=
  (nd.n + nd.f + 1) / 2 ≤ nd.echoThisRound.count h ∨ nd.f + 1 ≤ nd.readyThisRound.count h

/-- Without new messages the counters can only lose entries. -/
theorem EnoughVotes.of_step
    {nd nd' : Node} {ev : List NodeEvent} {h : Str}
    (hvotes : EnoughVotes nd' h)
    (hstep : NodeStep nd ev nd')
    (hnone : countedMessages ev = []) :
    EnoughVotes nd h := by
  cases hstep with
  | quiet hq hkept =>
      unfold EnoughVotes at hvotes
      rwa [hq.n, hq.f, hq.echo, hq.ready] at hvotes
  | count m =>
      cases hnone
  | echo m hsend hm =>
      exact hvotes
  | ready m k round hk hsent hm =>
      exact hvotes
  | deliver k hk =>
      have herase : ∀ c : Counter, Counter.count (c.erase k) h ≤ c.count h := by
        intro c
        rw [Counter.count_erase]
        split_ifs
        · exact Nat.zero_le _
        · exact le_rfl
      exact hvotes.imp (fun hecho => le_trans hecho (herase _))
        (fun hready => le_trans hready (herase _))
  | restart =>
      exact hvotes

/-- A `READY` sent without new messages has the votes at the start. -/
theorem enoughVotes_of_ready
    {nd nd' : Node} {evs : List NodeEvent}
    (hrun : NodeRun nd evs nd') :
    ∀ {hist}, Recorded nd hist → countedMessages evs = [] →
      ∀ m, .broadcast m ∈ evs → m.type = .ready → EnoughVotes nd m.block.header.getID := by
  induction hrun with
  | refl nd =>
      intro hist _ _ m hm
      cases hm
  | head hstep rest ih =>
      intro hist hrec hnone m hm htype
      rw [countedMessages_append, List.append_eq_nil_iff] at hnone
      rcases List.mem_append.mp hm with hm | hm
      · cases hstep with
        | quiet hq hkept => cases hm
        | count m' => cases hnone.1
        | echo m' hsend hsigns =>
            obtain rfl := NodeEvent.broadcast.inj (List.mem_singleton.mp hm)
            rw [(Signs.type_eq hsigns).1] at htype
            cases htype
        | ready m' h round hvotes hsent hsigns =>
            obtain rfl := NodeEvent.broadcast.inj (List.mem_singleton.mp hm)
            obtain ⟨_, _, _, hhash⟩ := hrec.body_of_signs hsigns
            rw [hhash]
            exact hvotes
        | deliver h hvotes => simp at hm
        | restart => simp at hm
      · exact (ih (hrec.step hstep) hnone.2 m hm htype).of_step hstep hnone.1

end Thresholds

section Deliveries

variable [Platform]

/-- The hashes in `ready_sent_` are those of the `READY` messages in the history. -/
def ReadyNoted (nd : Node) (hist : List NodeEvent) : Prop :=
  ∀ h ∈ nd.readySent, 0 < readyBroadcasts h hist

theorem ReadyNoted.append
    {nd nd' : Node} {hist : List NodeEvent}
    (h : ReadyNoted nd hist)
    (hsame : nd'.readySent = nd.readySent)
    (ev : List NodeEvent) :
    ReadyNoted nd' (ev ++ hist) := by
  intro k hk
  rw [hsame] at hk
  have hpos := h k hk
  rw [readyBroadcasts, List.countP_append]
  exact Nat.add_pos_right _ hpos

theorem ReadyNoted.step
    {nd nd' : Node} {hist ev : List NodeEvent}
    (h : ReadyNoted nd hist)
    (hrec : Recorded nd hist)
    (hstep : NodeStep nd ev nd') :
    ReadyNoted nd' (ev.reverse ++ hist) := by
  cases hstep with
  | quiet hq hkept =>
      exact h.append hq.readySent _
  | count m =>
      exact h.append (countMessage_same nd m).2.2.2.1 _
  | echo m hsend hm =>
      exact h.append rfl _
  | ready m k round hvotes hsent hm =>
      obtain ⟨_, _, _, hhash⟩ := hrec.body_of_signs hm
      intro k' hk'
      rcases Finset.mem_insert.mp hk' with rfl | hk'
      · simp [readyBroadcasts, isReadyFor, (Signs.type_eq hm).1, hhash]
      · exact h.append rfl [.broadcast m] k' hk'
  | deliver k hvotes =>
      exact h.append rfl _
  | restart =>
      exact h.append rfl _

/-- A hash is accepted after its `READY`. -/
def ReadyBefore (e : NodeEvent) (earlier : List NodeEvent) : Prop :=
  ∀ h, e = .delivered h → 0 < readyBroadcasts h earlier

theorem causal_of_silent
    {ev hist : List NodeEvent}
    (h : Causal ReadyBefore hist)
    (hsilent : ∀ k, .delivered k ∉ ev) :
    Causal ReadyBefore (ev ++ hist) := by
  induction ev with
  | nil =>
      exact h
  | cons e ev ih =>
      refine ⟨?_, ih fun k hk => hsilent k (List.mem_cons_of_mem _ hk)⟩
      intro k hk
      exact absurd (hk ▸ List.mem_cons_self) (hsilent k)

theorem causal_of_endsReady
    {nd : Node} {evs hist : List NodeEvent}
    (h : Causal ReadyBefore hist)
    (hnoted : ReadyNoted nd (evs.reverse ++ hist))
    (hends : EndsReady nd evs) :
    Causal ReadyBefore (evs.reverse ++ hist) := by
  obtain ⟨ev, hsilent, rfl | ⟨k, hk, rfl⟩⟩ := hends
  · exact causal_of_silent h fun k hk => hsilent k (List.mem_reverse.mp hk)
  · have hearlier : Causal ReadyBefore (ev.reverse ++ hist) :=
      causal_of_silent h fun k hk => hsilent k (List.mem_reverse.mp hk)
    have hpos := hnoted k hk
    rw [List.reverse_append] at hpos ⊢
    refine ⟨?_, hearlier⟩
    rintro k' ⟨rfl⟩
    simpa [readyBroadcasts, isReadyFor] using hpos

/-- No event of a received message, a restart or a proposal is a delivery. -/
theorem lifeStep_endsReady
    {s s' : NodeLife} {a : LifeAction}
    (h : LifeStep s a s') :
    ∃ evs, s'.hist = evs.reverse ++ s.hist ∧ EndsReady s'.node evs := by
  cases h with
  | batch => exact ⟨[], rfl, [], by simp, Or.inl rfl⟩
  | receive m nd evs h =>
      refine ⟨evs, rfl, evs, ?_, Or.inl rfl⟩
      obtain ⟨_, _, _, _, _, _, _, h⟩ := recvMessage_eq_ok h
      rcases h with ⟨_, rfl, _⟩ | ⟨_, _, rfl, _⟩
      · simp
      · simp
  | round nd₁ nd evs hrehash h => exact ⟨evs, rfl, broadcastRound_endsReady h⟩
  | runProtocol broadcast => exact ⟨[.restarted], rfl, _, by simp, Or.inl rfl⟩
  | setUTXOlists utxolist walletIds => exact ⟨[], rfl, [], by simp, Or.inl rfl⟩
  | propose b nd evs h =>
      obtain ⟨_, m, _, rfl⟩ := propose_eq_ok h
      exact ⟨_, rfl, _, by simp, Or.inl rfl⟩
  | getConsensusBlocks erase => exact ⟨[], rfl, [], by simp, Or.inl rfl⟩

theorem readyNoted_of_reachable
    {n f : Nat} {s : NodeLife}
    (h : LifeReachable n f s) :
    ReadyNoted s.node s.hist := by
  refine (life_invariant (P := fun nd hist => Recorded nd hist ∧ ReadyNoted nd hist)
    ?_ ?_ ?_ ?_ h).2
  · intro id isLead urandom erasedRead
    exact ⟨Recorded.new id n f isLead urandom erasedRead, by simp [ReadyNoted, Node.new]⟩
  · rintro nd nd' hist ⟨hrec, hnoted⟩ hq
    exact ⟨hrec.quiet hq, hnoted.append hq.readySent []⟩
  · rintro nd ev nd' hist ⟨hrec, hnoted⟩ hstep
    exact ⟨hrec.step hstep, hnoted.step hrec hstep⟩
  · rintro nd b m hist ⟨hrec, hnoted⟩ hm
    exact ⟨hrec.propose hm, hnoted.append rfl [.broadcast m, .proposed b]⟩

theorem causal_of_reachable
    {n f : Nat} {s : NodeLife}
    (h : LifeReachable n f s) :
    Causal ReadyBefore s.hist := by
  unfold LifeReachable at h
  induction h with
  | start h =>
      obtain ⟨id, isLead, urandom, erasedRead, rfl⟩ := h
      exact trivial
  | next run h ih =>
      obtain ⟨evs, hhist, hends⟩ := lifeStep_endsReady h
      have hnoted := readyNoted_of_reachable (Reachable.next run h)
      rw [hhist] at hnoted ⊢
      exact causal_of_endsReady ih hnoted hends

end Deliveries

section Discipline

variable [Platform]

/-- The `READY` messages of a step have the votes in the state before it. -/
theorem enoughVotes_of_step
    {n f : Nat} {s s' : NodeLife} {a : LifeAction} {evs : List NodeEvent} {m : Message}
    (hs : LifeReachable n f s)
    (h : LifeStep s a s')
    (hhist : s'.hist = evs.reverse ++ s.hist)
    (hm : .broadcast m ∈ evs)
    (htype : m.type = .ready) :
    EnoughVotes s.node m.block.header.getID := by
  have hrec := recorded_of_reachable hs
  have hevs : ∀ evs' : List NodeEvent, evs'.reverse ++ s.hist = s'.hist → .broadcast m ∈ evs' := by
    intro evs' heq
    rw [hhist] at heq
    rw [List.reverse_injective (List.append_cancel_right heq)]
    exact hm
  cases h with
  | batch => cases hevs [] rfl
  | receive m' nd evs' h =>
      have hin := hevs evs' rfl
      obtain ⟨_, _, _, _, _, _, _, h⟩ := recvMessage_eq_ok h
      rcases h with ⟨_, rfl, _⟩ | ⟨_, _, rfl, _⟩
      · cases hin
      · simp at hin
  | round nd₁ nd evs' hrehash h =>
      obtain ⟨hrun, hnone⟩ := broadcastRound_nodeRun h
      obtain ⟨hquiet, hkept⟩ := quiet_of_rehashed hrehash
      have hvotes := enoughVotes_of_ready hrun (hrec.quiet hquiet) hnone m (hevs evs' rfl) htype
      exact hvotes.of_step (.quiet hquiet hkept) rfl
  | runProtocol broadcast => simpa using hevs [.restarted] rfl
  | setUTXOlists utxolist walletIds => cases hevs [] rfl
  | propose b nd evs' h =>
      obtain ⟨_, m', hsigns, rfl⟩ := propose_eq_ok h
      have hin := hevs _ rfl
      have heq : m = m' := by simpa using hin
      rw [heq, (Signs.type_eq hsigns).1] at htype
      cases htype
  | getConsensusBlocks erase => cases hevs [] rfl

/--
In every life of a node `READY` is broadcast at most once for a hash, a step that
broadcasts it starts with enough votes in a counter, and a hash is accepted only
after its `READY`.
-/
theorem ready_once_before_delivery
    (n f : Nat) (s : NodeLife)
    (hs : LifeReachable n f s) :
    (∀ h, readyBroadcasts h s.hist ≤ 1) ∧
    (∀ a s' (evs : List NodeEvent) m, LifeStep s a s' → s'.hist = evs.reverse ++ s.hist →
      .broadcast m ∈ evs → m.type = .ready →
        (n + f + 1) / 2 ≤ s.node.echoThisRound.count m.block.header.getID ∨
        f + 1 ≤ s.node.readyThisRound.count m.block.header.getID) ∧
    (∀ later h earlier, s.hist = later ++ .delivered h :: earlier →
      0 < readyBroadcasts h earlier) := by
  refine ⟨?_, ?_, ?_⟩
  · intro h
    refine le_trans ((recorded_of_reachable hs).readySent h) ?_
    split_ifs <;> omega
  · intro a s' evs m hstep hhist hm htype
    obtain ⟨hn, hf⟩ := sized_of_reachable hs
    have hvotes := enoughVotes_of_step hs hstep hhist hm htype
    rwa [EnoughVotes, hn, hf] at hvotes
  · intro later h earlier hhist
    have hcausal := causal_of_reachable hs
    rw [hhist] at hcausal
    exact hcausal.cause h rfl

end Discipline

/-- Two repeated votes make a single validator announce and accept a block. -/
theorem accepted_after_announcement :
    letI := referencePlatform
    ∃ s h earlier, LifeReachable 1 0 s ∧ s.hist = .delivered h :: earlier ∧
      0 < readyBroadcasts h earlier := by
  let _ := referencePlatform
  obtain ⟨m, s, hs, _, _, _, _, ⟨hn, hf⟩, htracks⟩ :=
    exists_repeated_life 1 0 (b := emptyBlock) rfl rfl 0 (Or.inr rfl) 2
  obtain ⟨nd, outs, hround, _, _⟩ := htracks.broadcastRound (by rw [hn, hf]; decide)
  have hdelivery : deliveryEvents s.node.f (Tally.recv {} (List.replicate 2 .ready)).ready
      emptyBlock.header.getID = [.delivered emptyBlock.header.getID] := by
    rw [hf]
    rfl
  rw [hdelivery] at hround
  have hstep : LifeStep s .round (s.record nd _) :=
    .round s s.node nd _ ⟨_, _, List.Perm.refl _, List.Perm.refl _, rfl⟩ hround
  have hs' : LifeReachable 1 0 _ := .next hs hstep
  refine ⟨_, emptyBlock.header.getID, (outs.map .broadcast).reverse ++ s.hist, hs', ?_, ?_⟩
  · simp [NodeLife.record]
  · refine (ready_once_before_delivery 1 0 _ hs').2.2 [] _ _ ?_
    simp [NodeLife.record]

end CosiCoin
