import CosiCoin.SingleProposal

/-!
# COSICOIN: the balance of the votes

In a run with a single proposal the votes are balanced: what was sent to a node
is on its way or was counted by it (`Balanced`).  A node echoes its one `SEND`,
and it has sent `READY` when it has seen enough echoes or has accepted the block
(`Tally.Sound`).  Both hold in every reachable state of the votes
(`voteInv_of_reachable`).
-/

namespace CosiCoin

open LabelledRuns FifoLinks Node

namespace Tally

/-- What a tally says about the node, as long as there is one `SEND`. -/
structure Sound (threshold f : Nat) (t : Tally) : Prop where
  echoSent : t.echoSent = t.sendSeen
  waiting : t.accepted = 0 → t.echo = t.echoSeen ∧ t.ready = t.readySeen ∧ t.ready ≤ 2 * f + 1
  announced : 0 < t.accepted ∨ threshold ≤ t.echo → t.readySent = true

theorem contains_send
    {types : List MsgType}
    (h : types.count .send ≤ 1) :
    (if types.contains .send then 1 else 0) = types.count .send := by
  split_ifs with hsend
  · have hpos : 0 < types.count .send := List.count_pos_iff.mpr (by simpa using hsend)
    omega
  · exact (List.count_eq_zero.mpr (by simpa using hsend)).symm

theorem Sound.task
    {threshold f : Nat} {t : Tally} {types : List MsgType}
    (h : t.Sound threshold f)
    (hsend : types.count .send ≤ 1) :
    (t.task threshold f types).1.Sound threshold f := by
  have hsent := h.echoSent
  have hcontains := contains_send hsend
  rw [Tally.task, round_fst, recv_eq, hcontains, Tally.deliver]
  split_ifs with hmany
  · refine ⟨by simp [hsent], by simp, ?_⟩
    intro _
    have henough : f + 1 ≤ t.ready + types.count .ready := by
      have : 2 * f + 1 < t.ready + types.count .ready := hmany
      omega
    simp [henough]
  · refine ⟨by simp [hsent], ?_, ?_⟩
    · intro haccepted
      obtain ⟨hecho, hready, _⟩ := h.waiting haccepted
      have hfew : ¬ 2 * f + 1 < t.ready + types.count .ready := hmany
      refine ⟨by simp [hecho], by simp [hready], ?_⟩
      show t.ready + types.count .ready ≤ 2 * f + 1
      omega
    · rintro (haccepted | hecho)
      · simp [h.announced (Or.inl haccepted)]
      · have henough : threshold ≤ t.echo + types.count .echo := hecho
        simp [henough]

end Tally

section Balance

/--
The messages of a type on their way to a node, with those it has counted, are
those that were sent: `k` by the proposal and the others by the live nodes.
-/
def Balanced (c : Committee) (type : MsgType) (seen sent : Tally → Nat) (k : Nat)
    (t : VoteState) : Prop :=
  ∀ j ∈ c.live, inFlight c.live (fun x => x == type) t.net j + seen (t.tallies j) =
    k + ∑ i ∈ c.live, sent (t.tallies i)

/-- Only live nodes have messages in their queues. -/
def SentByLive (c : Committee) (t : VoteState) : Prop :=
  ∀ i, i ∉ c.live → ∀ j, t.net.out i j = []

variable {c : Committee} {t t' : VoteState} {a : VoteAction}

theorem sentByLive_step
    (h : SentByLive c t)
    (hstep : t.step c a = some t') :
    SentByLive c t' := by
  intro k hk l
  have hold := h k hk l
  rcases VoteState.step_cases hstep with
    ⟨i, j, type, rest, _, _, hout, rfl⟩ | ⟨j, _, hj, _, _, rfl⟩ | ⟨j, _, _, _, rfl⟩
  · have hki : k ≠ i := by
      rintro rfl
      rw [h k hk j] at hout
      cases hout
    simpa [Links.transfer, hki] using hold
  · have hkj : k ≠ j := fun hkj => hk (hkj ▸ hj)
    simpa [Links.push, Links.drain, hkj] using hold
  · exact hold

/-- The balance is kept when a task counts its inbox and sends what it says. -/
theorem balanced_step
    {type : MsgType} {seen sent : Tally → Nat} {k : Nat}
    (hseen : ∀ q f t types, seen (Tally.task q f t types).1 = seen t + types.count type)
    (hsent : ∀ q f t types, sent (Tally.task q f t types).1 =
      sent t + (Tally.task q f t types).2.count type)
    (hrestart : ∀ t : Tally, seen t.restart = seen t ∧ sent t.restart = sent t)
    (hlive : SentByLive c t)
    (h : Balanced c type seen sent k t)
    (hstep : t.step c a = some t') :
    Balanced c type seen sent k t' := by
  intro l hl
  have hold := h l hl
  have hvals : l ∈ c.vals := (Committee.mem_live.mp hl).1
  rcases VoteState.step_cases hstep with
    ⟨i, j, type', rest, _, _, hout, rfl⟩ | ⟨j, _, hj, _, _, rfl⟩ | ⟨j, _, hj, _, rfl⟩
  · have hi : i ∈ c.live := by
      by_contra hi
      rw [hlive i hi j] at hout
      cases hout
    show inFlight _ _ (t.net.transfer i j rest type') l + _ = _
    rw [inFlight_transfer hi hout rfl]
    exact hold
  · let r := (t.tallies j).task c.echoThreshold c.f (t.net.inbox j)
    have hsum : ∑ i ∈ c.live, sent (Function.update t.tallies j r.1 i) =
        ∑ i ∈ c.live, sent (t.tallies i) + r.2.count type := by
      refine sum_add_of_eq_off hj ?_ ?_
      · intro i hi
        rw [Function.update_of_ne hi]
      · rw [Function.update_self]
        exact hsent _ _ _ _
    show inFlight _ _ ((t.net.drain j).push c.vals j r.2) l +
      seen (Function.update t.tallies j r.1 l) = k + ∑ i ∈ c.live, _
    rw [inFlight_push hj hvals, hsum]
    by_cases hlj : l = j
    · subst hlj
      have hdrain := inFlight_drain_self (S := c.live) (p := fun x => x == type) (l := t.net) l
      have hcounted : seen r.1 = seen (t.tallies l) + (t.net.inbox l).count type :=
        hseen _ _ _ _
      rw [Function.update_self, hcounted]
      have hsame : (t.net.inbox l).countP (fun x => x == type) = (t.net.inbox l).count type := rfl
      have hsame' : r.2.countP (fun x => x == type) = r.2.count type := rfl
      omega
    · rw [inFlight_drain_of_ne hlj, Function.update_of_ne hlj]
      have hsame' : r.2.countP (fun x => x == type) = r.2.count type := rfl
      omega
  · have hsum : ∀ g : Tally → Nat, (∀ t : Tally, g t.restart = g t) →
        ∀ i, g (Function.update t.tallies j (t.tallies j).restart i) = g (t.tallies i) := by
      intro g hg i
      by_cases hi : i = j
      · subst hi
        rw [Function.update_self, hg]
      · rw [Function.update_of_ne hi]
    show inFlight _ _ t.net l + seen (Function.update t.tallies j _ l) =
      k + ∑ i ∈ c.live, sent (Function.update t.tallies j _ i)
    rw [hsum seen (fun t => (hrestart t).1), Finset.sum_congr rfl
      (fun i _ => hsum sent (fun t => (hrestart t).2) i)]
    exact hold

/-- The tallies are sound and the votes balanced. -/
structure VoteInv (c : Committee) (t : VoteState) : Prop where
  live : SentByLive c t
  sound : ∀ i ∈ c.live, (t.tallies i).Sound c.echoThreshold c.f
  send : Balanced c .send (fun t => t.sendSeen) (fun _ => 0) 1 t
  echo : Balanced c .echo (fun t => t.echoSeen) (fun t => t.echoSent) 0 t
  ready : Balanced c .ready (fun t => t.readySeen) (fun t => t.readySent.toNat) 0 t

theorem sound_step
    (h : VoteInv c t)
    (hstep : t.step c a = some t') :
    ∀ i ∈ c.live, (t'.tallies i).Sound c.echoThreshold c.f := by
  intro i hi
  have hold := h.sound i hi
  rcases VoteState.step_cases hstep with
    ⟨k, j, type, rest, _, _, hout, rfl⟩ | ⟨j, _, hj, _, _, rfl⟩ | ⟨j, _, _, _, rfl⟩
  · exact hold
  · by_cases hij : i = j
    · subst hij
      have hone : (t.net.inbox i).count .send ≤ 1 := by
        have hsend := h.send i hi
        have hdrain := inFlight_drain_self (S := c.live) (p := fun x => x == MsgType.send)
          (l := t.net) i
        have hsame : (t.net.inbox i).countP (fun x => x == MsgType.send) =
            (t.net.inbox i).count .send := rfl
        simp only [Finset.sum_const_zero] at hsend
        omega
      simpa using hold.task hone
    · simpa [hij] using hold
  · by_cases hij : i = j
    · subst hij
      simpa using (⟨hold.echoSent, hold.waiting, hold.announced⟩ :
        Tally.Sound c.echoThreshold c.f (t.tallies i).restart)
    · simpa [hij] using hold

theorem voteInv_step
    (h : VoteInv c t)
    (hstep : t.step c a = some t') :
    VoteInv c t' where
  live := sentByLive_step h.live hstep
  sound := sound_step h hstep
  send := balanced_step (fun q f t types => (Tally.task_seen q f t types).1)
    (fun q f t types => (Tally.task_count q f t types).2.2.symm ▸ rfl)
    (fun _ => ⟨rfl, rfl⟩) h.live h.send hstep
  echo := balanced_step (fun q f t types => (Tally.task_seen q f t types).2.1)
    (fun q f t types => (Tally.task_count q f t types).2.1)
    (fun _ => ⟨rfl, rfl⟩) h.live h.echo hstep
  ready := balanced_step (fun q f t types => (Tally.task_seen q f t types).2.2.1)
    (fun q f t types => (Tally.task_count q f t types).1)
    (fun _ => ⟨rfl, rfl⟩) h.live h.ready hstep

theorem voteInv_start
    (hleader : c.leader ∈ c.live) :
    VoteInv c (VoteState.start c) := by
  have hflight : ∀ type, ∀ j ∈ c.live,
      inFlight c.live (fun x => x == type) (VoteState.start c).net j =
        [MsgType.send].count type := by
    intro type j hj
    rw [VoteState.start, inFlight_push hleader (Committee.mem_live.mp hj).1, inFlight_empty,
      Nat.zero_add]
    rfl
  refine ⟨?_, ?_, ?_, ?_, ?_⟩
  · intro i hi j
    have hne : i ≠ c.leader := fun h => hi (h ▸ hleader)
    simp [VoteState.start, Links.push, Links.empty, hne]
  · intro i _
    refine ⟨rfl, fun _ => ⟨rfl, rfl, Nat.zero_le _⟩, ?_⟩
    have hpos : 0 < c.echoThreshold := by
      have hn : 0 < c.n := Finset.card_pos.mpr ⟨c.leader, c.leader_mem⟩
      unfold Committee.echoThreshold
      omega
    rintro (h | h)
    · cases h
    · have hzero : c.echoThreshold ≤ 0 := h
      omega
  · intro j hj
    rw [hflight .send j hj]
    simp [VoteState.start]
  · intro j hj
    rw [hflight .echo j hj]
    simp [VoteState.start]
  · intro j hj
    rw [hflight .ready j hj]
    simp [VoteState.start]

theorem voteInv_of_reachable
    (hleader : c.leader ∈ c.live)
    (h : VoteReachable c t) :
    VoteInv c t := by
  refine h.invariant ?_ (fun _ _ _ hinv hstep => voteInv_step hinv hstep)
  rintro t rfl
  exact voteInv_start hleader

end Balance

end CosiCoin
