import CosiCoin.FifoBroadcast
import CosiCoin.KeyChain
import Mathlib.Algebra.BigOperators.Group.Finset.Piecewise

/-!
# COSICOIN: the traffic between two validators

The links neither duplicate nor invent messages.  What a node has counted of a
sender, with what is in its inbox and in the queue between the two, is at most
what the sender has broadcast (`trafficBound_of_reachable`).
-/

namespace CosiCoin

open LabelledRuns CausalLog FifoLinks Node

section Traffic

/-- The messages with property `p` of validator `i` that a node has counted. -/
def countedFrom (p : Message → Bool) (i : UInt16) (hist : List NodeEvent) : Nat :=
  (messagesFrom i (countedMessages hist)).countP p

/-- How many messages with property `p` a node has broadcast. -/
def sentMessages (p : Message → Bool) (hist : List NodeEvent) : Nat :=
  (broadcastMessages hist).countP p

theorem countedFrom_append
    (p : Message → Bool) (i : UInt16) (hist hist' : List NodeEvent) :
    countedFrom p i (hist ++ hist') = countedFrom p i hist + countedFrom p i hist' := by
  simp [countedFrom, countedMessages, messagesFrom, List.filterMap_append, List.filter_append]

theorem countedFrom_reverse
    (p : Message → Bool) (i : UInt16) (hist : List NodeEvent) :
    countedFrom p i hist.reverse = countedFrom p i hist := by
  rw [countedFrom, countedMessages, List.filterMap_reverse, messagesFrom, List.filter_reverse,
    List.countP_reverse]
  rfl

theorem sentMessages_append
    (p : Message → Bool) (hist hist' : List NodeEvent) :
    sentMessages p (hist ++ hist') = sentMessages p hist + sentMessages p hist' := by
  simp [sentMessages, broadcastMessages, List.filterMap_append]

theorem sentMessages_reverse
    (p : Message → Bool) (hist : List NodeEvent) :
    sentMessages p hist.reverse = sentMessages p hist := by
  rw [sentMessages, broadcastMessages, List.filterMap_reverse, List.countP_reverse]
  rfl

/-- Messages of the given senders, counted for each of them. -/
theorem countP_eq_sum
    {S : Finset UInt16} {p : Message → Bool} {msgs : List Message}
    (h : ∀ m ∈ msgs, p m = true → m.block.validatorId ∈ S) :
    msgs.countP p = ∑ i ∈ S, (messagesFrom i msgs).countP p := by
  induction msgs with
  | nil => simp [messagesFrom]
  | cons m msgs ih =>
      obtain ⟨hm, hmsgs⟩ := List.forall_mem_cons.mp h
      have hstep : ∀ i, (messagesFrom i (m :: msgs)).countP p =
          (messagesFrom i msgs).countP p +
            if m.block.validatorId = i ∧ p m = true then 1 else 0 := by
        intro i
        by_cases hi : m.block.validatorId = i
        · simp [messagesFrom, hi, List.countP_cons]
        · simp [messagesFrom, hi]
      rw [List.countP_cons, ih hmsgs, Finset.sum_congr rfl fun i _ => hstep i,
        Finset.sum_add_distrib]
      by_cases hp : p m = true
      · simp [hp, Finset.sum_ite_eq, hm hp]
      · simp [hp]

variable [Platform]

/-- A message of the given type and hash. -/
def isMessage (type : MsgType) (h : Str) (m : Message) : Bool :=
  m.type = type ∧ m.block.header.getID = h

theorem votes_eq_countP
    (type : MsgType) (h : Str) (hist : List NodeEvent) :
    votes type h hist = (countedMessages hist).countP (isMessage type h) := by
  rw [countedMessages, List.countP_filterMap, votes]
  congr 1
  funext e
  cases e with
  | counted m => rfl
  | proposed b => rfl
  | broadcast m => rfl
  | delivered k => rfl
  | restarted => rfl

theorem readyBroadcasts_eq_countP
    (h : Str) (hist : List NodeEvent) :
    readyBroadcasts h hist = (broadcastMessages hist).countP (isMessage .ready h) := by
  rw [broadcastMessages, List.countP_filterMap, readyBroadcasts]
  congr 1
  funext e
  cases e with
  | counted m => rfl
  | proposed b => rfl
  | broadcast m => rfl
  | delivered k => rfl
  | restarted => rfl

/-- What is between two validators or was counted has been broadcast. -/
def TrafficBound (c : Committee) (s : LinkState) : Prop :=
  ∀ type h i, ∀ j ∈ c.vals,
    countedFrom (isMessage type h) i (history j s.log) +
        (messagesFrom i (s.net.inbox j)).countP (isMessage type h) +
        (s.net.out i j).countP (isMessage type h) ≤
      sentMessages (isMessage type h) (history i s.log)

/-- A step of one node, given what it takes from its inbox and counts. -/
theorem trafficBound_act
    {c : Committee} {s : LinkState} {net : Links UInt16 Message} {k : UInt16} {nd : Node}
    {evs : List NodeEvent}
    (hout : net.out = s.net.out)
    (hoff : ∀ j, j ≠ k → net.inbox j = s.net.inbox j)
    (hat : ∀ p i, countedFrom p i evs + (messagesFrom i (net.inbox k)).countP p ≤
      (messagesFrom i (s.net.inbox k)).countP p)
    (h : TrafficBound c s) :
    TrafficBound c (LinkState.act { s with net := net } c k nd evs) := by
  intro type hash i j hj
  have hold := h type hash i j hj
  -- the sender's side: what enters the queue was broadcast
  have hsent : sentMessages (isMessage type hash)
        (history i (s.toSystemState.record k nd evs).log) +
      (s.net.out i j).countP (isMessage type hash) =
      sentMessages (isMessage type hash) (history i s.log) +
        ((net.push c.vals k (broadcastMessages evs)).out i j).countP (isMessage type hash) := by
    by_cases hik : i = k
    · subst hik
      rw [record_history_self, sentMessages_append, sentMessages_reverse]
      simp only [Links.push, Function.update_self, hj, if_true, hout, List.countP_append,
        sentMessages]
      omega
    · rw [record_history_of_ne _ hik]
      simp [Links.push, hik, hout]
  -- the receiver's side: what is counted leaves the inbox
  have hcounted : countedFrom (isMessage type hash) i
        (history j (s.toSystemState.record k nd evs).log) +
      (messagesFrom i (net.inbox j)).countP (isMessage type hash) ≤
      countedFrom (isMessage type hash) i (history j s.log) +
        (messagesFrom i (s.net.inbox j)).countP (isMessage type hash) := by
    by_cases hjk : j = k
    · subst hjk
      have hstep := hat (isMessage type hash) i
      rw [record_history_self, countedFrom_append, countedFrom_reverse]
      omega
    · rw [record_history_of_ne _ hjk, hoff j hjk]
  show countedFrom (isMessage type hash) i
      (history j (s.toSystemState.record k nd evs).log) +
      (messagesFrom i (net.inbox j)).countP (isMessage type hash) +
      ((net.push c.vals k (broadcastMessages evs)).out i j).countP (isMessage type hash) ≤
    sentMessages (isMessage type hash) (history i (s.toSystemState.record k nd evs).log)
  omega

/-- A message that moves into an inbox counts there as it did in its queue. -/
theorem trafficBound_transfer
    {c : Committee} {s : LinkState} {i j : UInt16} {m m' : Message} {rest : List Message}
    (hout : s.net.out i j = m :: rest)
    (hsigner : m'.block.validatorId = i)
    (hsame : ∀ type h, isMessage type h m' = isMessage type h m)
    (h : TrafficBound c s) :
    TrafficBound c { s with net := s.net.transfer i j rest m' } := by
  intro type hash k l hl
  have hold := h type hash k l hl
  show countedFrom (isMessage type hash) k (history l s.log) +
      (messagesFrom k ((s.net.transfer i j rest m').inbox l)).countP (isMessage type hash) +
      ((s.net.transfer i j rest m').out k l).countP (isMessage type hash) ≤
    sentMessages (isMessage type hash) (history k s.log)
  by_cases hlj : l = j
  · subst hlj
    by_cases hki : k = i
    · subst hki
      rw [hout, List.countP_cons, ← hsame] at hold
      simp only [Links.transfer, Function.update_self, messagesFrom, List.filter_append,
        List.countP_append] at hold ⊢
      simp only [hsigner, decide_true, List.filter_cons_of_pos, List.filter_nil,
        List.countP_singleton]
      omega
    · have hskip : ¬ i = k := fun hik => hki hik.symm
      simpa [Links.transfer, hki, messagesFrom, hsigner, hskip] using hold
  · by_cases hki : k = i
    · subst hki
      simpa [Links.transfer, hlj] using hold
    · simpa [Links.transfer, hlj, hki] using hold

theorem trafficBound_step
    (c : Committee)
    (s : LinkState) (a : LinkAction) (s' : LinkState)
    (h : LinkReachable c s ∧ TrafficBound c s)
    (hstep : LinkStep c s a s') :
    LinkReachable c s' ∧ TrafficBound c s' := by
  obtain ⟨hreach, hbound⟩ := h
  refine ⟨hreach.next hstep, ?_⟩
  obtain ⟨hsystem, hnet⟩ := systemReachable_of_link hreach
  have hinv := systemInv_of_reachable hsystem
  cases hstep with
  | propose b nd evs hleader halive hprop =>
      obtain ⟨_, m, _, rfl⟩ := propose_eq_ok hprop
      refine trafficBound_act rfl (fun _ _ => rfl) ?_ hbound
      intro p i
      have hzero : countedFrom p i [.proposed b, .broadcast m] = 0 := rfl
      omega
  | transfer i j m m' rest hj hout hwire =>
      have hin := hnet.out i j m (by rw [hout]; simp)
      obtain ⟨_, _, _, _, hsigner, hrule⟩ := hinv.causal.exists_of_mem hin
      have hother : m.type ≠ .other := by
        intro hother
        rw [BroadcastRule, hother] at hrule
        exact hrule
      obtain ⟨htype, hheader, hid, _⟩ := wire_eq_ok hwire
      rw [fromProto_toProto hother] at htype
      refine trafficBound_transfer hout (hid.trans hsigner) ?_ hbound
      intro type h
      rw [isMessage, isMessage, htype, hheader]
  | terminate i j m rest e hout herror =>
      intro type h k l hl
      have hold := hbound type h k l hl
      have hless : ((s.net.clear i).out k l).countP (isMessage type h) ≤
          (s.net.out k l).countP (isMessage type h) := by
        by_cases hki : k = i
        · subst hki
          simp [Links.clear]
        · simp [Links.clear, hki]
      show countedFrom _ k (history l s.log) + _ + ((s.net.clear i).out k l).countP _ ≤ _
      exact le_trans (Nat.add_le_add_left hless _) hold
  | runTask j nd evs hj halive hrunning hnew htask =>
      refine trafficBound_act rfl ?_ ?_ hbound
      · intro l hl
        simp [Links.drain, hl]
      · intro p i
        have hsub := ((runTask_nodeRun htask).2.filter
          fun m => decide (m.block.validatorId = i)).countP_le (p := p)
        simpa [Links.drain, messagesFrom, countedFrom] using hsub
  | restart j hj halive hreturned =>
      refine trafficBound_act rfl (fun _ _ => rfl) ?_ hbound
      intro p i
      have hzero : countedFrom p i [.restarted] = 0 := rfl
      omega

theorem trafficBound_of_reachable
    {c : Committee} {s : LinkState}
    (hs : LinkReachable c s) :
    TrafficBound c s := by
  have h : LinkReachable c s ∧ TrafficBound c s := by
    refine hs.invariant ?_ (trafficBound_step c)
    intro s hinit
    refine ⟨.start hinit, ?_⟩
    obtain ⟨⟨urandom, erasedRead, utxolist, walletIds, hs⟩, hnet, _⟩ := hinit
    intro type h i j _
    rw [hnet, hs]
    exact Nat.le_refl 0
  exact h.2

/-- No message of a validator is counted more often than it was broadcast. -/
theorem countedFrom_le
    {c : Committee} {s : LinkState}
    (hs : LinkReachable c s)
    (type : MsgType) (h : Str) (i : UInt16)
    {j : UInt16}
    (hj : j ∈ c.vals) :
    countedFrom (isMessage type h) i (history j s.log) ≤
      sentMessages (isMessage type h) (history i s.log) := by
  have := trafficBound_of_reachable hs type h i j hj
  omega

/-- The votes a node has counted were broadcast by live validators. -/
theorem votes_le_sum
    {c : Committee} {s : LinkState}
    (hs : LinkReachable c s)
    (type : MsgType) (h : Str)
    {j : UInt16}
    (hj : j ∈ c.vals) :
    votes type h (history j s.log) ≤
      ∑ i ∈ c.live, sentMessages (isMessage type h) (history i s.log) := by
  have hinv := systemInv_of_reachable (systemReachable_of_link hs).1
  rw [votes_eq_countP, countP_eq_sum (S := c.live)]
  · exact Finset.sum_le_sum fun i _ => countedFrom_le hs type h i hj
  · intro m hm hp
    have hpos : 0 < countedFrom (isMessage type h) m.block.validatorId (history j s.log) :=
      List.countP_pos_iff.mpr ⟨m, by simp [messagesFrom, hm], hp⟩
    have hle := countedFrom_le hs type h m.block.validatorId hj
    obtain ⟨m₀, hm₀, _⟩ := List.countP_pos_iff.mp (lt_of_lt_of_le hpos hle)
    have hin := mem_history.mp (mem_broadcastMessages.mp hm₀)
    obtain ⟨_, _, _, hcorrect, _⟩ := hinv.causal.exists_of_mem hin
    exact Committee.mem_live.mpr hcorrect

end Traffic

end CosiCoin
