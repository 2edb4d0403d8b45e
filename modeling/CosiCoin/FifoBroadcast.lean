import CosiCoin.AsyncBroadcast
import CosiCoin.FifoLinks

/-!
# COSICOIN: the validators over first-in-first-out links

The client of a validator keeps one queue for every validator, itself included,
from which a thread sends the messages in order; the server of the receiver
appends them to its own queue, and a task takes all of that queue at once.  A
message that cannot be written ends the process of its sender.  Faulty
validators are silent here.

Every run over such links is a run of the asynchronous system
(`systemReachable_of_link`), so its invariant holds here as well.
-/

namespace CosiCoin

open LabelledRuns CausalLog FifoLinks Node

/-- The broadcast messages among some events. -/
def broadcastMessages (evs : List NodeEvent) : List Message :=
  evs.filterMap fun
    | .broadcast m => some m
    | _ => none

theorem mem_broadcastMessages
    {m : Message} {evs : List NodeEvent} :
    m ∈ broadcastMessages evs ↔ .broadcast m ∈ evs := by
  constructor
  · intro h
    obtain ⟨e, he, heq⟩ := List.mem_filterMap.mp h
    cases e with
    | broadcast m' =>
        obtain rfl := Option.some.inj heq
        exact he
    | proposed b => cases heq
    | counted m' => cases heq
    | delivered k => cases heq
    | restarted => cases heq
  · intro h
    exact List.mem_filterMap.mpr ⟨.broadcast m, h, rfl⟩

/-- The validators that are not silent. -/
def Committee.live (c : Committee) : Finset UInt16 :=
  c.vals \ c.byz

-- The live nodes are enumerated, not the 65536 identifiers.
instance (c : Committee) (p : UInt16 → Prop) [DecidablePred p] : Decidable (∀ i ∈ c.live, p i) :=
  Finset.decidableDforallFinset

theorem Committee.mem_live
    {c : Committee} {i : UInt16} :
    i ∈ c.live ↔ c.Correct i := by
  simp [Committee.live, Committee.Correct]

/-- A system with its links and the processes that have ended. -/
structure LinkState extends SystemState where
  net : Links UInt16 Message
  terminated : Finset UInt16 := ∅

/-- A node moves and its messages enter its queues. -/
def LinkState.act (s : LinkState) (c : Committee) (i : UInt16) (nd : Node)
    (evs : List NodeEvent) : LinkState where
  toSystemState := s.toSystemState.record i nd evs
  net := s.net.push c.vals i (broadcastMessages evs)
  terminated := s.terminated

/-- What can happen in a run over links. -/
inductive LinkAction where
  | propose (b : Block)
  | transfer (i j : UInt16)
  | terminate (i : UInt16)
  | runTask (j : UInt16)
  | restart (j : UInt16)

section System

variable [Platform]

/-- One step over links. -/
inductive LinkStep (c : Committee) : LinkState → LinkAction → LinkState → Prop
  | propose
      (s : LinkState) (b : Block) (nd : Node) (evs : List NodeEvent)
      (hleader : c.Correct c.leader)
      (halive : c.leader ∉ s.terminated)
      (h : (s.nodes c.leader).propose b = .ok (nd, evs)) :
      LinkStep c s (.propose b) (s.act c c.leader nd evs)
  | transfer
      (s : LinkState) (i j : UInt16) (m m' : Message) (rest : List Message)
      (hj : j ∈ c.vals)
      (hout : s.net.out i j = m :: rest)
      (hwire : m.wire = .ok m') :
      LinkStep c s (.transfer i j) { s with net := s.net.transfer i j rest m' }
  | terminate
      (s : LinkState) (i j : UInt16) (m : Message) (rest : List Message) (e : String)
      (hout : s.net.out i j = m :: rest)
      (herror : m.toProtoMessage = .error e) :
      LinkStep c s (.terminate i)
        { s with net := s.net.clear i, terminated := insert i s.terminated }
  | runTask
      (s : LinkState) (j : UInt16) (nd : Node) (evs : List NodeEvent)
      (hj : c.Correct j)
      (halive : j ∉ s.terminated)
      (hrunning : (s.nodes j).shouldBroadcast = true)
      (hnew : s.net.inbox j ≠ [])
      (h : (s.nodes j).RunTask (s.net.inbox j) nd evs) :
      LinkStep c s (.runTask j) (LinkState.act { s with net := s.net.drain j } c j nd evs)
  | restart
      (s : LinkState) (j : UInt16)
      (hj : c.Correct j)
      (halive : j ∉ s.terminated)
      (hreturned : (s.nodes j).shouldBroadcast = false) :
      LinkStep c s (.restart j) (s.act c j ((s.nodes j).runProtocol true) [.restarted])

/-- New nodes and empty links. -/
def LinkInit (c : Committee) (s : LinkState) : Prop :=
  SystemInit c s.toSystemState ∧ s.net = Links.empty ∧ s.terminated = ∅

/-- The states a run over links can reach. -/
def LinkReachable (c : Committee) : LinkState → Prop :=
  Reachable (LinkInit c) (LinkStep c)

theorem LinkStep.erasedRead_eq
    {c : Committee} {s s' : LinkState} {a : LinkAction}
    (hstep : LinkStep c s a s')
    (i : UInt16) :
    (s'.nodes i).erasedRead = (s.nodes i).erasedRead := by
  cases hstep with
  | propose b nd evs hleader halive hprop =>
      obtain ⟨rfl, _⟩ := propose_eq_ok hprop
      have hsame : (s.nodes c.leader).rotateKeys.erasedRead = (s.nodes c.leader).erasedRead := rfl
      exact record_erasedRead hsame evs i
  | transfer i j m m' rest hj hout hwire =>
      rfl
  | terminate i j m rest e hout herror =>
      rfl
  | runTask j nd evs hj halive hrunning hnew htask =>
      exact record_erasedRead (runTask_nodeRun htask).1.erasedRead_eq evs i
  | restart j hj halive hreturned =>
      have hsame : ((s.nodes j).runProtocol true).erasedRead = (s.nodes j).erasedRead := rfl
      exact record_erasedRead hsame _ i

end System

section Refinement

variable [Platform]

/-- All messages on the links were broadcast. -/
structure NetSound (s : LinkState) : Prop where
  out : ∀ i j, ∀ m ∈ s.net.out i j, (i, .broadcast m) ∈ s.log
  inbox : ∀ j, ∀ m ∈ s.net.inbox j, ∃ i m₀, (i, .broadcast m₀) ∈ s.log ∧ m₀.wire = .ok m

theorem netSound_act
    {s : LinkState}
    (h : NetSound s)
    (c : Committee) (i : UInt16) (nd : Node) (evs : List NodeEvent) :
    NetSound (s.act c i nd evs) := by
  have hold : ∀ e ∈ s.log, e ∈ (s.act c i nd evs).log :=
    fun e he => List.mem_append_right _ he
  constructor
  · intro a j m hm
    by_cases ha : a = i
    · subst ha
      have hm' : m ∈ s.net.out a j ∨ m ∈ broadcastMessages evs := by
        simp only [LinkState.act, Links.push, Function.update_self] at hm
        split_ifs at hm
        · exact List.mem_append.mp hm
        · exact Or.inl hm
      rcases hm' with hm' | hm'
      · exact hold _ (h.out a j m hm')
      · apply List.mem_append_left
        exact List.mem_map.mpr ⟨_, List.mem_reverse.mpr (mem_broadcastMessages.mp hm'), rfl⟩
    · simp only [LinkState.act, Links.push, Function.update_of_ne ha] at hm
      exact hold _ (h.out a j m hm)
  · intro j m hm
    obtain ⟨a, m₀, hin, hwire⟩ := h.inbox j m hm
    exact ⟨a, m₀, hold _ hin, hwire⟩

theorem netSound_drain
    {s : LinkState}
    (h : NetSound s)
    (j : UInt16) :
    NetSound { s with net := s.net.drain j } := by
  refine ⟨h.out, ?_⟩
  intro k m hm
  by_cases hk : k = j
  · subst hk
    simp [Links.drain] at hm
  · simp only [Links.drain, Function.update_of_ne hk] at hm
    exact h.inbox k m hm

theorem netSound_transfer
    {s : LinkState} {i j : UInt16} {m m' : Message} {rest : List Message}
    (h : NetSound s)
    (hout : s.net.out i j = m :: rest)
    (hwire : m.wire = .ok m') :
    NetSound { s with net := s.net.transfer i j rest m' } := by
  have hfrom : (i, .broadcast m) ∈ s.log := h.out i j m (by rw [hout]; simp)
  constructor
  · intro a k x hx
    by_cases ha : a = i
    · subst ha
      by_cases hk : k = j
      · subst hk
        simp only [Links.transfer, Function.update_self] at hx
        exact h.out a k x (by rw [hout]; exact List.mem_cons_of_mem _ hx)
      · simp only [Links.transfer, Function.update_self, Function.update_of_ne hk] at hx
        exact h.out a k x hx
    · simp only [Links.transfer, Function.update_of_ne ha] at hx
      exact h.out a k x hx
  · intro k x hx
    by_cases hk : k = j
    · subst hk
      simp only [Links.transfer, Function.update_self, List.mem_append,
        List.mem_singleton] at hx
      rcases hx with hx | rfl
      · exact h.inbox k x hx
      · exact ⟨i, m, hfrom, hwire⟩
    · simp only [Links.transfer, Function.update_of_ne hk] at hx
      exact h.inbox k x hx

theorem netSound_clear
    {s : LinkState}
    (h : NetSound s)
    (i : UInt16) (terminated : Finset UInt16) :
    NetSound { s with net := s.net.clear i, terminated := terminated } := by
  refine ⟨?_, h.inbox⟩
  intro a j m hm
  by_cases ha : a = i
  · subst ha
    simp [Links.clear] at hm
  · simp only [Links.clear, Function.update_of_ne ha] at hm
    exact h.out a j m hm

/-- A step over links is a step of the asynchronous system, or none. -/
theorem systemStep_of_link
    {c : Committee} {s s' : LinkState} {a : LinkAction}
    (hnet : NetSound s)
    (hstep : LinkStep c s a s') :
    s'.toSystemState = s.toSystemState ∨
      ∃ a', SystemStep c s.toSystemState a' s'.toSystemState := by
  cases hstep with
  | propose b nd evs hleader halive hprop =>
      exact Or.inr ⟨_, .propose _ b nd evs hleader hprop⟩
  | transfer i j m m' rest hj hout hwire =>
      exact Or.inl rfl
  | terminate i j m rest e hout herror =>
      exact Or.inl rfl
  | runTask j nd evs hj halive hrunning hnew htask =>
      refine Or.inr ⟨_, .runTask _ j _ nd evs hj hrunning ?_ htask⟩
      intro m hm
      exact Or.inl (hnet.inbox j m hm)
  | restart j hj halive hreturned =>
      exact Or.inr ⟨_, .restart _ j hj hreturned⟩

theorem netSound_step
    {c : Committee} {s s' : LinkState} {a : LinkAction}
    (hnet : NetSound s)
    (hstep : LinkStep c s a s') :
    NetSound s' := by
  cases hstep with
  | propose b nd evs hleader halive hprop =>
      exact netSound_act hnet c _ nd evs
  | transfer i j m m' rest hj hout hwire =>
      exact netSound_transfer hnet hout hwire
  | terminate i j m rest e hout herror =>
      exact netSound_clear hnet i _
  | runTask j nd evs hj halive hrunning hnew htask =>
      exact netSound_act (netSound_drain hnet j) c j nd evs
  | restart j hj halive hreturned =>
      exact netSound_act hnet c j _ _

theorem netSound_init
    {c : Committee} {s : LinkState}
    (h : LinkInit c s) :
    NetSound s := by
  obtain ⟨_, hnet, _⟩ := h
  refine ⟨?_, ?_⟩
  · intro i j m hm
    rw [hnet] at hm
    cases hm
  · intro j m hm
    rw [hnet] at hm
    cases hm

/--
A run over links is a run of the asynchronous system, and one under a condition
on its steps if every step meets it.
-/
theorem guarded_of_link
    {c : Committee} {linkGuard : LinkState → LinkAction → Prop}
    (guard : SystemState → SystemAction → Prop)
    (hguard : ∀ s a s' a', Reachable (LinkInit c) (Guarded linkGuard (LinkStep c)) s →
      Guarded linkGuard (LinkStep c) s a s' →
      SystemStep c s.toSystemState a' s'.toSystemState → guard s.toSystemState a')
    {s : LinkState}
    (hs : Reachable (LinkInit c) (Guarded linkGuard (LinkStep c)) s) :
    Reachable (SystemInit c) (Guarded guard (SystemStep c)) s.toSystemState ∧ NetSound s := by
  induction hs with
  | start hinit =>
      exact ⟨.start hinit.1, netSound_init hinit⟩
  | @next s s' a run hstep ih =>
      obtain ⟨hreach, hnet⟩ := ih
      refine ⟨?_, netSound_step hnet hstep.2⟩
      rcases systemStep_of_link hnet hstep.2 with hsame | ⟨a', hsystem⟩
      · rw [hsame]
        exact hreach
      · exact hreach.next_guarded hsystem (hguard s a s' a' run hstep hsystem)

theorem systemReachable_of_link
    {c : Committee} {s : LinkState}
    (h : LinkReachable c s) :
    SystemReachable c s.toSystemState ∧ NetSound s := by
  have hfree : Reachable (LinkInit c) (Guarded (fun _ _ => True) (LinkStep c)) s :=
    h.mono fun _ _ _ hstep => ⟨trivial, hstep⟩
  obtain ⟨hreach, hnet⟩ := guarded_of_link (fun _ _ => True)
    (fun _ _ _ _ _ _ _ => trivial) hfree
  exact ⟨hreach.mono fun _ _ _ hstep => hstep.2, hnet⟩

end Refinement

end CosiCoin
