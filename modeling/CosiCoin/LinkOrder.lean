import CosiCoin.FifoLinks
import CosiCoin.MessageQueues
import CosiCoin.ReferencePlatform

/-!
# COSICOIN: the order of the messages on the links

Whatever the interleaving of the clients and servers, the messages of a sender
that a receiver has got, followed by the one being sent and those in the queue,
are the messages sent, in that order (`links_in_order`).  What the server reads
is the image of a message on the wire.

The steps of a network are those of the links with one queue between any two
processes and one inbox for each (`links_step`).
-/

namespace CosiCoin

open LabelledRuns FifoLinks

section Deliveries

variable {addresses : List Str} {lead : Str}

theorem messagesTo_append
    (r : Str) (calls calls' : List ClientCall) :
    messagesTo lead r (calls ++ calls') = messagesTo lead r calls ++ messagesTo lead r calls' :=
  List.filterMap_append

/-- A handled message has arrived after all others. -/
theorem arrivals_talk
    (net : Network) (clients : Str → ValidatorClient) (s r : Str) (m : Message) (s' r' : Str) :
    Network.arrivals { net with
        clients := clients
        services := Function.update net.services r ((net.services r).talk s m) } s' r' =
      net.arrivals s' r' ++ if s = s' ∧ r = r' then [m] else [] := by
  unfold Network.arrivals
  dsimp only
  by_cases hr : r' = r
  · subst hr
    rw [Function.update_self, ChatService.talk, ← List.append_assoc, List.filter_append,
      List.map_append]
    by_cases hs : s = s'
    · simp [hs]
    · simp [hs]
  · rw [Function.update_of_ne hr]
    simp [Ne.symm hr]

/-- Draining the queue of a server leaves what has arrived. -/
theorem arrivals_getMessages
    {net : Network} {r : Str} {new : Bool} {msgs : List (Str × Message)} {srv : ChatService}
    (h : (net.services r).getMessages (net.drained r) = (new, msgs, srv))
    (s' r' : Str) :
    Network.arrivals { net with
        services := Function.update net.services r srv
        drained := Function.update net.drained r msgs } s' r' = net.arrivals s' r' := by
  have hall : msgs ++ srv.mq = net.drained r ++ (net.services r).mq := by
    unfold ChatService.getMessages at h
    split_ifs at h
    · obtain ⟨_, h⟩ := Prod.mk.inj h
      obtain ⟨rfl, rfl⟩ := Prod.mk.inj h
      exact List.append_nil _
    · obtain ⟨_, h⟩ := Prod.mk.inj h
      obtain ⟨rfl, rfl⟩ := Prod.mk.inj h
      rfl
  unfold Network.arrivals
  dsimp only
  by_cases hr : r' = r
  · subst hr
    rw [Function.update_self, Function.update_self, hall]
  · rw [Function.update_of_ne hr, Function.update_of_ne hr]

variable [Platform]

/-- The message that the server reads when the other one is sent. -/
def Carried (m m' : Message) : Prop :=
  m.wire = .ok m'

/-- All clients are wired, and all links to a server are in order. -/
structure NetworkInv (addresses : List Str) (lead : Str) (net : Network) : Prop where
  wired : ∀ s, (net.clients s).Wired addresses lead
  ordered : ∀ s, ∀ r ∈ addresses,
    InOrder Carried (messagesTo lead r (net.calls s)) ((net.clients s).out r) (net.arrivals s r)

/-- A client has moved; the links of the others are as before. -/
theorem NetworkInv.update
    {net net' : Network} {s : Str} {c : ValidatorClient}
    (h : NetworkInv addresses lead net)
    (hclients : net'.clients = Function.update net.clients s c)
    (hwired : c.Wired addresses lead)
    (hself : ∀ r ∈ addresses,
      InOrder Carried (messagesTo lead r (net'.calls s)) (c.out r) (net'.arrivals s r))
    (hcalls : ∀ s', s' ≠ s → net'.calls s' = net.calls s')
    (harrivals : ∀ s' r, s' ≠ s → net'.arrivals s' r = net.arrivals s' r) :
    NetworkInv addresses lead net' := by
  constructor
  · intro s'
    by_cases hs : s' = s
    · subst hs
      rw [hclients, Function.update_self]
      exact hwired
    · rw [hclients, Function.update_of_ne hs]
      exact h.wired s'
  · intro s' r hr
    by_cases hs : s' = s
    · subst hs
      rw [hclients, Function.update_self]
      exact hself r hr
    · rw [hclients, Function.update_of_ne hs, hcalls s' hs, harrivals s' r hs]
      exact h.ordered s' r hr

/-- A call puts its message on the links it is sent over. -/
theorem NetworkInv.call
    {net : Network} {s : Str} {c : ValidatorClient} {call : ClientCall}
    (h : NetworkInv addresses lead net)
    (hwired : c.Wired addresses lead)
    (hout : ∀ r ∈ addresses, c.out r = (net.clients s).out r ++ messagesTo lead r [call]) :
    NetworkInv addresses lead { net with
      clients := Function.update net.clients s c
      calls := Function.update net.calls s (net.calls s ++ [call]) } := by
  refine h.update rfl hwired ?_ ?_ ?_
  · intro r hr
    dsimp only
    rw [Function.update_self, messagesTo_append, hout r hr]
    exact (h.ordered s r hr).send _
  · intro s' hs
    exact Function.update_of_ne hs _ _
  · intro s' r _
    rfl

theorem networkInv_step
    {net net' : Network} {a : NetworkAction}
    (hlead : lead ∈ addresses)
    (h : NetworkInv addresses lead net)
    (hstep : NetworkStep net a net') :
    NetworkInv addresses lead net' := by
  cases hstep with
  | broadcast s m c hc =>
      obtain ⟨c', hc', hwired, hout⟩ := (h.wired s).broadcast m
      obtain rfl := Option.some.inj (hc'.symm.trans hc)
      exact h.call hwired hout
  | sendToLeader s m c hc =>
      obtain ⟨c', hc', hwired, hout⟩ := (h.wired s).sendToLeader hlead m
      obtain rfl := Option.some.inj (hc'.symm.trans hc)
      exact h.call hwired hout
  | pop s i c hc =>
      obtain ⟨hwired, hout⟩ := (h.wired s).pop hc
      refine h.update rfl hwired ?_ (fun _ _ => rfl) (fun _ _ _ => rfl)
      intro r hr
      rw [hout r hr]
      exact h.ordered s r hr
  | talk s i t m m' ht hstate hwire =>
      have hout := (h.wired s).out_of_sending ht hstate
      refine h.update rfl ((h.wired s).setThread ht .returning) ?_ (fun _ _ => rfl) ?_
      · intro r hr
        have hordered := h.ordered s r hr
        rw [hout r] at hordered
        rw [arrivals_talk]
        by_cases heq : t.serverAddress = r
        · rw [if_pos heq] at hordered
          rw [if_pos ⟨rfl, heq⟩]
          exact hordered.arrive hwire
        · rw [if_neg heq] at hordered
          rw [if_neg fun hboth => heq hboth.2, List.append_nil]
          exact hordered
      · intro s' r hs
        rw [arrivals_talk, if_neg fun hboth => hs hboth.1.symm, List.append_nil]
  | returned s i t ht hstate =>
      have hout := (h.wired s).out_of_returning ht hstate
      refine h.update rfl ((h.wired s).setThread ht .waiting) ?_ (fun _ _ => rfl) (fun _ _ _ => rfl)
      intro r hr
      rw [hout r]
      exact h.ordered s r hr
  | getMessages r new msgs srv hget =>
      refine ⟨h.wired, ?_⟩
      intro s' r' hr'
      rw [arrivals_getMessages hget]
      exact h.ordered s' r' hr'

theorem networkInv_of_reachable
    {net : Network}
    (hcount : addresses.length ≤ 255)
    (hnodup : addresses.Nodup)
    (hlead : lead ∈ addresses)
    (h : NetworkReachable addresses lead net) :
    NetworkInv addresses lead net := by
  refine Reachable.invariant ?_ ?_ h
  · rintro net rfl
    have hwired : (ValidatorClient.new addresses lead).Wired addresses lead :=
      ValidatorClient.wired_new hcount hnodup
    refine ⟨fun _ => hwired, ?_⟩
    intro s r hr
    dsimp only
    rw [ValidatorClient.idle_new.out_eq_nil r]
    exact InOrder.nil
  · intro net a net' hinv hstep
    exact networkInv_step hlead hinv hstep

/--
Over every interleaving, the messages of a sender that a server has handed out or
holds, the one being sent and those in the queue are the messages sent to that
server, in order, and the calls of the sender have an outcome.
-/
theorem links_in_order
    (servers : List Str) (leader : Str)
    (hcount : servers.length ≤ 255)
    (hnodup : servers.Nodup)
    (hleader : leader ∈ servers)
    (net : Network)
    (hnet : NetworkReachable servers leader net)
    (s r : Str)
    (hr : r ∈ servers) :
    (∃ arrived,
      messagesTo leader r (net.calls s) =
        arrived ++ ((net.clients s).beingSent r ++ (net.clients s).queued r) ∧
      List.Forall₂ Carried arrived (net.arrivals s r)) ∧
    ((net.clients s).beingSent r).length ≤ 1 ∧
    ∀ m, (∃ c, (net.clients s).broadcast m = some c) ∧
      ∃ c, (net.clients s).sendToLeader m = some c := by
  have hinv := networkInv_of_reachable hcount hnodup hleader hnet
  have hwired := hinv.wired s
  refine ⟨hinv.ordered s r hr, hwired.length_beingSent hr, ?_⟩
  intro m
  obtain ⟨c, hc, _⟩ := hwired.broadcast m
  obtain ⟨c', hc', _⟩ := hwired.sendToLeader hleader m
  exact ⟨⟨c, hc⟩, c', hc'⟩

end Deliveries

section Refinement

variable {addresses : List Str} {lead : Str}

/-- The links of a network: the messages on their way, and the queues of the servers. -/
def Network.links (net : Network) : Links Str Message where
  out := fun s r => (net.clients s).out r
  inbox := fun r => (net.services r).mq.map Prod.snd

/-- A call puts its message on the links to some of the servers. -/
theorem links_call
    {net : Network} {s : Str} {c : ValidatorClient} {V : Finset Str} {m : Message}
    {calls : Str → List ClientCall}
    (hold : (net.clients s).Wired addresses lead)
    (hwired : c.Wired addresses lead)
    (hV : ∀ r ∈ V, r ∈ addresses)
    (hout : ∀ r ∈ addresses, c.out r = (net.clients s).out r ++ if r ∈ V then [m] else []) :
    Network.links { net with clients := Function.update net.clients s c, calls := calls } =
      net.links.push V s [m] := by
  unfold Network.links Links.push
  congr 1
  funext s' r
  dsimp only
  by_cases hs : s' = s
  · subst hs
    rw [Function.update_self, Function.update_self]
    by_cases hr : r ∈ addresses
    · rw [hout r hr]
      split_ifs
      · rfl
      · exact List.append_nil _
    · rw [hwired.out_of_notMem hr, hold.out_of_notMem hr, if_neg fun hmem => hr (hV r hmem)]
  · rw [Function.update_of_ne hs, Function.update_of_ne hs]

/-- A client that moves without sending leaves the links alone. -/
theorem links_quiet
    {net : Network} {s : Str} {c : ValidatorClient}
    (hout : ∀ r, c.out r = (net.clients s).out r) :
    Network.links { net with clients := Function.update net.clients s c } = net.links := by
  unfold Network.links
  congr 1
  funext s' r
  dsimp only
  by_cases hs : s' = s
  · subst hs
    rw [Function.update_self, hout r]
  · rw [Function.update_of_ne hs]

theorem links_talk
    {net : Network} {s : Str} {i : Nat} {t : SendThread} {m : Message} (m' : Message)
    (hold : (net.clients s).Wired addresses lead)
    (ht : (net.clients s).threadPool[i]? = some t)
    (hstate : t.state = .sending m) :
    net.links.out s t.serverAddress =
        m :: ((net.clients s).setThread i t .returning).out t.serverAddress ∧
      Network.links { net with
          clients := Function.update net.clients s ((net.clients s).setThread i t .returning)
          services := Function.update net.services t.serverAddress
            ((net.services t.serverAddress).talk s m') } =
        net.links.transfer s t.serverAddress
          (((net.clients s).setThread i t .returning).out t.serverAddress) m' := by
  have hout := hold.out_of_sending ht hstate
  constructor
  · have hself := hout t.serverAddress
    rw [if_pos rfl] at hself
    exact hself
  · unfold Network.links Links.transfer
    congr 1
    · funext s' r
      dsimp only
      by_cases hs : s' = s
      · subst hs
        rw [Function.update_self, Function.update_self]
        by_cases hr : r = t.serverAddress
        · subst hr
          rw [Function.update_self]
        · rw [Function.update_of_ne hr, hout r, if_neg (Ne.symm hr), List.nil_append]
      · rw [Function.update_of_ne hs, Function.update_of_ne hs]
    · funext r
      dsimp only
      by_cases hr : r = t.serverAddress
      · subst hr
        rw [Function.update_self, Function.update_self, ChatService.talk, List.map_append]
        rfl
      · rw [Function.update_of_ne hr, Function.update_of_ne hr]

theorem links_getMessages
    {net : Network} {r : Str} {new : Bool} {msgs : List (Str × Message)} {srv : ChatService}
    (h : (net.services r).getMessages (net.drained r) = (new, msgs, srv)) :
    Network.links { net with
        services := Function.update net.services r srv
        drained := Function.update net.drained r msgs } = net.links.drain r := by
  have hempty : srv.mq = [] := by
    unfold ChatService.getMessages ChatService.newConsensusMessages at h
    split_ifs at h with hnew
    · obtain ⟨_, h⟩ := Prod.mk.inj h
      obtain ⟨_, rfl⟩ := Prod.mk.inj h
      rfl
    · obtain ⟨_, h⟩ := Prod.mk.inj h
      obtain ⟨_, rfl⟩ := Prod.mk.inj h
      simpa using hnew
  unfold Network.links Links.drain
  congr 1
  funext r'
  dsimp only
  by_cases hr : r' = r
  · subst hr
    rw [Function.update_self, Function.update_self, hempty]
    rfl
  · rw [Function.update_of_ne hr, Function.update_of_ne hr]

variable [Platform]

/-- Every step of a network is one of the moves of its links, or none. -/
theorem links_step
    {net net' : Network} {a : NetworkAction}
    (hlead : lead ∈ addresses)
    (h : NetworkInv addresses lead net)
    (hstep : NetworkStep net a net') :
    (∃ s m, a = .call s (.broadcast m) ∧ net'.links = net.links.push addresses.toFinset s [m]) ∨
    (∃ s m, a = .call s (.sendToLeader m) ∧ net'.links = net.links.push {lead} s [m]) ∨
    (∃ s i r m m' rest, a = .talk s i ∧ r ∈ addresses ∧ net.links.out s r = m :: rest ∧
      Carried m m' ∧ net'.links = net.links.transfer s r rest m') ∨
    (∃ r, a = .getMessages r ∧ net'.links = net.links.drain r) ∨
    net'.links = net.links := by
  cases hstep with
  | broadcast s m c hc =>
      obtain ⟨c', hc', hwired, hout⟩ := (h.wired s).broadcast m
      obtain rfl := Option.some.inj (hc'.symm.trans hc)
      refine Or.inl ⟨s, m, rfl, links_call (h.wired s) hwired (fun _ => List.mem_toFinset.mp) ?_⟩
      intro r hr
      rw [hout r hr, if_pos (List.mem_toFinset.mpr hr)]
      rfl
  | sendToLeader s m c hc =>
      obtain ⟨c', hc', hwired, hout⟩ := (h.wired s).sendToLeader hlead m
      obtain rfl := Option.some.inj (hc'.symm.trans hc)
      have hV : ∀ r ∈ ({lead} : Finset Str), r ∈ addresses := by
        intro r hr
        rw [Finset.mem_singleton.mp hr]
        exact hlead
      refine Or.inr (Or.inl ⟨s, m, rfl, links_call (h.wired s) hwired hV ?_⟩)
      intro r hr
      rw [hout r hr]
      by_cases heq : r = lead
      · simp [messagesTo, heq]
      · simp [messagesTo, heq]
  | pop s i c hc =>
      obtain ⟨hwired, hout⟩ := (h.wired s).pop hc
      refine Or.inr (Or.inr (Or.inr (Or.inr (links_quiet ?_))))
      intro r
      by_cases hr : r ∈ addresses
      · exact hout r hr
      · rw [hwired.out_of_notMem hr, (h.wired s).out_of_notMem hr]
  | talk s i t m m' ht hstate hwire =>
      obtain ⟨hout, hlinks⟩ := links_talk m' (h.wired s) ht hstate
      have hmem : t.serverAddress ∈ addresses :=
        List.mem_of_getElem? ((h.wired s).thread ht).1
      exact Or.inr (Or.inr (Or.inl ⟨s, i, _, m, m', _, rfl, hmem, hout, hwire, hlinks⟩))
  | returned s i t ht hstate =>
      refine Or.inr (Or.inr (Or.inr (Or.inr (links_quiet ?_))))
      exact (h.wired s).out_of_returning ht hstate
  | getMessages r new msgs srv hget =>
      exact Or.inr (Or.inr (Or.inr (Or.inl ⟨r, rfl, links_getMessages hget⟩)))

end Refinement

/-- A proposal that a server can read, of any round. -/
theorem exists_carried
    [P : Platform] [LawfulPlatform P]
    (round : UInt32) :
    ∃ m m', Carried m m' ∧ m.round = round := by
  obtain ⟨text, htext⟩ := sigKeyToString_keyGen (P := P) fun _ => (equalBytes 1, equalBytes 1)
  let b : Block := { isMutable := false, validatorNextPublicKey := (uniformKey 1).publicKey }
  obtain ⟨m', hwire⟩ := exists_wire (m := ⟨.send, b, 0, round⟩) rfl ⟨[], rfl⟩ htext
  exact ⟨_, m', hwire, rfl⟩

/-- Two messages broadcast by one of two validators are drained by the other in their order. -/
theorem messages_cross_link :
    letI := referencePlatform
    ∃ net m₁ m₁' m₂ m₂', m₁ ≠ m₂ ∧ NetworkReachable [[97], [98]] [97] net ∧
      net.calls [97] = [.broadcast m₁, .broadcast m₂] ∧
      net.drained [98] = [([97], m₁'), ([97], m₂')] ∧
      ∃ arrived,
        messagesTo [97] [98] (net.calls [97]) =
          arrived ++ ((net.clients [97]).beingSent [98] ++ (net.clients [97]).queued [98]) ∧
        List.Forall₂ Carried arrived (net.arrivals [97] [98]) := by
  let _ := referencePlatform
  obtain ⟨m₁, m₁', hwire₁, hround₁⟩ := exists_carried 0
  obtain ⟨m₂, m₂', hwire₂, hround₂⟩ := exists_carried 1
  have hne : m₁ ≠ m₂ := by
    rintro rfl
    rw [hround₁] at hround₂
    exact absurd hround₂ (by decide)
  have h₀ : NetworkReachable [[97], [98]] [97]
      { clients := fun _ => ValidatorClient.new [[97], [98]] [97] } := .start rfl
  have h₁ := Reachable.next h₀ (.broadcast _ [97] m₁ _ rfl)
  have h₂ := Reachable.next h₁ (.broadcast _ [97] m₂ _ rfl)
  have h₃ := Reachable.next h₂ (.pop _ [97] 1 _ rfl)
  have h₄ := Reachable.next h₃ (.talk _ [97] 1 ⟨[98], 1, .sending m₁⟩ m₁ m₁' rfl rfl hwire₁)
  have h₅ := Reachable.next h₄ (.returned _ [97] 1 ⟨[98], 1, .returning⟩ rfl rfl)
  have h₆ := Reachable.next h₅ (.pop _ [97] 1 _ rfl)
  have h₇ := Reachable.next h₆ (.talk _ [97] 1 ⟨[98], 1, .sending m₂⟩ m₂ m₂' rfl rfl hwire₂)
  have h₈ := Reachable.next h₇ (.getMessages _ [98] _ _ _ rfl)
  have horder := links_in_order [[97], [98]] [97] (by decide) (by decide) (by decide) _ h₈
    [97] [98] (by decide)
  exact ⟨_, m₁, m₁', m₂, m₂', hne, h₈, rfl, rfl, horder.1⟩

end CosiCoin
