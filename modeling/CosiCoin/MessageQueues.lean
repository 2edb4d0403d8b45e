import CosiCoin.LabelledRuns
import CosiCoin.WireFormat
import Mathlib.Data.List.AList

/-!
# COSICOIN: the queues of the clients and servers

The class `ValidatorClientImpl` of lib/comms/client.cc and the message queue of
`ChatServiceImpl` of lib/comms/server.cc.  A client has one queue and one thread
for every server; `Broadcast` appends a message to all queues, `SendToLeader` to
that of the leader, and each thread takes the oldest message of its queue and
sends it with a blocking call.  The server appends what it has read to its queue,
and `getMessages` empties that queue.

Every critical section is one step: a call of the owner, a `pop` of a thread, the
handling of a `Talk` call on the server, its return, and a call of `getMessages`.
That the mutexes make them so is assumed (`RunThread_` releases `mq_mtx_` once by
hand and once with its `unique_lock`).  The number of servers is kept in a
`uint8_t`, and `message_queues_[address]` of an address without a queue is a null
pointer, for which a call has no outcome.

A client is `Wired` if every server has a queue and a thread of its own.  At most
255 servers with different addresses are wired by the constructor, the calls of a
wired client have an outcome, and what is on the way to a server changes by the
messages sent to it and the one that is handled.
-/

namespace CosiCoin

open LabelledRuns

/-- Where a sending thread stands in its loop. -/
inductive ThreadState where
  | waiting
  | sending (m : Message)
  | returning

/-- The message a thread is sending. -/
def ThreadState.messages : ThreadState → List Message
  | .sending m => [m]
  | _ => []

/-- A thread with the arguments of `RunThread_`; a queue is named by its number. -/
structure SendThread where
  serverAddress : Str
  mq : Nat
  state : ThreadState := .waiting

/-- The messages some threads are sending to an address. -/
def sendingTo (threads : List SendThread) (address : Str) : List Message :=
  (threads.filter fun t => t.serverAddress = address).flatMap fun t => t.state.messages

/-- `ValidatorClientImpl`, with the queues its pointers lead to. -/
structure ValidatorClient where
  servers : List Str
  leader : Str
  messageQueues : AList (fun _ : Str => Nat) := ∅
  queues : Nat → List Message := fun _ => []
  threadPool : List SendThread := []

namespace ValidatorClient

/-- One round of the loop of `startThreads_`: a new queue and a thread for it. -/
def startThread (c : ValidatorClient) (entry : Str × Nat) : ValidatorClient :=
  { c with
    messageQueues := c.messageQueues.insert entry.1 entry.2
    queues := Function.update c.queues entry.2 []
    threadPool := c.threadPool ++ [{ serverAddress := entry.1, mq := entry.2 }] }

/-- `ValidatorClientImpl::startThreads_`. -/
def startThreads (c : ValidatorClient) : ValidatorClient :=
  let numServers : UInt8 := UInt8.ofNat c.servers.length
  (c.servers.take numServers.toNat).zipIdx.foldl startThread c

/-- The constructor, for the addresses of the settings. -/
def new (servers : List Str) (leader : Str) : ValidatorClient :=
  startThreads { servers := servers, leader := leader }

/-- `message_queues_[address]->push(message)`. -/
def push (c : ValidatorClient) (address : Str) (m : Message) : Option ValidatorClient :=
  match c.messageQueues.lookup address with
  | some q => some { c with queues := Function.update c.queues q (c.queues q ++ [m]) }
  | none => none

/-- `ValidatorClientImpl::Broadcast`. -/
def broadcast (c : ValidatorClient) (m : Message) : Option ValidatorClient :=
  c.servers.foldlM (fun c address => c.push address m) c

/-- `ValidatorClientImpl::SendToLeader`. -/
def sendToLeader (c : ValidatorClient) (m : Message) : Option ValidatorClient :=
  c.push c.leader m

/-- The thread moves on. -/
def setThread (c : ValidatorClient) (i : Nat) (t : SendThread) (state : ThreadState) :
    ValidatorClient :=
  { c with threadPool := c.threadPool.set i { t with state := state } }

/-- A waiting thread of `RunThread_` takes the oldest message of its queue. -/
def pop (c : ValidatorClient) (i : Nat) : Option ValidatorClient :=
  match c.threadPool[i]? with
  | none => none
  | some t =>
      match t.state, c.queues t.mq with
      | .waiting, m :: rest =>
          some (setThread { c with queues := Function.update c.queues t.mq rest } i t (.sending m))
      | _, _ => none

/-- The messages in the queue of an address. -/
def queued (c : ValidatorClient) (address : Str) : List Message :=
  match c.messageQueues.lookup address with
  | some q => c.queues q
  | none => []

/-- The messages being sent to an address. -/
def beingSent (c : ValidatorClient) (address : Str) : List Message :=
  sendingTo c.threadPool address

/-- The messages on their way to an address, oldest first. -/
def out (c : ValidatorClient) (address : Str) : List Message :=
  c.beingSent address ++ c.queued address

end ValidatorClient

/-- The message queue of `ChatServiceImpl`; every message stands with its sender. -/
structure ChatService where
  mq : List (Str × Message) := []

namespace ChatService

/-- `ChatServiceImpl::newConsensusMessages`. -/
def newConsensusMessages (srv : ChatService) : Bool :=
  !srv.mq.isEmpty

/-- `ChatServiceImpl::getMessages`. -/
def getMessages (srv : ChatService) (msgList : List (Str × Message)) :
    Bool × List (Str × Message) × ChatService :=
  if srv.newConsensusMessages then
    (true, msgList ++ srv.mq, { srv with mq := [] })
  else
    (false, msgList, srv)

/-- `CallDataTalk::Proceed` on a request. -/
def talk (srv : ChatService) (sender : Str) (m : Message) : ChatService :=
  { srv with mq := srv.mq ++ [(sender, m)] }

end ChatService

/-- A call of the owner of a client. -/
inductive ClientCall where
  | broadcast (m : Message)
  | sendToLeader (m : Message)

/-- The messages some calls send to a server, oldest first. -/
def messagesTo (leader address : Str) (calls : List ClientCall) : List Message :=
  calls.filterMap fun
    | .broadcast m => some m
    | .sendToLeader m => if address = leader then some m else none

/-- The clients and servers by their addresses, with what was called and what was drained. -/
structure Network where
  clients : Str → ValidatorClient
  services : Str → ChatService := fun _ => {}
  calls : Str → List ClientCall := fun _ => []
  drained : Str → List (Str × Message) := fun _ => []

/-- The messages of a sender that have arrived at a server, oldest first. -/
def Network.arrivals (net : Network) (s r : Str) : List Message :=
  ((net.drained r ++ (net.services r).mq).filter fun e => e.1 = s).map Prod.snd

/-- What can happen between the clients and the servers. -/
inductive NetworkAction where
  | call (s : Str) (c : ClientCall)
  | pop (s : Str) (i : Nat)
  | talk (s : Str) (i : Nat)
  | returned (s : Str) (i : Nat)
  | getMessages (r : Str)

section Network

variable [Platform]

/-- One step.  A call of `Talk` succeeds, and returns after the server has handled it. -/
inductive NetworkStep : Network → NetworkAction → Network → Prop
  | broadcast
      (net : Network) (s : Str) (m : Message) (c : ValidatorClient)
      (h : (net.clients s).broadcast m = some c) :
      NetworkStep net (.call s (.broadcast m)) { net with
        clients := Function.update net.clients s c
        calls := Function.update net.calls s (net.calls s ++ [.broadcast m]) }
  | sendToLeader
      (net : Network) (s : Str) (m : Message) (c : ValidatorClient)
      (h : (net.clients s).sendToLeader m = some c) :
      NetworkStep net (.call s (.sendToLeader m)) { net with
        clients := Function.update net.clients s c
        calls := Function.update net.calls s (net.calls s ++ [.sendToLeader m]) }
  | pop
      (net : Network) (s : Str) (i : Nat) (c : ValidatorClient)
      (h : (net.clients s).pop i = some c) :
      NetworkStep net (.pop s i) { net with clients := Function.update net.clients s c }
  | talk
      (net : Network) (s : Str) (i : Nat) (t : SendThread) (m m' : Message)
      (ht : (net.clients s).threadPool[i]? = some t)
      (hstate : t.state = .sending m)
      (hwire : m.wire = .ok m') :
      NetworkStep net (.talk s i) { net with
        clients := Function.update net.clients s ((net.clients s).setThread i t .returning)
        services := Function.update net.services t.serverAddress
          ((net.services t.serverAddress).talk s m') }
  | returned
      (net : Network) (s : Str) (i : Nat) (t : SendThread)
      (ht : (net.clients s).threadPool[i]? = some t)
      (hstate : t.state = .returning) :
      NetworkStep net (.returned s i) { net with
        clients := Function.update net.clients s ((net.clients s).setThread i t .waiting) }
  | getMessages
      (net : Network) (r : Str) (new : Bool) (msgs : List (Str × Message)) (srv : ChatService)
      (h : (net.services r).getMessages (net.drained r) = (new, msgs, srv)) :
      NetworkStep net (.getMessages r) { net with
        services := Function.update net.services r srv
        drained := Function.update net.drained r msgs }

/-- New clients with the same settings, and empty queues. -/
def NetworkInit (servers : List Str) (leader : Str) (net : Network) : Prop :=
  net = { clients := fun _ => ValidatorClient.new servers leader }

/-- The states a network can reach. -/
def NetworkReachable (servers : List Str) (leader : Str) : Network → Prop :=
  Reachable (NetworkInit servers leader) NetworkStep

end Network

section Wiring

theorem sendingTo_cons
    (t : SendThread) (threads : List SendThread) (address : Str) :
    sendingTo (t :: threads) address =
      (if t.serverAddress = address then t.state.messages else []) ++ sendingTo threads address := by
  by_cases h : t.serverAddress = address
  · simp [sendingTo, h]
  · simp [sendingTo, h]

theorem sendingTo_of_notMem
    {threads : List SendThread} {address : Str}
    (h : address ∉ threads.map SendThread.serverAddress) :
    sendingTo threads address = [] := by
  have hnone : threads.filter (fun t => t.serverAddress = address) = [] := by
    rw [List.filter_eq_nil_iff]
    intro t ht hsame
    exact h (List.mem_map.mpr ⟨t, ht, of_decide_eq_true hsame⟩)
  rw [sendingTo, hnone, List.flatMap_nil]

/-- With one thread for each address, that thread decides what is being sent there. -/
theorem sendingTo_set
    {threads : List SendThread} :
    ∀ {i : Nat} {t : SendThread}, (threads.map SendThread.serverAddress).Nodup →
      threads[i]? = some t → ∀ (state : ThreadState) (address : Str),
        sendingTo (threads.set i { t with state := state }) address =
          if t.serverAddress = address then state.messages else sendingTo threads address := by
  induction threads with
  | nil =>
      intro i t _ ht
      cases ht
  | cons t₀ threads ih =>
      intro i t hnodup ht state address
      rw [List.map_cons, List.nodup_cons] at hnodup
      cases i with
      | zero =>
          obtain rfl := Option.some.inj ht
          rw [List.set_cons_zero, sendingTo_cons, sendingTo_cons]
          split_ifs with haddress
          · rw [sendingTo_of_notMem (haddress ▸ hnodup.1), List.append_nil]
          · rfl
      | succ i =>
          have ht' : threads[i]? = some t := ht
          rw [List.set_cons_succ, sendingTo_cons, sendingTo_cons, ih hnodup.2 ht']
          split_ifs with hfirst haddress
          · -- two threads would have the same address
            have hmem : t.serverAddress ∈ threads.map SendThread.serverAddress :=
              List.mem_map.mpr ⟨t, List.mem_of_getElem? ht', rfl⟩
            rw [haddress, ← hfirst] at hmem
            exact absurd hmem hnodup.1
          · rfl
          · rfl
          · rfl

namespace ValidatorClient

/-- Every server has a queue and a thread of its own, under its position in the list. -/
structure Wired (addresses : List Str) (lead : Str) (c : ValidatorClient) : Prop where
  nodup : addresses.Nodup
  servers : c.servers = addresses
  leader : c.leader = lead
  queue : ∀ i r, addresses[i]? = some r → c.messageQueues.lookup r = some i
  others : ∀ r ∉ addresses, c.messageQueues.lookup r = none
  threads : c.threadPool.map (fun t => (t.serverAddress, t.mq)) = addresses.zipIdx

variable {addresses : List Str} {lead : Str}

/-- What the loop of `startThreads_` leaves behind. -/
theorem foldl_startThread
    {entries : List (Str × Nat)} :
    ∀ {c : ValidatorClient}, (entries.map Prod.fst).Nodup →
      (entries.foldl startThread c).servers = c.servers ∧
      (entries.foldl startThread c).leader = c.leader ∧
      (entries.foldl startThread c).threadPool =
        c.threadPool ++ entries.map (fun e => { serverAddress := e.1, mq := e.2 }) ∧
      (∀ e ∈ entries, (entries.foldl startThread c).messageQueues.lookup e.1 = some e.2) ∧
      ∀ r ∉ entries.map Prod.fst,
        (entries.foldl startThread c).messageQueues.lookup r = c.messageQueues.lookup r := by
  induction entries with
  | nil =>
      intro c _
      simp
  | cons e entries ih =>
      intro c hnodup
      rw [List.map_cons, List.nodup_cons] at hnodup
      obtain ⟨hservers, hleader, hthreads, hqueues, hothers⟩ := ih (c := c.startThread e) hnodup.2
      rw [List.foldl_cons]
      refine ⟨hservers, hleader, ?_, ?_, ?_⟩
      · rw [hthreads]
        simp [startThread]
      · intro e' he'
        rcases List.mem_cons.mp he' with rfl | he'
        · rw [hothers _ hnodup.1]
          exact AList.lookup_insert _
        · exact hqueues e' he'
      · intro r hr
        rw [List.map_cons, List.mem_cons, not_or] at hr
        rw [hothers r hr.2]
        exact AList.lookup_insert_ne hr.1

/-- At most 255 servers with different addresses get their queues and threads. -/
theorem wired_new
    (hcount : addresses.length ≤ 255)
    (hnodup : addresses.Nodup) :
    (new addresses lead).Wired addresses lead := by
  have hall : addresses.take (UInt8.ofNat addresses.length).toNat = addresses := by
    rw [UInt8.toNat_ofNat_of_lt' (by simpa using Nat.lt_succ_of_le hcount), List.take_length]
  have haddresses : addresses.zipIdx.map Prod.fst = addresses := List.zipIdx_map_fst 0 addresses
  obtain ⟨hservers, hleader, hthreads, hqueues, hothers⟩ :=
    foldl_startThread (c := { servers := addresses, leader := lead }) (haddresses.symm ▸ hnodup)
  unfold new startThreads
  dsimp only
  rw [hall]
  refine ⟨hnodup, hservers, hleader, ?_, ?_, ?_⟩
  · intro i r hr
    exact hqueues (r, i) (List.mem_zipIdx_iff_getElem?.mpr hr)
  · intro r hr
    rw [hothers r (haddresses.symm ▸ hr)]
    exact AList.lookup_empty r
  · rw [hthreads, List.nil_append, List.map_map]
    exact List.map_id _

/-- No message is on its way. -/
structure Idle (c : ValidatorClient) : Prop where
  queues : ∀ q, c.queues q = []
  threads : ∀ t ∈ c.threadPool, t.state = .waiting

theorem Idle.out_eq_nil
    {c : ValidatorClient}
    (h : c.Idle)
    (r : Str) :
    c.out r = [] := by
  have hqueued : c.queued r = [] := by
    unfold queued
    split
    · exact h.queues _
    · rfl
  have hsent : c.beingSent r = [] := by
    rw [beingSent, sendingTo, List.flatMap_eq_nil_iff]
    intro t ht
    rw [h.threads t (List.mem_filter.mp ht).1]
    rfl
  rw [out, hqueued, hsent, List.append_nil]

theorem idle_foldl
    {entries : List (Str × Nat)} :
    ∀ {c : ValidatorClient}, c.Idle → (entries.foldl startThread c).Idle := by
  induction entries with
  | nil =>
      intro c h
      exact h
  | cons e entries ih =>
      intro c h
      refine ih ⟨?_, ?_⟩
      · intro q
        by_cases hq : q = e.2
        · subst hq
          exact Function.update_self _ _ _
        · exact (Function.update_of_ne hq _ _).trans (h.queues q)
      · intro t ht
        rcases List.mem_append.mp ht with ht | ht
        · exact h.threads t ht
        · rw [List.mem_singleton.mp ht]

theorem idle_new :
    (new addresses lead).Idle :=
  idle_foldl ⟨fun _ => rfl, fun _ ht => absurd ht List.not_mem_nil⟩

/-- The thread at a position serves the server at that position. -/
theorem Wired.thread
    {c : ValidatorClient} {i : Nat} {t : SendThread}
    (h : c.Wired addresses lead)
    (ht : c.threadPool[i]? = some t) :
    addresses[i]? = some t.serverAddress ∧ t.mq = i := by
  have hentry := congrArg (fun l => l[i]?) h.threads
  simp only [List.getElem?_map, ht, Option.map_some, List.getElem?_zipIdx] at hentry
  obtain ⟨r, hr, heq⟩ := Option.map_eq_some_iff.mp hentry.symm
  obtain ⟨haddress, hmq⟩ := Prod.mk.inj heq
  subst haddress
  exact ⟨hr, by omega⟩

theorem Wired.queued_eq
    {c : ValidatorClient} {i : Nat} {r : Str}
    (h : c.Wired addresses lead)
    (hr : addresses[i]? = some r) :
    c.queued r = c.queues i := by
  rw [queued, h.queue i r hr]

/-- Two servers do not share a queue. -/
theorem Wired.queued_update
    {c : ValidatorClient} {i : Nat} {r : Str}
    (h : c.Wired addresses lead)
    (hr : addresses[i]? = some r)
    (ms : List Message) {r' : Str}
    (hr' : r' ∈ addresses) :
    queued { c with queues := Function.update c.queues i ms } r' =
      if r = r' then ms else c.queued r' := by
  obtain ⟨j, hj⟩ := List.mem_iff_getElem?.mp hr'
  have hlookup := h.queue j r' hj
  rw [queued, queued, hlookup]
  dsimp only
  by_cases hij : j = i
  · subst hij
    obtain rfl := Option.some.inj (hj.symm.trans hr)
    rw [Function.update_self, if_pos rfl]
  · have hne : r ≠ r' := by
      rintro rfl
      have hsame := h.queue i r hr
      rw [hlookup] at hsame
      exact hij (Option.some.inj hsame)
    rw [Function.update_of_ne hij, if_neg hne]

theorem Wired.threadAddresses
    {c : ValidatorClient}
    (h : c.Wired addresses lead) :
    c.threadPool.map SendThread.serverAddress = addresses := by
  have haddresses := congrArg (List.map Prod.fst) h.threads
  rw [List.map_map, List.zipIdx_map_fst] at haddresses
  exact haddresses

/-- Nothing is on its way to an address that is no server. -/
theorem Wired.out_of_notMem
    {c : ValidatorClient} {r : Str}
    (h : c.Wired addresses lead)
    (hr : r ∉ addresses) :
    c.out r = [] := by
  have hsent : c.beingSent r = [] := by
    apply sendingTo_of_notMem
    rw [h.threadAddresses]
    exact hr
  rw [out, hsent, queued, h.others r hr]
  rfl

theorem Wired.setThread
    {c : ValidatorClient} {i : Nat} {t : SendThread}
    (h : c.Wired addresses lead)
    (ht : c.threadPool[i]? = some t)
    (state : ThreadState) :
    (c.setThread i t state).Wired addresses lead := by
  refine { h with threads := ?_ }
  rw [← h.threads, ValidatorClient.setThread, List.map_set]
  apply List.ext_getElem?
  intro j
  rw [List.getElem?_set]
  split_ifs with hj hlt
  · subst hj
    rw [List.getElem?_map, ht]
    rfl
  · subst hj
    rw [List.getElem?_eq_none (by omega)]
  · rfl

/-- What is being sent after a thread has moved on. -/
theorem Wired.beingSent_setThread
    {c : ValidatorClient} {i : Nat} {t : SendThread}
    (h : c.Wired addresses lead)
    (ht : c.threadPool[i]? = some t)
    (state : ThreadState) (r : Str) :
    (c.setThread i t state).beingSent r =
      if t.serverAddress = r then state.messages else c.beingSent r :=
  sendingTo_set (h.threadAddresses.symm ▸ h.nodup) ht state r

theorem Wired.beingSent_eq
    {c : ValidatorClient} {i : Nat} {t : SendThread}
    (h : c.Wired addresses lead)
    (ht : c.threadPool[i]? = some t) :
    c.beingSent t.serverAddress = t.state.messages := by
  have hset := h.beingSent_setThread ht t.state t.serverAddress
  rw [if_pos rfl] at hset
  obtain ⟨hlt, heq⟩ := List.getElem?_eq_some_iff.mp ht
  have hself : c.threadPool.set i t = c.threadPool := by
    rw [← heq, List.set_getElem_self]
  rw [← hset]
  show c.beingSent t.serverAddress = sendingTo (c.threadPool.set i t) t.serverAddress
  rw [hself, beingSent]

/-- At most one message is being sent to a server. -/
theorem Wired.length_beingSent
    {c : ValidatorClient} {r : Str}
    (h : c.Wired addresses lead)
    (hr : r ∈ addresses) :
    (c.beingSent r).length ≤ 1 := by
  obtain ⟨i, hi⟩ := List.mem_iff_getElem?.mp hr
  have hentry := congrArg (fun l => l[i]?) h.threads
  simp only [List.getElem?_map, List.getElem?_zipIdx, hi, Option.map_some] at hentry
  obtain ⟨t, ht, heq⟩ := Option.map_eq_some_iff.mp hentry
  obtain rfl : t.serverAddress = r := (Prod.mk.inj heq).1
  rw [h.beingSent_eq ht]
  cases t.state with
  | waiting => exact Nat.zero_le 1
  | sending m => exact Nat.le_refl 1
  | returning => exact Nat.zero_le 1

end ValidatorClient

end Wiring

section Calls

namespace ValidatorClient

variable {addresses : List Str} {lead : Str}

/-- A message enters the queue of one server. -/
theorem Wired.push
    {c : ValidatorClient} {r : Str}
    (h : c.Wired addresses lead)
    (hr : r ∈ addresses)
    (m : Message) :
    ∃ c', c.push r m = some c' ∧ c'.Wired addresses lead ∧ c'.threadPool = c.threadPool ∧
      ∀ r' ∈ addresses, c'.queued r' = c.queued r' ++ if r' = r then [m] else [] := by
  obtain ⟨i, hi⟩ := List.mem_iff_getElem?.mp hr
  refine ⟨{ c with queues := Function.update c.queues i (c.queues i ++ [m]) }, ?_, ?_, rfl, ?_⟩
  · rw [ValidatorClient.push, h.queue i r hi]
  · exact { h with }
  · intro r' hr'
    rw [h.queued_update hi _ hr']
    by_cases heq : r = r'
    · subst heq
      rw [if_pos rfl, if_pos rfl, h.queued_eq hi]
    · rw [if_neg heq, if_neg (Ne.symm heq), List.append_nil]

/-- A message enters the queues of some servers. -/
theorem Wired.foldlM_push
    {rs : List Str}
    (m : Message) :
    ∀ {c : ValidatorClient}, c.Wired addresses lead → rs.Nodup → (∀ r ∈ rs, r ∈ addresses) →
      ∃ c', rs.foldlM (fun c r => c.push r m) c = some c' ∧ c'.Wired addresses lead ∧
        c'.threadPool = c.threadPool ∧
        ∀ r' ∈ addresses, c'.queued r' = c.queued r' ++ if r' ∈ rs then [m] else [] := by
  induction rs with
  | nil =>
      intro c h _ _
      exact ⟨c, rfl, h, rfl, by simp⟩
  | cons r rs ih =>
      intro c h hnodup hmem
      rw [List.nodup_cons] at hnodup
      obtain ⟨c₁, hpush, h₁, hthreads₁, hqueued₁⟩ := h.push (hmem r List.mem_cons_self) m
      obtain ⟨c', hrest, h', hthreads', hqueued'⟩ :=
        ih h₁ hnodup.2 fun r' hr' => hmem r' (List.mem_cons_of_mem _ hr')
      refine ⟨c', ?_, h', hthreads'.trans hthreads₁, ?_⟩
      · rw [List.foldlM_cons, hpush]
        exact hrest
      · intro r' hr'
        rw [hqueued' r' hr', hqueued₁ r' hr', List.append_assoc]
        by_cases heq : r' = r
        · subst heq
          simp [hnodup.1]
        · simp [heq]

/-- `Broadcast` has an outcome, and sends the message to every server. -/
theorem Wired.broadcast
    {c : ValidatorClient}
    (h : c.Wired addresses lead)
    (m : Message) :
    ∃ c', c.broadcast m = some c' ∧ c'.Wired addresses lead ∧
      ∀ r ∈ addresses, c'.out r = c.out r ++ messagesTo lead r [.broadcast m] := by
  obtain ⟨c', hfold, h', hthreads, hqueued⟩ := Wired.foldlM_push m h h.nodup fun r hr => hr
  refine ⟨c', ?_, h', ?_⟩
  · rw [ValidatorClient.broadcast, h.servers]
    exact hfold
  · intro r hr
    rw [out, out, beingSent, beingSent, hthreads, hqueued r hr, if_pos hr, List.append_assoc]
    rfl

/-- `SendToLeader` has an outcome, and sends the message to the leader. -/
theorem Wired.sendToLeader
    {c : ValidatorClient}
    (h : c.Wired addresses lead)
    (hlead : lead ∈ addresses)
    (m : Message) :
    ∃ c', c.sendToLeader m = some c' ∧ c'.Wired addresses lead ∧
      ∀ r ∈ addresses, c'.out r = c.out r ++ messagesTo lead r [.sendToLeader m] := by
  obtain ⟨c', hpush, h', hthreads, hqueued⟩ := h.push hlead m
  refine ⟨c', ?_, h', ?_⟩
  · rw [ValidatorClient.sendToLeader, h.leader]
    exact hpush
  · intro r hr
    rw [out, out, beingSent, beingSent, hthreads, hqueued r hr, List.append_assoc]
    by_cases heq : r = lead
    · simp [messagesTo, heq]
    · simp [messagesTo, heq]

/-- Taking a message from the queue leaves it on its way. -/
theorem Wired.pop
    {c c' : ValidatorClient} {i : Nat}
    (h : c.Wired addresses lead)
    (hpop : c.pop i = some c') :
    c'.Wired addresses lead ∧ ∀ r ∈ addresses, c'.out r = c.out r := by
  unfold ValidatorClient.pop at hpop
  split at hpop
  · cases hpop
  · rename_i t ht
    split at hpop
    · rename_i m rest hstate hqueue
      obtain rfl := Option.some.inj hpop
      obtain ⟨haddress, hmq⟩ := h.thread ht
      rw [hmq] at hqueue ⊢
      have h₁ : Wired addresses lead { c with queues := Function.update c.queues i rest } :=
        { h with }
      refine ⟨h₁.setThread ht _, ?_⟩
      intro r hr
      have hsent := h₁.beingSent_setThread ht (.sending m) r
      have hqueued := h.queued_update haddress rest hr
      rw [out, out, hsent]
      by_cases heq : t.serverAddress = r
      · subst heq
        rw [if_pos rfl, h.beingSent_eq ht, hstate, h.queued_eq haddress, hqueue]
        rw [if_pos rfl] at hqueued
        exact congrArg (fun l => [m] ++ l) hqueued
      · rw [if_neg heq] at hqueued ⊢
        exact congrArg (fun l => c.beingSent r ++ l) hqueued
    · cases hpop

/-- Once handled, the message is no longer on its way. -/
theorem Wired.out_of_sending
    {c : ValidatorClient} {i : Nat} {t : SendThread} {m : Message}
    (h : c.Wired addresses lead)
    (ht : c.threadPool[i]? = some t)
    (hstate : t.state = .sending m)
    (r : Str) :
    c.out r = (if t.serverAddress = r then [m] else []) ++
      (c.setThread i t .returning).out r := by
  have hqueued : (c.setThread i t .returning).queued r = c.queued r := rfl
  rw [out, out, hqueued, h.beingSent_setThread ht]
  by_cases heq : t.serverAddress = r
  · subst heq
    rw [if_pos rfl, if_pos rfl, h.beingSent_eq ht, hstate]
    rfl
  · rw [if_neg heq, if_neg heq, List.nil_append]

/-- A call that returns changes nothing. -/
theorem Wired.out_of_returning
    {c : ValidatorClient} {i : Nat} {t : SendThread}
    (h : c.Wired addresses lead)
    (ht : c.threadPool[i]? = some t)
    (hstate : t.state = .returning)
    (r : Str) :
    (c.setThread i t .waiting).out r = c.out r := by
  have hqueued : (c.setThread i t .waiting).queued r = c.queued r := rfl
  rw [out, out, hqueued, h.beingSent_setThread ht]
  by_cases heq : t.serverAddress = r
  · subst heq
    rw [if_pos rfl, h.beingSent_eq ht, hstate]
    rfl
  · rw [if_neg heq]

end ValidatorClient

end Calls

end CosiCoin
