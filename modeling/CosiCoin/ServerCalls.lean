import CosiCoin.CompletionQueues
import CosiCoin.ReferencePlatform
import CosiCoin.WalletSync

/-!
# COSICOIN: the requests of validators and wallets at a server

`ChatServiceImpl` of lib/comms/server.cc serves the methods Talk, NewTx and Sync
with objects of the classes `CallDataTalk`, `CallDataNewTx` and `CallDataSync`,
whose addresses come back through one completion queue.  `HandleRpcs` creates one
object of each class and then lets the object at each queued address proceed.  The
owner of the server takes the decoded messages and transactions out of the queues
in between, and replaces the lists of unspent outputs.

`requests_are_served` holds in every state a server can reach before it is shut
down, for every order in which calls come in, answers go out, addresses are taken
from the queue and the owner's calls fall between.  An exception of a decoder is
caught nowhere: it ends the loop, and with it the process.  The library is assumed
to report success for every event.
-/

namespace CosiCoin

open CompletionQueues LabelledRuns

/-- The methods of the service `Chat`. -/
inductive ChatMethod where
  | talk
  | newTx
  | sync
deriving DecidableEq

/-- The requests of the three methods. -/
inductive ChatRequest where
  | talk (message : ProtoMessage)
  | newTx (transaction : ProtoTransaction)
  | sync (request : SyncReq)

def ChatRequest.method : ChatRequest → ChatMethod
  | .talk _ => .talk
  | .newTx _ => .newTx
  | .sync _ => .sync

/-- The answers: `chat::Ack` or `chat::SyncReply`. -/
inductive ChatReply where
  | ack
  | sync (reply : SyncReply)

/-- The queues and lists of `ChatServiceImpl`, with what its owner has taken out. -/
structure ChatServiceImpl where
  mq : List Message := []
  txq : List Transaction := []
  utxolists : UtxoMap := ∅
  takenMessages : List Message := []
  takenTransactions : List Transaction := []

section Source

/-- The loop that empties a queue into a vector. -/
def popAll {α : Type} : List α → List α → List α
  | [], list => list
  | x :: queue, list => popAll queue (list ++ [x])

namespace ChatServiceImpl

/-- `ChatServiceImpl::getMessages`. -/
def getMessages (s : ChatServiceImpl) (msgList : List Message) :
    Bool × List Message × ChatServiceImpl :=
  if s.mq.isEmpty then
    (false, msgList, s)
  else
    (true, popAll s.mq msgList,
      { s with mq := [], takenMessages := popAll s.mq s.takenMessages })

/-- `ChatServiceImpl::getTransactions`. -/
def getTransactions (s : ChatServiceImpl) (txList : List Transaction) :
    Bool × List Transaction × ChatServiceImpl :=
  if s.txq.isEmpty then
    (false, txList, s)
  else
    (true, popAll s.txq txList,
      { s with txq := [], takenTransactions := popAll s.txq s.takenTransactions })

/-- `ChatServiceImpl::setUTXOlists`. -/
def setUTXOlists (s : ChatServiceImpl) (utxolists : UtxoMap) : ChatServiceImpl :=
  { s with utxolists := utxolists }

/-- `ChatServiceImpl::clearUTXOlists`. -/
def clearUTXOlists (s : ChatServiceImpl) : ChatServiceImpl :=
  { s with utxolists := ∅ }

/-- The calls of the owner of the server. -/
inductive Owner : ChatServiceImpl → ChatServiceImpl → Prop
  | getMessages
      {s s' : ChatServiceImpl} {msgList msgList' : List Message} {new : Bool}
      (h : s.getMessages msgList = (new, msgList', s')) :
      Owner s s'
  | getTransactions
      {s s' : ChatServiceImpl} {txList txList' : List Transaction} {new : Bool}
      (h : s.getTransactions txList = (new, txList', s')) :
      Owner s s'
  | setUTXOlists
      (s : ChatServiceImpl) (utxolists : UtxoMap) :
      Owner s (s.setUTXOlists utxolists)
  | clearUTXOlists
      (s : ChatServiceImpl) :
      Owner s s.clearUTXOlists

end ChatServiceImpl

variable [Platform]

/-- What `CallDataTalk::Proceed` does with its request. -/
def CallDataTalk.process (message : ProtoMessage) (s : ChatServiceImpl) :
    Except String (ChatServiceImpl × ChatReply) := do
  let message ← Message.fromProtoMessage message
  return ({ s with mq := s.mq ++ [message] }, .ack)

/-- What `CallDataNewTx::Proceed` does with its request. -/
def CallDataNewTx.process (transaction : ProtoTransaction) (s : ChatServiceImpl) :
    Except String (ChatServiceImpl × ChatReply) := do
  let transaction ← Transaction.fromProtoTransaction transaction
  return ({ s with txq := s.txq ++ [transaction] }, .ack)

/-- The class of an object decides what `Proceed` does. -/
def ChatRequest.process : ChatRequest → ChatServiceImpl →
    Except String (ChatServiceImpl × ChatReply)
  | .talk message => CallDataTalk.process message
  | .newTx transaction => CallDataNewTx.process transaction
  | .sync request => fun s => .ok (s, .sync (CallDataSync.process s.utxolists request))

/-- A running server. -/
abbrev ChatServer := Engine ChatMethod ChatRequest ChatServiceImpl ChatReply

/-- `HandleRpcs` up to its loop; the allocator chooses three different addresses. -/
def handleRpcs (place : ChatMethod → Nat) : ChatServer :=
  Engine.start place [.talk, .newTx, .sync] {}

/-- The states a server can reach. -/
def ServerReachable : ChatServer → Prop :=
  Reachable (fun e => ∃ place, Function.Injective place ∧ e = handleRpcs place)
    (Step ChatRequest.method ChatRequest.process ChatServiceImpl.Owner)

end Source

section Contents

theorem popAll_eq
    {α : Type} (queue : List α) :
    ∀ list : List α, popAll queue list = list ++ queue := by
  induction queue with
  | nil =>
      intro list
      rw [popAll, List.append_nil]
  | cons x queue ih =>
      intro list
      rw [popAll, ih, List.append_assoc, List.singleton_append]

/-- The messages of the Talk requests. -/
def talks (requests : List ChatRequest) : List ProtoMessage :=
  requests.filterMap fun
    | .talk message => some message
    | _ => none

/-- The transactions of the NewTx requests. -/
def newTxs (requests : List ChatRequest) : List ProtoTransaction :=
  requests.filterMap fun
    | .newTx transaction => some transaction
    | _ => none

theorem talks_ofMethod
    (requests : List ChatRequest) :
    talks (ofMethod ChatRequest.method .talk requests) = talks requests := by
  rw [talks, ofMethod, List.filterMap_filter, talks]
  apply List.filterMap_congr
  intro r _
  cases r <;> rfl

theorem newTxs_ofMethod
    (requests : List ChatRequest) :
    newTxs (ofMethod ChatRequest.method .newTx requests) = newTxs requests := by
  rw [newTxs, ofMethod, List.filterMap_filter, newTxs]
  apply List.filterMap_congr
  intro r _
  cases r <;> rfl

theorem talks_append
    (xs ys : List ChatRequest) :
    talks (xs ++ ys) = talks xs ++ talks ys :=
  List.filterMap_append

theorem newTxs_append
    (xs ys : List ChatRequest) :
    newTxs (xs ++ ys) = newTxs xs ++ newTxs ys :=
  List.filterMap_append

theorem length_talks_le
    (requests : List ChatRequest) :
    (talks requests).length ≤ requests.length :=
  List.length_filterMap_le _ _

theorem length_newTxs_le
    (requests : List ChatRequest) :
    (newTxs requests).length ≤ requests.length :=
  List.length_filterMap_le _ _

variable [Platform]

/-- The queues and what was taken out of them are the decoded requests. -/
structure Decoded (s : ChatServiceImpl) (requests : List ChatRequest) : Prop where
  messages : (s.takenMessages ++ s.mq).map Except.ok =
    (talks requests).map Message.fromProtoMessage
  transactions : (s.takenTransactions ++ s.txq).map Except.ok =
    (newTxs requests).map Transaction.fromProtoTransaction

theorem Decoded.process
    {s : ChatServiceImpl} {requests : List ChatRequest} {r : ChatRequest}
    {result : ChatServiceImpl × ChatReply}
    (h : Decoded s requests)
    (hprocess : r.process s = .ok result) :
    Decoded result.1 (requests ++ [r]) := by
  cases r with
  | talk p =>
      obtain ⟨m, hm, hok⟩ := bind_eq_ok hprocess
      obtain rfl := Except.ok.inj hok
      constructor
      · rw [← List.append_assoc, List.map_append, h.messages, talks_append, List.map_append]
        simp [hm, talks]
      · rw [newTxs_append]
        simpa [newTxs] using h.transactions
  | newTx p =>
      obtain ⟨t, ht, hok⟩ := bind_eq_ok hprocess
      obtain rfl := Except.ok.inj hok
      constructor
      · rw [talks_append]
        simpa [talks] using h.messages
      · rw [← List.append_assoc, List.map_append, h.transactions, newTxs_append, List.map_append]
        simp [ht, newTxs]
  | sync request =>
      obtain rfl := Except.ok.inj hprocess
      constructor
      · rw [talks_append]
        simpa [talks] using h.messages
      · rw [newTxs_append]
        simpa [newTxs] using h.transactions

theorem Decoded.owner
    {s s' : ChatServiceImpl} {requests : List ChatRequest}
    (h : Decoded s requests)
    (howner : ChatServiceImpl.Owner s s') :
    Decoded s' requests := by
  cases howner with
  | getMessages hget =>
      rw [ChatServiceImpl.getMessages] at hget
      split at hget
      · obtain ⟨_, _, rfl⟩ := hget
        exact h
      · obtain ⟨_, _, rfl⟩ := hget
        refine ⟨?_, h.transactions⟩
        rw [popAll_eq, List.append_nil]
        exact h.messages
  | getTransactions hget =>
      rw [ChatServiceImpl.getTransactions] at hget
      split at hget
      · obtain ⟨_, _, rfl⟩ := hget
        exact h
      · obtain ⟨_, _, rfl⟩ := hget
        refine ⟨h.messages, ?_⟩
        rw [popAll_eq, List.append_nil]
        exact h.transactions
  | setUTXOlists utxolists =>
      exact ⟨h.messages, h.transactions⟩
  | clearUTXOlists =>
      exact ⟨h.messages, h.transactions⟩

end Contents

section ServerRuns

variable [Platform]

omit [Platform] in
theorem serves_handleRpcs
    {place : ChatMethod → Nat}
    (hplace : Function.Injective place) :
    Serves ChatRequest.method place (handleRpcs place) := by
  apply serves_start hplace
  · simp
  · intro m
    cases m <;> simp

theorem ServerReachable.serves
    {e : ChatServer}
    (h : ServerReachable e) :
    ∃ slot, Serves ChatRequest.method slot e := by
  refine serves_of_reachable ?_ h
  rintro _ ⟨place, hplace, rfl⟩
  exact ⟨place, serves_handleRpcs hplace⟩

theorem ServerReachable.decoded
    {e : ChatServer}
    (h : ServerReachable e) :
    Decoded e.state e.processed := by
  refine state_of_reachable (fun s rs _ => Decoded s rs) ?_ ?_ ?_ ?_ h
  · rintro _ ⟨place, hplace, rfl⟩
    exact ⟨place, serves_handleRpcs hplace⟩
  · rintro _ ⟨place, hplace, rfl⟩
    exact ⟨rfl, rfl⟩
  · intro s rs _ r result hdec hprocess
    exact hdec.process hprocess
  · intro s s' rs _ hdec howner
    exact hdec.owner howner

omit [Platform] in
/-- The requests of a method wait one at a time. -/
theorem waits_one
    {slot : ChatMethod → Nat} {e : ChatServer}
    (h : Serves ChatRequest.method slot e)
    (m : ChatMethod) :
    (e.pending (slot m)).length ≤ 1 := by
  obtain ⟨cd, hcd, _, _⟩ := h.slots m
  simp only [Engine.pending, hcd]
  cases cd.request with
  | none => exact Nat.zero_le 1
  | some r => exact Nat.le_refl 1

/-- In every state a server can reach, the library reporting success for every
event: each method has exactly one object that waits for a call or holds the next
request; the loop goes on from every address in the queue unless a decoder rejects
the request of that object; the messages and transactions taken out and still queued
are those of the requests that came in, in their order, up to one request of each
method that still waits; and every processed request has been answered once. -/
theorem requests_are_served
    {e : ChatServer}
    (h : ServerReachable e) :
    (∀ m : ChatMethod, ∃! a, ∃ cd, e.calls a = some cd ∧ cd.method = m ∧
      cd.status = .startProcess) ∧
    (∀ a ∈ e.cq, ∀ b : Nat,
      (∃ e', e.next ChatRequest.process a b = .ok e') ∨
        ∃ cd r thrown, e.calls a = some cd ∧ cd.request = some r ∧
          r.process e.state = .error thrown ∧
          e.next ChatRequest.process a b = .error (.thrown thrown)) ∧
    (∃ waiting : List ProtoMessage, waiting.length ≤ 1 ∧
      (e.state.takenMessages ++ e.state.mq).map Except.ok ++
          waiting.map Message.fromProtoMessage =
        (talks e.arrived).map Message.fromProtoMessage) ∧
    (∃ waiting : List ProtoTransaction, waiting.length ≤ 1 ∧
      (e.state.takenTransactions ++ e.state.txq).map Except.ok ++
          waiting.map Transaction.fromProtoTransaction =
        (newTxs e.arrived).map Transaction.fromProtoTransaction) ∧
    e.answers.map Prod.fst = e.processed := by
  obtain ⟨slot, hserves⟩ := h.serves
  have hdec := h.decoded
  refine ⟨hserves.existsUnique_waiting, ?_, ?_, ?_, hserves.answered⟩
  · intro a ha b
    rcases hserves.next_cases ha ChatRequest.process with hok | herr
    · exact .inl hok
    · obtain ⟨cd, r, thrown, hcd, _, hrequest, hprocess, hnext⟩ := herr
      exact .inr ⟨cd, r, thrown, hcd, hrequest, hprocess, hnext⟩
  · refine ⟨talks (e.pending (slot .talk)), ?_, ?_⟩
    · exact (length_talks_le _).trans (waits_one hserves .talk)
    · have horder := congrArg talks (hserves.inOrder .talk)
      rw [talks_append, talks_ofMethod, talks_ofMethod] at horder
      rw [hdec.messages, horder, List.map_append]
  · refine ⟨newTxs (e.pending (slot .newTx)), ?_, ?_⟩
    · exact (length_newTxs_le _).trans (waits_one hserves .newTx)
    · have horder := congrArg newTxs (hserves.inOrder .newTx)
      rw [newTxs_append, newTxs_ofMethod, newTxs_ofMethod] at horder
      rw [hdec.transactions, horder, List.map_append]

/-- The addresses of the first three objects. -/
def firstPlace : ChatMethod → Nat
  | .talk => 0
  | .newTx => 1
  | .sync => 2

omit [Platform] in
theorem firstPlace_injective : Function.Injective firstPlace := by
  intro m m' h
  cases m <;> cases m' <;> first | rfl | cases h

/-- The lists of a server for wallet 1, which holds one coin. -/
def oneCoinLists : UtxoMap :=
  AList.singleton 1 [⟨0, 0, ⟨10, 1⟩⟩]

/-- The transaction of a wallet that sends the coin back to itself, without a signature. -/
def bareTransfer (txID : UInt32) : ProtoTransaction where
  txID := txID
  input := [⟨0, 0⟩]
  output := [⟨10, 1⟩]
  senderID := 1
  sendersig := []
  publickey := []

omit [Platform] in
/-- Two transactions and a synchronisation reach a server, whose owner then takes the
transactions out. -/
theorem two_transactions_and_sync_are_served :
    letI := referencePlatform
    ∃ e : ChatServer, ServerReachable e ∧
      e.processed.map ChatRequest.method = [.newTx, .sync, .newTx] ∧
      e.state.takenTransactions.map Transaction.txID = [100, 101] ∧
      (∀ m : ChatMethod, ∃! a, ∃ cd, e.calls a = some cd ∧ cd.method = m ∧
        cd.status = .startProcess) ∧
      e.answers.map Prod.fst = e.processed := by
  let _ := referencePlatform
  have h₀ : ServerReachable (handleRpcs firstPlace) :=
    .start ⟨firstPlace, firstPlace_injective, rfl⟩
  have hset : Step ChatRequest.method ChatRequest.process ChatServiceImpl.Owner
      (handleRpcs firstPlace) .own _ :=
    .own (.setUTXOlists _ oneCoinLists)
  have h₁ : ServerReachable _ := h₀.next hset
  have h₂ : ServerReachable _ :=
    h₁.next (show Step _ _ _ _ (.arrive 1 (.newTx (bareTransfer 100))) _ from
      .arrive (by decide) rfl rfl)
  have h₃ : ServerReachable _ :=
    h₂.next (show Step _ _ _ _ (.arrive 2 (.sync ⟨1⟩)) _ from .arrive (by decide) rfl rfl)
  have h₄ : ServerReachable _ :=
    h₃.next (show Step _ _ _ _ (.next 1 3) _ from .next (by decide) rfl rfl)
  have h₅ : ServerReachable _ :=
    h₄.next (show Step _ _ _ _ (.next 2 4) _ from .next (by decide) rfl rfl)
  have h₆ : ServerReachable _ :=
    h₅.next (show Step _ _ _ _ (.arrive 3 (.newTx (bareTransfer 101))) _ from
      .arrive (by decide) rfl rfl)
  have h₇ : ServerReachable _ :=
    h₆.next (show Step _ _ _ _ (.next 3 5) _ from .next (by decide) rfl rfl)
  have h₈ : ServerReachable _ :=
    h₇.next (show Step _ _ _ _ .own _ from
      .own (.getTransactions (show ChatServiceImpl.getTransactions _ [] = _ from rfl)))
  have hserved := requests_are_served h₈
  exact ⟨_, h₈, rfl, rfl, hserved.1, hserved.2.2.2.2⟩

end ServerRuns

end CosiCoin
