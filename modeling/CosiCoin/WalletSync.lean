import CosiCoin.ValidatorLedger
import CosiCoin.WalletTransactions

/-!
# COSICOIN: a wallet synchronises with the leader

`Wallet::Sync` empties the wallet's own list of unspent outputs and asks the
leader for its copy.  The module follows the call through
lib/cryptowallet/wallet.cc, lib/comms/client.cc and lib/comms/server.cc:

* the wallet id travels as an `int32`, although both ends use `uint32_t`;
* the server encodes the list it holds for the id, or an empty one;
* the output index, an `int`, travels as a `uint32`;
* the decoder appends to the list it is called on.

The stub generated from protos/chat.proto is a parameter: it maps a request to
the reply that comes back, or to `none` when the call fails.  The client does not
look at the status, so that a failed call leaves the default reply in place.
The loops count with an `int`; a list too long for it makes a message beyond the
two gigabytes protocol buffers allow, for which the call fails.
-/

namespace CosiCoin

/-- `chat::UTXO`. -/
structure ProtoUTXO where
  transactionId : UInt32 := 0
  outputIndex : UInt32 := 0
  outputValue : UInt64 := 0
  receiverId : UInt32 := 0
deriving DecidableEq

/-- `chat::UTXOlist`. -/
structure ProtoUTXOlist where
  utxo : List ProtoUTXO := []
deriving DecidableEq

/-- `chat::SyncReq`. -/
structure SyncReq where
  walletId : Int32 := 0
deriving DecidableEq

/-- `chat::SyncReply`. -/
structure SyncReply where
  utxolist : ProtoUTXOlist := {}
deriving DecidableEq

section Conversions

/-- `UTXO::toProtoUTXO`; `set_output_index` takes a `uint32_t`. -/
def UTXO.toProtoUTXO (u : UTXO) : ProtoUTXO where
  transactionId := u.transactionId
  outputIndex := u.outputIndex.toUInt32
  outputValue := u.output.value
  receiverId := u.output.receiverID

/-- The constructor of `UTXO` from a `chat::UTXO`; `outputIndex_` is an `int`. -/
def UTXO.ofProtoUTXO (p : ProtoUTXO) : UTXO where
  transactionId := p.transactionId
  outputIndex := p.outputIndex.toInt32
  output := ⟨p.outputValue, p.receiverId⟩

/-- `UTXOlist::toProtoUTXOlist`: every element is added to the message. -/
def UTXOlist.toProtoUTXOlist : UTXOlist → ProtoUTXOlist → ProtoUTXOlist
  | [], proto => proto
  | u :: rest, proto => toProtoUTXOlist rest ⟨proto.utxo ++ [u.toProtoUTXO]⟩

/-- The loop of `UTXOlist::fromProtoUTXOlist` over the elements of the message. -/
def UTXOlist.pushProtoUTXOs (l : UTXOlist) : List ProtoUTXO → UTXOlist
  | [] => l
  | p :: rest => pushProtoUTXOs (l ++ [UTXO.ofProtoUTXO p]) rest

/-- `UTXOlist::fromProtoUTXOlist`; the list is not cleared first. -/
def UTXOlist.fromProtoUTXOlist (l : UTXOlist) (proto : ProtoUTXOlist) : UTXOlist :=
  l.pushProtoUTXOs proto.utxo

/-- A negative output index survives the way through `uint32`. -/
theorem UTXO.ofProtoUTXO_toProtoUTXO
    (u : UTXO) :
    UTXO.ofProtoUTXO u.toProtoUTXO = u := by
  simp [UTXO.ofProtoUTXO, UTXO.toProtoUTXO]

/-- The encoder adds the encoded elements in order. -/
theorem UTXOlist.utxo_toProtoUTXOlist
    (l : UTXOlist) (proto : ProtoUTXOlist) :
    (UTXOlist.toProtoUTXOlist l proto).utxo = proto.utxo ++ l.map UTXO.toProtoUTXO := by
  induction l generalizing proto with
  | nil =>
      simp [UTXOlist.toProtoUTXOlist]
  | cons u rest ih =>
      simp [UTXOlist.toProtoUTXOlist, ih]

/-- The decoder adds the decoded elements in order. -/
theorem UTXOlist.pushProtoUTXOs_eq
    (l : UTXOlist) (ps : List ProtoUTXO) :
    l.pushProtoUTXOs ps = l ++ ps.map UTXO.ofProtoUTXO := by
  induction ps generalizing l with
  | nil =>
      simp [UTXOlist.pushProtoUTXOs]
  | cons p rest ih =>
      simp [UTXOlist.pushProtoUTXOs, ih]

/-- Decoding an encoded list adds that list to what is there. -/
theorem UTXOlist.fromProtoUTXOlist_toProtoUTXOlist
    (l l' : UTXOlist) :
    UTXOlist.fromProtoUTXOlist l' (UTXOlist.toProtoUTXOlist l {}) = l' ++ l := by
  have hround : UTXO.ofProtoUTXO ∘ UTXO.toProtoUTXO = id :=
    funext UTXO.ofProtoUTXO_toProtoUTXO
  rw [UTXOlist.fromProtoUTXOlist, UTXOlist.pushProtoUTXOs_eq, UTXOlist.utxo_toProtoUTXOlist]
  simp [hround]

end Conversions

section Server

/-- The serving state of a call. -/
inductive CallStatus where
  | create
  | startProcess
  | finish
deriving DecidableEq

/-- A `CallDataSync`, with the reply its responder has sent. -/
structure CallDataSync where
  status : CallStatus := .create
  request : SyncReq := {}
  reply : SyncReply := {}
  responded : Option SyncReply := none

namespace CallDataSync

/-- The processing of a request: the list under the wallet id, or an empty one. -/
def process (utxolists : UtxoMap) (request : SyncReq) : SyncReply :=
  let walletId : UInt32 := request.walletId.toUInt32
  let utxolist : UTXOlist :=
    if (utxolists.lookup walletId).isSome then UtxoMap.get utxolists walletId else []
  ⟨UTXOlist.toProtoUTXOlist utxolist {}⟩

/--
`CallDataSync::Proceed` on the lists of the server; the object is gone after
`delete this`.  The call creates the object of the next request, which has no
part in this one.
-/
def proceed (cd : CallDataSync) (utxolists : UtxoMap) : Option CallDataSync :=
  match cd.status with
  | .create => some { cd with status := .startProcess }
  | .startProcess =>
      let reply := process utxolists cd.request
      some { cd with reply := reply, responded := some reply, status := .finish }
  | .finish => none

/--
What the server answers to a request: the constructor runs `Proceed` once, the
completion queue puts the request in and runs it a second time.
-/
def answer (utxolists : UtxoMap) (request : SyncReq) : Option SyncReply := do
  let waiting ← proceed {} utxolists
  let done ← proceed { waiting with request := request } utxolists
  done.responded

/-- The server answers with the list it holds, or with the empty one. -/
theorem answer_eq
    (utxolists : UtxoMap) (request : SyncReq) :
    answer utxolists request =
      some ⟨UTXOlist.toProtoUTXOlist (UtxoMap.get utxolists request.walletId.toUInt32) {}⟩ := by
  have hget (id : UInt32) :
      (if (utxolists.lookup id).isSome then UtxoMap.get utxolists id else []) =
        UtxoMap.get utxolists id := by
    cases hl : utxolists.lookup id with
    | none =>
        simp [UtxoMap.get, hl]
    | some l =>
        simp
  simp [answer, proceed, process, hget]

end CallDataSync

end Server

section Client

/-- `ChatClient::Sync`; `set_wallet_id` takes an `int32`, the status is not read. -/
def ChatClient.sync
    (stub : SyncReq → Option SyncReply) (walletId : UInt32) (utxolist : UTXOlist) : UTXOlist :=
  let request : SyncReq := ⟨walletId.toInt32⟩
  let reply : SyncReply := (stub request).getD {}
  UTXOlist.fromProtoUTXOlist utxolist reply.utxolist

/-- `WalletClientImpl::SendSyncRequest`. -/
def WalletClientImpl.sendSyncRequest
    (stub : SyncReq → Option SyncReply) (walletId : UInt32) (utxolist : UTXOlist) :
    Int × UTXOlist :=
  (1, ChatClient.sync stub walletId utxolist)

/-- A wallet with its own list of unspent outputs. -/
structure LocalWallet extends Wallet where
  localUtxo : UTXOlist := []

namespace LocalWallet

/-- `Wallet::Sync`: the returned number and the wallet. -/
def sync (w : LocalWallet) (stub : SyncReq → Option SyncReply) : Int × LocalWallet :=
  let cleared : UTXOlist := []
  let result := WalletClientImpl.sendSyncRequest stub w.id cleared
  (result.1, { w with localUtxo := result.2 })

/--
After a call that succeeds the wallet has the list the server holds for its id,
the empty one if there is none, whatever it had before; and decoding an encoded
list gives that list back.
-/
theorem sync_takes_list_of_server
    (utxolists : UtxoMap) (w : LocalWallet) (stub : SyncReq → Option SyncReply)
    (h : stub ⟨w.id.toInt32⟩ = CallDataSync.answer utxolists ⟨w.id.toInt32⟩) :
    (w.sync stub).2.localUtxo = (utxolists.lookup w.id).getD [] ∧
      ∀ l : UTXOlist,
        UTXOlist.fromProtoUTXOlist [] (UTXOlist.toProtoUTXOlist l {}) = l := by
  have hdecode (l : UTXOlist) :
      UTXOlist.fromProtoUTXOlist [] (UTXOlist.toProtoUTXOlist l {}) = l := by
    simpa using UTXOlist.fromProtoUTXOlist_toProtoUTXOlist l []
  refine ⟨?_, hdecode⟩
  -- The id is back to the original one after the conversion to `int32` and back.
  rw [CallDataSync.answer_eq, UInt32.toUInt32_toInt32] at h
  simp only [sync, WalletClientImpl.sendSyncRequest, ChatClient.sync, h, Option.getD_some, hdecode]
  rfl

/-- A wallet whose id is negative as an `int32`, with a coin it does not have any more. -/
def staleWallet : LocalWallet where
  id := 4000000000
  urandom := fun _ => default
  localUtxo := [⟨3, 0, ⟨5, 4000000000⟩⟩]

/-- The lists of a server that holds two coins for that wallet, one with a negative index. -/
def twoCoinLists : UtxoMap :=
  AList.singleton 4000000000 [⟨7, 1, ⟨10, 4000000000⟩⟩, ⟨8, -1, ⟨20, 4000000000⟩⟩]

theorem sync_takes_two_coins :
    (staleWallet.sync (CallDataSync.answer twoCoinLists)).2.localUtxo =
      [⟨7, 1, ⟨10, 4000000000⟩⟩, ⟨8, -1, ⟨20, 4000000000⟩⟩] := by
  have hsync :=
    sync_takes_list_of_server twoCoinLists staleWallet (CallDataSync.answer twoCoinLists) rfl
  rw [hsync.1]
  decide

end LocalWallet

end Client

end CosiCoin
