import CosiCoin.BrachaNode

/-!
# COSICOIN: the steps of a node

Everything a node does during a task is one of a few steps, each with the
events it records: a change that no other node and no counter can notice, a
counted message, an `ECHO` for the `SEND` of this round, a `READY` for a hash
with enough votes, and a delivery.  `RunTask` decomposes into such steps
(`runTask_nodeRun`), so an invariant is checked on them one by one.
-/

namespace CosiCoin

open Node

section Broadcasts

variable [Platform]

/-- The message made of a block by the next one-time key of a node. -/
def Node.signedMessage (nd : Node) (type : MsgType) (block : Block) (round : UInt32)
    (digest : Str) : Message where
  type := type
  block := { block with
    validatorId := nd.id
    validatorNextPublicKey := nd.rotateKeys.myNextKeyPair.publicKey
    validatorSig := sign digest nd.myNextKeyPair.privateKey }
  senderId := nd.id.toUInt64
  round := round

/-- The message of a block that the node's next key can sign. -/
def Node.Signs (nd : Node) (type : MsgType) (block : Block) (round : UInt32) (m : Message) : Prop :=
  block.isMutable = false ∧
    ∃ digest, m = nd.signedMessage type block round digest ∧ m.block.getDigest = .ok digest

theorem broadcastMessage_eq_ok
    {nd nd' : Node} {type : MsgType} {block : Block} {round : UInt32} {evs : List NodeEvent}
    (h : nd.broadcastMessage type block round = .ok (nd', evs)) :
    nd' = nd.rotateKeys ∧ ∃ m, nd.Signs type block round m ∧ evs = [.broadcast m] := by
  obtain ⟨⟨signed, nd₁⟩, hsign, h⟩ := bind_eq_ok h
  obtain ⟨rfl, rfl⟩ := Prod.mk.inj (Except.ok.inj h)
  unfold signBlock at hsign
  dsimp only at hsign
  split at hsign
  · cases hsign
  · rename_i signed' hsigned
    obtain ⟨digest', hdigest', hsign⟩ := bind_eq_ok hsign
    split_ifs at hsign with hassert
    obtain ⟨rfl, rfl⟩ := Prod.mk.inj (Except.ok.inj hsign)
    obtain ⟨hmut, digest, hdigest, hblock⟩ := Block.sign_eq_ok hsigned
    refine ⟨rfl, _, ⟨hmut, digest, ?_, hdigest⟩, rfl⟩
    rw [hblock]
    rfl

/-- What the receivers see of a signed message. -/
theorem Signs.type_eq
    {nd : Node} {type : MsgType} {block : Block} {round : UInt32} {m : Message}
    (h : nd.Signs type block round m) :
    m.type = type ∧ m.block.header = block.header ∧ m.block.txs = block.txs ∧
    m.block.validatorId = nd.id := by
  obtain ⟨_, digest, rfl, _⟩ := h
  exact ⟨rfl, rfl, rfl, rfl⟩

end Broadcasts

section Steps

/--
A change that leaves everything the protocol counts as it is: the keys of the
other validators, the flags, the order of the counters, the blocks held for the
ledger, or a `SEND` forgotten.
-/
structure Node.Quiet (nd nd' : Node) : Prop where
  id : nd'.id = nd.id
  n : nd'.n = nd.n
  f : nd'.f = nd.f
  blkList : nd'.blkList = nd.blkList
  echo : nd'.echoThisRound.count = nd.echoThisRound.count
  ready : nd'.readyThisRound.count = nd.readyThisRound.count
  readySent : nd'.readySent = nd.readySent
  votedHash : nd'.votedHash = nd.votedHash
  erasedRead : nd'.erasedRead = nd.erasedRead
  send : nd'.sendThisRound = nd.sendThisRound ∨ nd'.sendThisRound = []

/-- A change that leaves the blocks held for the ledger and the accepted hashes as they are. -/
structure Node.Keeps (nd nd' : Node) : Prop where
  blocks : nd'.blocks = nd.blocks
  acceptedBlocks : nd'.acceptedBlocks = nd.acceptedBlocks
  erasedReads : nd'.erasedReads = nd.erasedReads

theorem Node.Quiet.refl
    (nd : Node) :
    nd.Quiet nd := by
  exact ⟨rfl, rfl, rfl, rfl, rfl, rfl, rfl, rfl, rfl, Or.inl rfl⟩

theorem quiet_of_rehashed
    {nd nd' : Node}
    (h : nd.Rehashed nd') :
    nd.Quiet nd' ∧ nd.Keeps nd' := by
  obtain ⟨echo, ready, hecho, hready, rfl⟩ := h
  refine ⟨⟨rfl, rfl, rfl, rfl, ?_, ?_, rfl, rfl, rfl, Or.inl rfl⟩, ⟨rfl, rfl, rfl⟩⟩
  · exact Counter.count_perm hecho
  · exact Counter.count_perm hready

/-- Taking the accepted blocks goes unnoticed. -/
theorem getConsensusBlocks_quiet
    (nd : Node) (erase : Bool) :
    nd.Quiet (nd.getConsensusBlocks erase).2 := by
  cases erase with
  | false => exact ⟨rfl, rfl, rfl, rfl, rfl, rfl, rfl, rfl, rfl, Or.inl rfl⟩
  | true => exact ⟨rfl, rfl, rfl, rfl, rfl, rfl, rfl, rfl, rfl, Or.inl rfl⟩

theorem setUTXOlists_quiet
    (nd : Node) (utxolist : UTXOlist) (walletIds : List UInt32) :
    nd.Quiet (nd.setUTXOlists utxolist walletIds) :=
  ⟨rfl, rfl, rfl, rfl, rfl, rfl, rfl, rfl, rfl, Or.inl rfl⟩

variable [Platform]

/-- The steps of a node with the events they record. -/
inductive NodeStep : Node → List NodeEvent → Node → Prop
  | quiet
      {nd nd' : Node}
      (h : nd.Quiet nd')
      (hkept : nd.Keeps nd') :
      NodeStep nd [] nd'
  | count
      (nd : Node) (m : Message) :
      NodeStep nd [.counted m] (nd.countMessage m)
  | echo
      (nd : Node) (m : Message)
      (hsend : nd.sendThisRound ≠ [])
      (hm : nd.Signs .echo ((nd.blkList.lookup nd.sendThisRound).getD {}) 1 m) :
      NodeStep nd [.broadcast m] nd.rotateKeys
  | ready
      (nd : Node) (m : Message) (blkHash : Str) (round : UInt32)
      (hvotes : (nd.n + nd.f + 1) / 2 ≤ nd.echoThisRound.count blkHash ∨
        nd.f + 1 ≤ nd.readyThisRound.count blkHash)
      (hsent : blkHash ∉ nd.readySent)
      (hm : nd.Signs .ready ((nd.blkList.lookup blkHash).getD {}) round m) :
      NodeStep nd [.broadcast m]
        { nd.rotateKeys with readySent := insert blkHash nd.readySent }
  | deliver
      (nd : Node) (blkHash : Str)
      (hvotes : 2 * nd.f + 1 < nd.readyThisRound.count blkHash) :
      NodeStep nd [.delivered blkHash]
        (nd.deliver blkHash (nd.erasedRead nd.erasedReads blkHash))
  | restart
      (nd : Node) :
      NodeStep nd [.restarted] (nd.runProtocol true)

/-- A sequence of steps with the events in order. -/
inductive NodeRun : Node → List NodeEvent → Node → Prop
  | refl
      (nd : Node) :
      NodeRun nd [] nd
  | head
      {nd nd₁ nd' : Node} {ev evs : List NodeEvent}
      (h : NodeStep nd ev nd₁)
      (rest : NodeRun nd₁ evs nd') :
      NodeRun nd (ev ++ evs) nd'

theorem NodeRun.single
    {nd nd' : Node} {ev : List NodeEvent}
    (h : NodeStep nd ev nd') :
    NodeRun nd ev nd' := by
  have hrun := NodeRun.head h (NodeRun.refl nd')
  rwa [List.append_nil] at hrun

/-- Steps that record nothing do not show in the events. -/
theorem NodeRun.quiet_head
    {nd nd₁ nd' : Node} {evs : List NodeEvent}
    (h : nd.Quiet nd₁)
    (hkept : nd.Keeps nd₁)
    (rest : NodeRun nd₁ evs nd') :
    NodeRun nd evs nd' :=
  .head (.quiet h hkept) rest

theorem NodeRun.append
    {nd nd₁ nd₂ : Node} {ev₁ ev₂ : List NodeEvent}
    (h₁ : NodeRun nd ev₁ nd₁)
    (h₂ : NodeRun nd₁ ev₂ nd₂) :
    NodeRun nd (ev₁ ++ ev₂) nd₂ := by
  induction h₁ with
  | refl nd =>
      exact h₂
  | head h rest ih =>
      rw [List.append_assoc]
      exact .head h (ih h₂)

/-- Only the leader's `propose` records a proposal. -/
theorem NodeRun.proposed_notMem
    {nd nd' : Node} {evs : List NodeEvent}
    (h : NodeRun nd evs nd')
    (b : Block) :
    .proposed b ∉ evs := by
  induction h with
  | refl nd =>
      simp
  | head hstep rest ih =>
      cases hstep with
      | quiet hq hkept => simpa using ih
      | count m => simpa using ih
      | echo m hsend hm => simpa using ih
      | ready m h round hvotes hsent hm => simpa using ih
      | deliver h hvotes => simpa using ih
      | restart => simpa using ih

/-- What every step preserves is preserved by a run. -/
theorem nodeRun_invariant
    {Q : Node → List NodeEvent → Prop}
    (hstep : ∀ nd ev nd' hist, Q nd hist → NodeStep nd ev nd' → Q nd' (ev.reverse ++ hist))
    {nd nd' : Node} {evs : List NodeEvent}
    (h : NodeRun nd evs nd') :
    ∀ {hist}, Q nd hist → Q nd' (evs.reverse ++ hist) := by
  induction h with
  | refl nd =>
      intro hist hQ
      exact hQ
  | head h rest ih =>
      intro hist hQ
      rw [List.reverse_append, List.append_assoc]
      exact ih (hstep _ _ _ _ hQ h)

/-- What a node reads in place of an erased key does not depend on its steps. -/
theorem NodeRun.erasedRead_eq
    {nd nd' : Node} {evs : List NodeEvent}
    (h : NodeRun nd evs nd') :
    nd'.erasedRead = nd.erasedRead := by
  induction h with
  | refl nd =>
      rfl
  | @head nd nd₁ nd' ev evs hstep rest ih =>
      have hone : nd₁.erasedRead = nd.erasedRead := by
        cases hstep with
        | quiet hq hkept => exact hq.erasedRead
        | count m => rw [countMessage_eq]; rfl
        | echo m hsend hm => rfl
        | ready m h round hvotes hsent hm => rfl
        | deliver h hvotes => rfl
        | restart => rfl
      exact ih.trans hone

end Steps

section Decomposition

/-- The counted messages among some events. -/
def countedMessages (evs : List NodeEvent) : List Message :=
  evs.filterMap fun
    | .counted m => some m
    | _ => none

@[simp] theorem countedMessages_append
    (evs evs' : List NodeEvent) :
    countedMessages (evs ++ evs') = countedMessages evs ++ countedMessages evs' :=
  List.filterMap_append

variable [Platform]

/-- A block without transactions passes every verification. -/
theorem passesVerify_of_empty
    {b : Block}
    (hempty : b.txs = [])
    (nd : Node) :
    nd.passesVerify b = true := by
  have hverify : b.verify nd.utxolist nd.walletIds = true := by
    rw [Block.verify, Block.inputs, hempty]
    rfl
  rw [passesVerify, hverify, Bool.or_true]

/-- The check passes for a signature that is valid under the stored key, if there is one. -/
theorem checkBlockSig_of_validUnder
    {nd : Node} {b : Block} {digest : Str}
    (hdigest : b.getDigest = .ok digest)
    (hvalid : ∀ key, nd.valSigKeys.lookup b.validatorId = some key → b.ValidUnder key) :
    nd.checkBlockSig b = .ok (true, { nd with
      valSigKeys := nd.valSigKeys.insert b.validatorId b.validatorNextPublicKey }) := by
  cases hlookup : nd.valSigKeys.lookup b.validatorId with
  | none =>
      simp [checkBlockSig, hdigest, hlookup, bind, Except.bind, pure, Except.pure]
  | some key =>
      have hone := (Block.validUnder_iff hdigest).mp (hvalid key hlookup)
      simp [checkBlockSig, hdigest, hlookup, hone, bind, Except.bind, pure, Except.pure]

/--
One received message: its signature is checked and the key it announces is
stored, then it may be counted.
-/
theorem recvMessage_eq_ok
    {nd nd' : Node} {m : Message} {evs : List NodeEvent}
    (h : nd.recvMessage m = .ok (nd', evs)) :
    ∃ digest valid stored,
      m.block.getDigest = .ok digest ∧
      nd.checkBlockSig m.block = .ok (valid, stored) ∧
      (valid = true ↔ ∀ key, nd.valSigKeys.lookup m.block.validatorId = some key →
        CosiCoin.verify digest m.block.validatorSig key = 1) ∧
      stored = { nd with
        valSigKeys := nd.valSigKeys.insert m.block.validatorId m.block.validatorNextPublicKey } ∧
      ((¬ (valid = true ∧ nd.passesVerify m.block = true) ∧ evs = [] ∧ nd' = stored) ∨
        (valid = true ∧ nd.passesVerify m.block = true ∧ evs = [.counted m] ∧
          nd' = stored.countMessage m)) := by
  obtain ⟨⟨valid, stored⟩, hcheck, h⟩ := bind_eq_ok h
  obtain ⟨digest, hdigest, hstored⟩ := bind_eq_ok hcheck
  obtain ⟨hvalid, rfl⟩ := Prod.mk.inj (Except.ok.inj hstored)
  refine ⟨digest, valid, _, hdigest, hcheck, ?_, rfl, ?_⟩
  · rw [← hvalid]
    cases nd.valSigKeys.lookup m.block.validatorId with
    | none =>
        simp
    | some key =>
        simp
  · dsimp only at h
    split_ifs at h with hinvalid hfails
    · obtain ⟨rfl, rfl⟩ := Prod.mk.inj (Except.ok.inj h)
      exact Or.inl ⟨fun hboth => by simp [hinvalid] at hboth, rfl, rfl⟩
    · obtain ⟨rfl, rfl⟩ := Prod.mk.inj (Except.ok.inj h)
      have hnot : nd.passesVerify m.block = false := hfails
      exact Or.inl ⟨fun hboth => by simp [hnot] at hboth, rfl, rfl⟩
    · obtain ⟨rfl, rfl⟩ := Prod.mk.inj (Except.ok.inj h)
      have hpass : nd.passesVerify m.block = true := eq_true_of_ne_false hfails
      exact Or.inr ⟨eq_true_of_ne_false hinvalid, hpass, rfl, rfl⟩

theorem recvMessage_nodeRun
    {nd nd' : Node} {m : Message} {evs : List NodeEvent}
    (h : nd.recvMessage m = .ok (nd', evs)) :
    NodeRun nd evs nd' ∧ (countedMessages evs).Sublist [m] := by
  obtain ⟨_, _, _, _, _, _, rfl, h⟩ := recvMessage_eq_ok h
  have hquiet : nd.Quiet { nd with
      valSigKeys := nd.valSigKeys.insert m.block.validatorId m.block.validatorNextPublicKey } := by
    exact ⟨rfl, rfl, rfl, rfl, rfl, rfl, rfl, rfl, rfl, Or.inl rfl⟩
  rcases h with ⟨_, rfl, rfl⟩ | ⟨_, _, rfl, rfl⟩
  · exact ⟨.single (.quiet hquiet ⟨rfl, rfl, rfl⟩), by simp [countedMessages]⟩
  · exact ⟨.quiet_head hquiet ⟨rfl, rfl, rfl⟩ (.single (.count _ m)), by simp [countedMessages]⟩

theorem recvMessages_nodeRun
    {msgs : List Message} :
    ∀ {nd nd' : Node} {evs : List NodeEvent}, recvMessages msgs nd = .ok (nd', evs) →
      NodeRun nd evs nd' ∧ (countedMessages evs).Sublist msgs := by
  induction msgs with
  | nil =>
      intro nd nd' evs h
      obtain ⟨rfl, rfl⟩ := Prod.mk.inj (Except.ok.inj h)
      exact ⟨.refl nd, by simp [countedMessages]⟩
  | cons m msgs ih =>
      intro nd nd' evs h
      obtain ⟨⟨nd₁, ev₁⟩, hm, h⟩ := bind_eq_ok h
      obtain ⟨⟨nd₂, ev₂⟩, hrest, h⟩ := bind_eq_ok h
      obtain ⟨rfl, rfl⟩ := Prod.mk.inj (Except.ok.inj h)
      obtain ⟨hrun₁, hsub₁⟩ := recvMessage_nodeRun hm
      obtain ⟨hrun₂, hsub₂⟩ := ih hrest
      refine ⟨hrun₁.append hrun₂, ?_⟩
      rw [countedMessages_append]
      exact hsub₁.append hsub₂

/-- The turn of a hash in a loop: a `READY` is sent, or nothing happens. -/
theorem announceReady_cases
    {nd nd' : Node} {threshold nbRecv : Nat} {h : Str} {round : UInt32} {evs : List NodeEvent}
    (hok : nd.announceReady threshold nbRecv h round = .ok (nd', evs)) :
    (¬ (threshold ≤ nbRecv ∧ h ∉ nd.readySent) ∧ nd' = nd ∧ evs = []) ∨
    (threshold ≤ nbRecv ∧ h ∉ nd.readySent ∧
      nd' = { nd.rotateKeys with readySent := insert h nd.readySent } ∧
      ∃ m, nd.Signs .ready ((nd.blkList.lookup h).getD {}) round m ∧ evs = [.broadcast m]) := by
  unfold announceReady at hok
  split_ifs at hok with hcond
  · obtain ⟨⟨nd₁, ev₁⟩, hb, hok⟩ := bind_eq_ok hok
    obtain ⟨rfl, rfl⟩ := Prod.mk.inj (Except.ok.inj hok)
    obtain ⟨rfl, m, hm, rfl⟩ := broadcastMessage_eq_ok hb
    exact Or.inr ⟨hcond.1, hcond.2, rfl, m, hm, rfl⟩
  · obtain ⟨rfl, rfl⟩ := Prod.mk.inj (Except.ok.inj hok)
    exact Or.inl ⟨hcond, rfl, rfl⟩

/-- A `READY` is sent only for enough votes, and the counters stay. -/
theorem announceReady_nodeRun
    {nd nd' : Node} {threshold nbRecv : Nat} {h : Str} {round : UInt32} {evs : List NodeEvent}
    (hok : nd.announceReady threshold nbRecv h round = .ok (nd', evs))
    (hvotes : threshold ≤ nbRecv →
      (nd.n + nd.f + 1) / 2 ≤ nd.echoThisRound.count h ∨
      nd.f + 1 ≤ nd.readyThisRound.count h) :
    NodeRun nd evs nd' ∧ countedMessages evs = [] ∧
    nd'.echoThisRound = nd.echoThisRound ∧ nd'.readyThisRound = nd.readyThisRound := by
  rcases announceReady_cases hok with ⟨_, rfl, rfl⟩ | ⟨hle, hsent, rfl, m, hm, rfl⟩
  · exact ⟨.refl nd', rfl, rfl, rfl⟩
  · exact ⟨.single (.ready nd m h round (hvotes hle) hsent hm), rfl, rfl, rfl⟩

theorem echoLoop_nodeRun
    {entries : List ((_ : Str) × Nat)} :
    ∀ {nd nd' : Node} {evs : List NodeEvent}, echoLoop entries nd = .ok (nd', evs) →
      (∀ e ∈ entries, e ∈ nd.echoThisRound.entries) →
      NodeRun nd evs nd' ∧ countedMessages evs = [] := by
  induction entries with
  | nil =>
      intro nd nd' evs h _
      obtain ⟨rfl, rfl⟩ := Prod.mk.inj (Except.ok.inj h)
      exact ⟨.refl nd, rfl⟩
  | cons e entries ih =>
      obtain ⟨h, k⟩ := e
      intro nd nd' evs hok hmem
      have hk : nd.echoThisRound.count h = k := Counter.count_of_mem (hmem _ (by simp))
      obtain ⟨⟨nd₁, ev₁⟩, hone, hok⟩ := bind_eq_ok hok
      obtain ⟨⟨nd₂, ev₂⟩, hloop, hok⟩ := bind_eq_ok hok
      obtain ⟨rfl, rfl⟩ := Prod.mk.inj (Except.ok.inj hok)
      obtain ⟨hrun₁, hc₁, hsame, _⟩ := announceReady_nodeRun hone
        (fun hle => Or.inl (by rwa [hk]))
      obtain ⟨hrun₂, hc₂⟩ := ih hloop (fun e he => by
        rw [hsame]
        exact hmem e (List.mem_cons_of_mem _ he))
      exact ⟨hrun₁.append hrun₂, by simp [hc₁, hc₂]⟩

theorem readyLoop_nodeRun
    {entries : List ((_ : Str) × Nat)} :
    ∀ {nd nd' : Node} {evs : List NodeEvent}, readyLoop entries nd = .ok (nd', evs) →
      (∀ e ∈ entries, e ∈ nd.readyThisRound.entries) →
      NodeRun nd evs nd' ∧ countedMessages evs = [] := by
  induction entries with
  | nil =>
      intro nd nd' evs h _
      obtain ⟨rfl, rfl⟩ := Prod.mk.inj (Except.ok.inj h)
      exact ⟨.refl nd, rfl⟩
  | cons e entries ih =>
      obtain ⟨h, k⟩ := e
      intro nd nd' evs hok hmem
      have hk : nd.readyThisRound.count h = k := Counter.count_of_mem (hmem _ (by simp))
      obtain ⟨⟨nd₁, ev₁⟩, hone, hok⟩ := bind_eq_ok hok
      obtain ⟨hrun₁, hc₁, _, hsame⟩ := announceReady_nodeRun hone
        (fun hle => Or.inr (by rwa [hk]))
      dsimp only at hok
      split_ifs at hok with hdeliver
      · obtain ⟨rfl, rfl⟩ := Prod.mk.inj (Except.ok.inj hok)
        refine ⟨hrun₁.append (.single (.deliver nd₁ h ?_)), ?_⟩
        · rw [hsame, hk]
          exact hdeliver
        · rw [countedMessages_append, hc₁]
          rfl
      · obtain ⟨⟨nd₂, ev₂⟩, hloop, hok⟩ := bind_eq_ok hok
        obtain ⟨rfl, rfl⟩ := Prod.mk.inj (Except.ok.inj hok)
        obtain ⟨hrun₂, hc₂⟩ := ih hloop (fun e he => by
          rw [hsame]
          exact hmem e (List.mem_cons_of_mem _ he))
        exact ⟨hrun₁.append hrun₂, by simp [hc₁, hc₂]⟩

/-- The `SEND` of the round is echoed and forgotten, if there is one. -/
theorem sendEcho_cases
    {nd nd' : Node} {evs : List NodeEvent}
    (h : nd.sendEcho = .ok (nd', evs)) :
    (nd.sendThisRound = [] ∧ nd' = nd ∧ evs = []) ∨
    (nd.sendThisRound ≠ [] ∧ nd' = { nd.rotateKeys with sendThisRound := [] } ∧
      ∃ m, nd.Signs .echo ((nd.blkList.lookup nd.sendThisRound).getD {}) 1 m ∧
        evs = [.broadcast m]) := by
  unfold sendEcho at h
  split_ifs at h with hsend
  · obtain ⟨⟨nd₁, ev₁⟩, hb, h⟩ := bind_eq_ok h
    obtain ⟨rfl, rfl⟩ := Prod.mk.inj (Except.ok.inj h)
    obtain ⟨rfl, m, hm, rfl⟩ := broadcastMessage_eq_ok hb
    exact Or.inr ⟨hsend, rfl, m, hm, rfl⟩
  · obtain ⟨rfl, rfl⟩ := Prod.mk.inj (Except.ok.inj h)
    exact Or.inl ⟨not_not.mp hsend, rfl, rfl⟩

theorem sendEcho_nodeRun
    {nd nd' : Node} {evs : List NodeEvent}
    (h : nd.sendEcho = .ok (nd', evs)) :
    NodeRun nd evs nd' ∧ countedMessages evs = [] := by
  rcases sendEcho_cases h with ⟨_, rfl, rfl⟩ | ⟨hsend, rfl, m, hm, rfl⟩
  · exact ⟨.refl nd', rfl⟩
  · have hquiet : nd.rotateKeys.Quiet { nd.rotateKeys with sendThisRound := [] } :=
      ⟨rfl, rfl, rfl, rfl, rfl, rfl, rfl, rfl, rfl, Or.inr rfl⟩
    exact ⟨.head (.echo nd m hsend hm) (.single (.quiet hquiet ⟨rfl, rfl, rfl⟩)), rfl⟩

theorem broadcastRound_nodeRun
    {nd nd' : Node} {evs : List NodeEvent}
    (h : nd.broadcastRound = .ok (nd', evs)) :
    NodeRun nd evs nd' ∧ countedMessages evs = [] := by
  obtain ⟨⟨nd₁, ev₁⟩, hecho, h⟩ := bind_eq_ok h
  obtain ⟨⟨nd₂, ev₂⟩, hloop₁, h⟩ := bind_eq_ok h
  obtain ⟨⟨nd₃, ev₃⟩, hloop₂, h⟩ := bind_eq_ok h
  obtain ⟨rfl, rfl⟩ := Prod.mk.inj (Except.ok.inj h)
  have hquiet : nd.Quiet { nd with shouldBroadcast := true } :=
    ⟨rfl, rfl, rfl, rfl, rfl, rfl, rfl, rfl, rfl, Or.inl rfl⟩
  obtain ⟨hrun₁, hc₁⟩ := sendEcho_nodeRun hecho
  obtain ⟨hrun₂, hc₂⟩ := echoLoop_nodeRun hloop₁ (fun _ he => he)
  obtain ⟨hrun₃, hc₃⟩ := readyLoop_nodeRun hloop₂ (fun _ he => he)
  exact ⟨.quiet_head hquiet ⟨rfl, rfl, rfl⟩ ((hrun₁.append hrun₂).append hrun₃),
    by simp [hc₁, hc₂, hc₃]⟩

/-- A task is a sequence of steps that counts some of the messages, in order. -/
theorem runTask_nodeRun
    {nd nd' : Node} {msgs : List Message} {evs : List NodeEvent}
    (h : nd.RunTask msgs nd' evs) :
    NodeRun nd evs nd' ∧ (countedMessages evs).Sublist msgs := by
  obtain ⟨nd₁, ev₁, nd₂, ev₂, hrecv, hrehash, hround, rfl⟩ := h
  have hquiet : nd.Quiet { nd with sendThisRound := [] } :=
    ⟨rfl, rfl, rfl, rfl, rfl, rfl, rfl, rfl, rfl, Or.inr rfl⟩
  obtain ⟨hrun₁, hsub⟩ := recvMessages_nodeRun hrecv
  obtain ⟨hrun₂, hc₂⟩ := broadcastRound_nodeRun hround
  have hrun₁' : NodeRun nd ev₁ nd₁ := .quiet_head hquiet ⟨rfl, rfl, rfl⟩ hrun₁
  obtain ⟨hsame, hkept⟩ := quiet_of_rehashed hrehash
  have hrun₂' : NodeRun nd₁ ev₂ nd' := .quiet_head hsame hkept hrun₂
  exact ⟨hrun₁'.append hrun₂', by simpa [hc₂] using hsub⟩

/-- A proposal signs the block as it is. -/
theorem propose_eq_ok
    {nd nd' : Node} {b : Block} {evs : List NodeEvent}
    (h : nd.propose b = .ok (nd', evs)) :
    nd' = nd.rotateKeys ∧ ∃ m, nd.Signs .send b 0 m ∧ evs = [.proposed b, .broadcast m] := by
  obtain ⟨⟨nd₁, ev₁⟩, hb, h⟩ := bind_eq_ok h
  obtain ⟨rfl, rfl⟩ := Prod.mk.inj (Except.ok.inj h)
  obtain ⟨rfl, m, hm, rfl⟩ := broadcastMessage_eq_ok hb
  exact ⟨rfl, m, hm, rfl⟩

end Decomposition

section Taking

/-- What `blocks_[hash]` gives for each of the hashes. -/
theorem consensusLoop_fst
    (hashes : List Str) :
    ∀ blocks : AList (fun _ : Str => Block),
      (consensusLoop hashes blocks).1 = hashes.map fun h => (blocks.lookup h).getD {} := by
  induction hashes with
  | nil =>
      intro blocks
      rfl
  | cons hash hashes ih =>
      intro blocks
      rw [consensusLoop, ih, List.map_cons]
      refine congrArg _ (List.map_congr_left fun h _ => ?_)
      by_cases hh : h = hash
      · rw [hh, AList.lookup_insert, Option.getD_some]
      · rw [AList.lookup_insert_ne hh]

/-- The blocks after the hashes were looked up. -/
theorem consensusLoop_snd
    (hashes : List Str) :
    ∀ (blocks : AList (fun _ : Str => Block)) (h : Str),
      (consensusLoop hashes blocks).2.lookup h =
        if h ∈ hashes then some ((blocks.lookup h).getD {}) else blocks.lookup h := by
  induction hashes with
  | nil =>
      intro blocks h
      rfl
  | cons hash hashes ih =>
      intro blocks h
      rw [consensusLoop, ih]
      by_cases hh : h = hash
      · subst hh
        simp
      · rw [AList.lookup_insert_ne hh]
        simp only [List.mem_cons, hh, false_or]

/-- The blocks that are taken from a node. -/
theorem getConsensusBlocks_fst
    (nd : Node) (erase : Bool) :
    (nd.getConsensusBlocks erase).1 =
      nd.acceptedBlocks.map fun h => (nd.blocks.lookup h).getD {} := by
  cases erase with
  | false => exact consensusLoop_fst _ _
  | true => exact consensusLoop_fst _ _

/-- The blocks that a node has after they were taken. -/
theorem getConsensusBlocks_lookup
    (nd : Node) (erase : Bool) (h : Str) :
    (nd.getConsensusBlocks erase).2.blocks.lookup h =
      if h ∈ nd.acceptedBlocks then some ((nd.blocks.lookup h).getD {})
      else nd.blocks.lookup h := by
  cases erase with
  | false => exact consensusLoop_snd _ _ h
  | true => exact consensusLoop_snd _ _ h

/-- Looking up known hashes changes nothing. -/
theorem getConsensusBlocks_known
    {nd : Node} {erase : Bool}
    (hknown : ∀ h ∈ nd.acceptedBlocks, (nd.blocks.lookup h).isSome = true)
    (h : Str) :
    (nd.getConsensusBlocks erase).2.blocks.lookup h = nd.blocks.lookup h := by
  rw [getConsensusBlocks_lookup]
  split_ifs with hh
  · obtain ⟨b, hb⟩ := Option.isSome_iff_exists.mp (hknown h hh)
    rw [hb, Option.getD_some]
  · rfl

end Taking

end CosiCoin
