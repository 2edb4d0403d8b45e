import CosiCoin.EchoPerBatch
import CosiCoin.FifoBroadcast

/-!
# COSICOIN: copied and moved nodes

The copy constructor and the move constructor of `Node` list the members one by
one and leave out `n_` and `f_`, which then hold whatever the memory held.  A
later round reads them in three thresholds: (n + f + 1) / 2 ECHO messages and
f + 1 READY messages for a READY, and more than 2f + 1 READY messages for a
delivery.

A copy with another n behaves like the original as long as the first threshold
stays the same: every function of a round goes through in the same way
(`Batches.resize`).  With another f, or another first threshold, some node and
its copy differ in the answer to an empty batch, and a new node of a committee
that is not empty differs from its copy in the answer to copies of one vote.
-/

namespace CosiCoin

open Node

namespace Node

/--
The node made by the copy constructor of `Node`; the move constructor takes over
the same members.  The given `n` and `f` are what the memory held before.
-/
def copyConstruct (other : Node) (n f : UInt16) : Node where
  id := other.id
  n := n.toNat
  f := f.toNat
  isLead := other.isLead
  blkList := other.blkList
  sendThisRound := other.sendThisRound
  readyThisRound := other.readyThisRound
  echoThisRound := other.echoThisRound
  readySent := other.readySent
  utxolist := other.utxolist
  walletIds := other.walletIds
  votedHash := other.votedHash
  shouldBroadcast := other.shouldBroadcast
  myCurrentPrivateKey := other.myCurrentPrivateKey
  myCurrentPublicKey := other.myCurrentPublicKey
  myNextKeyPair := other.myNextKeyPair
  valSigKeys := other.valSigKeys
  verifiedBlocks := other.verifiedBlocks
  blocks := other.blocks
  acceptedBlocks := other.acceptedBlocks
  urandom := other.urandom
  drawn := other.drawn
  erasedRead := other.erasedRead
  erasedReads := other.erasedReads

/-- The same node with another number of validators. -/
def resize (nd : Node) (k : Nat) : Node :=
  { nd with n := k }

section Behaviour

variable [P : Platform]

/-- Some run through the batches sends these messages and ends with these accepted hashes. -/
def Shows (nd : Node) (batches : List (List Message)) (sent : List Message)
    (accepted : List Str) : Prop :=
  ∃ evss nd', nd.Batches batches evss nd' ∧ broadcastMessages evss.flatten = sent ∧
    nd'.acceptedBlocks = accepted

/-- Both nodes send the same messages in the same order and accept the same blocks. -/
def BehavesLike (nd nd' : Node) : Prop :=
  ∀ batches sent accepted, nd'.Shows batches sent accepted ↔ nd.Shows batches sent accepted

end Behaviour

end Node

section Resizing

variable [P : Platform]
variable {nd nd' : Node} {k : Nat} {evs : List NodeEvent}

theorem checkBlockSig_resize
    {b : Block} {valid : Bool}
    (h : nd.checkBlockSig b = .ok (valid, nd')) :
    (nd.resize k).checkBlockSig b = .ok (valid, nd'.resize k) := by
  obtain ⟨digest, hdigest, h⟩ := bind_eq_ok h
  obtain ⟨rfl, rfl⟩ := Prod.mk.inj (Except.ok.inj h)
  rw [checkBlockSig, hdigest]
  rfl

theorem recvMessage_resize
    {m : Message}
    (h : nd.recvMessage m = .ok (nd', evs)) :
    (nd.resize k).recvMessage m = .ok (nd'.resize k, evs) ∧ nd'.n = nd.n ∧ nd'.f = nd.f := by
  have hsize : nd'.n = nd.n ∧ nd'.f = nd.f := by
    rcases recvMessage_cases h with ⟨_, _, rfl⟩ | ⟨_, _, rfl⟩
    · exact ⟨rfl, rfl⟩
    · exact ⟨(receive_same nd m).1.n, (receive_same nd m).1.f⟩
  refine ⟨?_, hsize⟩
  obtain ⟨⟨valid, nd₁⟩, hcheck, h⟩ := bind_eq_ok h
  have hpasses : (nd₁.resize k).passesVerify m.block = nd₁.passesVerify m.block := rfl
  simp only [recvMessage, checkBlockSig_resize hcheck, hpasses, bind, Except.bind]
  dsimp only at h
  split_ifs at h ⊢ with hvalid hpass
  · obtain ⟨rfl, rfl⟩ := Prod.mk.inj (Except.ok.inj h)
    rfl
  · obtain ⟨rfl, rfl⟩ := Prod.mk.inj (Except.ok.inj h)
    rfl
  · obtain ⟨rfl, rfl⟩ := Prod.mk.inj (Except.ok.inj h)
    rw [countMessage_eq, countMessage_eq]
    rfl

theorem recvMessages_resize
    {msgs : List Message} :
    ∀ {nd nd' : Node} {evs : List NodeEvent}, recvMessages msgs nd = .ok (nd', evs) →
      recvMessages msgs (nd.resize k) = .ok (nd'.resize k, evs) ∧
        nd'.n = nd.n ∧ nd'.f = nd.f := by
  induction msgs with
  | nil =>
      intro nd nd' evs h
      obtain ⟨rfl, rfl⟩ := Prod.mk.inj (Except.ok.inj h)
      exact ⟨rfl, rfl, rfl⟩
  | cons m msgs ih =>
      intro nd nd' evs h
      obtain ⟨⟨nd₁, ev₁⟩, hm, h⟩ := bind_eq_ok h
      obtain ⟨⟨nd₂, ev₂⟩, hrest, h⟩ := bind_eq_ok h
      obtain ⟨rfl, rfl⟩ := Prod.mk.inj (Except.ok.inj h)
      obtain ⟨hm', hn₁, hf₁⟩ := recvMessage_resize hm
      obtain ⟨hrest', hn₂, hf₂⟩ := ih hrest
      refine ⟨?_, hn₂.trans hn₁, hf₂.trans hf₁⟩
      rw [recvMessages, hm']
      show (recvMessages msgs (nd₁.resize k) >>= _) = _
      rw [hrest']
      rfl

theorem broadcastMessage_resize
    {type : MsgType} {block : Block} {round : UInt32}
    (h : nd.broadcastMessage type block round = .ok (nd', evs)) :
    (nd.resize k).broadcastMessage type block round = .ok (nd'.resize k, evs) := by
  obtain ⟨⟨signed, nd₁⟩, hsign, h⟩ := bind_eq_ok h
  obtain ⟨rfl, rfl⟩ := Prod.mk.inj (Except.ok.inj h)
  have hsign' : (nd.resize k).signBlock block = .ok (signed, nd₁.resize k) := by
    unfold signBlock at hsign ⊢
    dsimp only at hsign ⊢
    cases hblock : block.sign nd.rotateKeys.myCurrentPrivateKey nd.rotateKeys.id
        nd.rotateKeys.myNextKeyPair.publicKey with
    | error thrown =>
        rw [hblock] at hsign
        cases hsign
    | ok signed' =>
        rw [hblock] at hsign
        obtain ⟨digest, hdigest, hsign⟩ := bind_eq_ok hsign
        split_ifs at hsign with hassert
        obtain ⟨rfl, rfl⟩ := Prod.mk.inj (Except.ok.inj hsign)
        have hblock' : block.sign (nd.resize k).rotateKeys.myCurrentPrivateKey
            (nd.resize k).rotateKeys.id (nd.resize k).rotateKeys.myNextKeyPair.publicKey =
              .ok signed' := hblock
        rw [hblock']
        show (signed'.getDigest >>= _) = _
        rw [hdigest]
        exact if_neg hassert
  rw [broadcastMessage, hsign']
  rfl

theorem announceReady_resize
    {threshold nbRecv : Nat} {h : Str} {round : UInt32}
    (hok : nd.announceReady threshold nbRecv h round = .ok (nd', evs)) :
    (nd.resize k).announceReady threshold nbRecv h round = .ok (nd'.resize k, evs) := by
  unfold announceReady at hok ⊢
  by_cases hcond : threshold ≤ nbRecv ∧ h ∉ nd.readySent
  · rw [if_pos hcond] at hok
    rw [if_pos (show threshold ≤ nbRecv ∧ h ∉ (nd.resize k).readySent from hcond)]
    obtain ⟨⟨nd₁, ev₁⟩, hsend, hok⟩ := bind_eq_ok hok
    obtain ⟨rfl, rfl⟩ := Prod.mk.inj (Except.ok.inj hok)
    rw [sendReady]
    show ((nd.resize k).broadcastMessage .ready ((nd.blkList.lookup h).getD {}) round >>= _) = _
    rw [broadcastMessage_resize hsend]
    rfl
  · rw [if_neg hcond] at hok
    rw [if_neg (show ¬ (threshold ≤ nbRecv ∧ h ∉ (nd.resize k).readySent) from hcond)]
    obtain ⟨rfl, rfl⟩ := Prod.mk.inj (Except.ok.inj hok)
    rfl

theorem sendEcho_resize
    (hok : nd.sendEcho = .ok (nd', evs)) :
    (nd.resize k).sendEcho = .ok (nd'.resize k, evs) := by
  unfold sendEcho at hok ⊢
  by_cases hsend : nd.sendThisRound ≠ []
  · rw [if_pos hsend] at hok
    rw [if_pos (show (nd.resize k).sendThisRound ≠ [] from hsend)]
    obtain ⟨⟨nd₁, ev₁⟩, hecho, hok⟩ := bind_eq_ok hok
    obtain ⟨rfl, rfl⟩ := Prod.mk.inj (Except.ok.inj hok)
    show ((nd.resize k).broadcastMessage .echo
      ((nd.blkList.lookup nd.sendThisRound).getD {}) 1 >>= _) = _
    rw [broadcastMessage_resize hecho]
    rfl
  · rw [if_neg hsend] at hok
    rw [if_neg (show ¬ (nd.resize k).sendThisRound ≠ [] from hsend)]
    obtain ⟨rfl, rfl⟩ := Prod.mk.inj (Except.ok.inj hok)
    rfl

theorem echoLoop_resize
    {entries : List ((_ : Str) × Nat)} :
    ∀ {nd nd' : Node} {evs : List NodeEvent},
      (k + nd.f + 1) / 2 = (nd.n + nd.f + 1) / 2 → echoLoop entries nd = .ok (nd', evs) →
      echoLoop entries (nd.resize k) = .ok (nd'.resize k, evs) := by
  induction entries with
  | nil =>
      intro nd nd' evs _ h
      obtain ⟨rfl, rfl⟩ := Prod.mk.inj (Except.ok.inj h)
      rfl
  | cons e entries ih =>
      obtain ⟨h, nbRecv⟩ := e
      intro nd nd' evs hsize hok
      obtain ⟨⟨nd₁, ev₁⟩, hone, hok⟩ := bind_eq_ok hok
      obtain ⟨⟨nd₂, ev₂⟩, hloop, hok⟩ := bind_eq_ok hok
      obtain ⟨rfl, rfl⟩ := Prod.mk.inj (Except.ok.inj hok)
      have hframe := (announceReady_framed hone).1
      rw [← hframe.f, ← hframe.n] at hsize
      have hrest := ih hsize hloop
      rw [hframe.f, hframe.n] at hsize
      rw [← hsize] at hone
      rw [echoLoop]
      show ((nd.resize k).announceReady ((k + nd.f + 1) / 2) nbRecv h 2 >>= _) = _
      rw [announceReady_resize hone]
      show (echoLoop entries (nd₁.resize k) >>= _) = _
      rw [hrest]
      rfl

theorem readyLoop_resize
    {entries : List ((_ : Str) × Nat)} :
    ∀ {nd nd' : Node} {evs : List NodeEvent}, readyLoop entries nd = .ok (nd', evs) →
      readyLoop entries (nd.resize k) = .ok (nd'.resize k, evs) := by
  induction entries with
  | nil =>
      intro nd nd' evs h
      obtain ⟨rfl, rfl⟩ := Prod.mk.inj (Except.ok.inj h)
      rfl
  | cons e entries ih =>
      obtain ⟨h, nbRecv⟩ := e
      intro nd nd' evs hok
      obtain ⟨⟨nd₁, ev₁⟩, hone, hok⟩ := bind_eq_ok hok
      rw [readyLoop]
      show ((nd.resize k).announceReady (nd.f + 1) nbRecv h 3 >>= _) = _
      rw [announceReady_resize hone]
      dsimp only at hok
      by_cases hvotes : 2 * nd₁.f + 1 < nbRecv
      · rw [if_pos hvotes] at hok
        obtain ⟨rfl, rfl⟩ := Prod.mk.inj (Except.ok.inj hok)
        exact if_pos hvotes
      · rw [if_neg hvotes] at hok
        obtain ⟨⟨nd₂, ev₂⟩, hloop, hok⟩ := bind_eq_ok hok
        obtain ⟨rfl, rfl⟩ := Prod.mk.inj (Except.ok.inj hok)
        refine (if_neg hvotes).trans ?_
        rw [ih hloop]
        rfl

theorem broadcastRound_resize
    (hsize : (k + nd.f + 1) / 2 = (nd.n + nd.f + 1) / 2)
    (h : nd.broadcastRound = .ok (nd', evs)) :
    (nd.resize k).broadcastRound = .ok (nd'.resize k, evs) := by
  obtain ⟨⟨nd₁, ev₁⟩, hecho, h⟩ := bind_eq_ok h
  obtain ⟨⟨nd₂, ev₂⟩, hloop₁, h⟩ := bind_eq_ok h
  obtain ⟨⟨nd₃, ev₃⟩, hloop₂, h⟩ := bind_eq_ok h
  obtain ⟨rfl, rfl⟩ := Prod.mk.inj (Except.ok.inj h)
  have hframe := (sendEcho_framed hecho).1
  have hsize₁ : (k + nd₁.f + 1) / 2 = (nd₁.n + nd₁.f + 1) / 2 := by
    rw [hframe.f, hframe.n]
    exact hsize
  rw [broadcastRound]
  show (sendEcho (Node.resize { nd with shouldBroadcast := true } k) >>= _) = _
  rw [sendEcho_resize hecho]
  show (echoLoop nd₁.echoThisRound.entries (nd₁.resize k) >>= _) = _
  rw [echoLoop_resize hsize₁ hloop₁]
  show (readyLoop nd₂.readyThisRound.entries (nd₂.resize k) >>= _) = _
  rw [readyLoop_resize hloop₂]
  rfl

theorem runTask_resize
    {msgs : List Message}
    (hsize : (k + nd.f + 1) / 2 = (nd.n + nd.f + 1) / 2)
    (h : nd.RunTask msgs nd' evs) :
    (nd.resize k).RunTask msgs (nd'.resize k) evs ∧ nd'.n = nd.n ∧ nd'.f = nd.f := by
  obtain ⟨nd₁, ev₁, nd₂, ev₂, hrecv, hrehash, hround, rfl⟩ := h
  obtain ⟨hrecv', hn, hf⟩ := recvMessages_resize hrecv
  have hframe := framed_of_rehashed hrehash
  have hframe' := broadcastRound_framed hround
  have hsize₂ : (k + nd₂.f + 1) / 2 = (nd₂.n + nd₂.f + 1) / 2 := by
    rw [hframe.f, hframe.n, hf, hn]
    exact hsize
  refine ⟨⟨nd₁.resize k, ev₁, nd₂.resize k, ev₂, hrecv', ?_, broadcastRound_resize hsize₂ hround,
    rfl⟩, (hframe'.n.trans hframe.n).trans hn, (hframe'.f.trans hframe.f).trans hf⟩
  obtain ⟨echo, ready, hecho, hready, rfl⟩ := hrehash
  exact ⟨echo, ready, hecho, hready, rfl⟩

/-- A node of another size with the same first threshold takes the same runs. -/
theorem Node.Batches.resize
    {batches : List (List Message)} {evss : List (List NodeEvent)}
    (h : nd.Batches batches evss nd')
    (hsize : (k + nd.f + 1) / 2 = (nd.n + nd.f + 1) / 2) :
    (nd.resize k).Batches batches evss (nd'.resize k) := by
  induction h with
  | nil nd => exact .nil _
  | cons htask rest ih =>
      obtain ⟨htask', hn, hf⟩ := runTask_resize hsize htask
      refine .cons htask' (ih ?_)
      rw [hf, hn]
      exact hsize

/-- A node of another size with the same first threshold behaves in the same way. -/
theorem behavesLike_resize
    (hsize : (k + nd.f + 1) / 2 = (nd.n + nd.f + 1) / 2) :
    nd.BehavesLike (nd.resize k) := by
  intro batches sent accepted
  constructor
  · rintro ⟨evss, nd', hrun, hsent, haccepted⟩
    -- resized back, the copy is the original
    have hback : (nd.resize k).resize nd.n = nd := rfl
    have hrun' := Node.Batches.resize (k := nd.n) hrun hsize.symm
    rw [hback] at hrun'
    exact ⟨evss, nd'.resize nd.n, hrun', hsent, haccepted⟩
  · rintro ⟨evss, nd', hrun, hsent, haccepted⟩
    exact ⟨evss, nd'.resize k, hrun.resize hsize, hsent, haccepted⟩

end Resizing

section Answers

/-- Two answers that are empty unless their conditions hold agree only if the conditions do. -/
theorem iff_of_answer_eq
    {α : Type} {x : α} {p q : Prop} [Decidable p] [Decidable q]
    (h : (if p then [x] else []) = if q then [x] else []) :
    p ↔ q := by
  split_ifs at h with hp hq hq
  · exact ⟨fun _ => hq, fun _ => hp⟩
  · exact ⟨fun h => absurd h hp, fun h => absurd h hq⟩

/-- A new node answers `READY` votes with its own from f + 1 on. -/
theorem Tally.task_readys
    {threshold : Nat}
    (hpos : 0 < threshold)
    (f k : Nat) :
    (Tally.task threshold f {} (List.replicate k .ready)).2 =
      if f + 1 ≤ k then [.ready] else [] := by
  have hnone : ¬ threshold ≤ 0 := by omega
  rw [Tally.task, Tally.round, Tally.recv_eq]
  by_cases hvotes : f + 1 ≤ k
  · simp [Tally.announce, List.count_replicate, hnone, hvotes]
  · simp [Tally.announce, List.count_replicate, hnone, hvotes]

/-- A new node answers `ECHO` votes with a `READY` from the first threshold on. -/
theorem Tally.task_echoes
    (threshold f k : Nat) :
    (Tally.task threshold f {} (List.replicate k .echo)).2 =
      if threshold ≤ k then [.ready] else [] := by
  rw [Tally.task, Tally.round, Tally.recv_eq]
  by_cases hvotes : threshold ≤ k
  · simp [Tally.announce, List.count_replicate, hvotes]
  · simp [Tally.announce, List.count_replicate, hvotes]

end Answers

section Differences

/-- The node has nothing to echo, and its counters can be listed in one order only. -/
structure Node.Listed (nd : Node) : Prop where
  send : nd.sendThisRound = []
  echo : nd.echoThisRound.entries.length ≤ 1
  ready : nd.readyThisRound.entries.length ≤ 1

theorem perm_eq_of_length_le_one
    {α : Type} {l l' : List α}
    (hperm : l'.Perm l)
    (hlen : l.length ≤ 1) :
    l' = l := by
  match l, hlen with
  | [], _ => exact List.perm_nil.mp hperm
  | [a], _ => exact List.perm_singleton.mp hperm

theorem eq_of_rehashed
    {nd nd' : Node}
    (h : nd.Listed)
    (hrehash : nd.Rehashed nd') :
    nd' = nd := by
  obtain ⟨echo, ready, hecho, hready, rfl⟩ := hrehash
  have hecho' : echo = nd.echoThisRound := AList.ext (perm_eq_of_length_le_one hecho h.echo)
  have hready' : ready = nd.readyThisRound := AList.ext (perm_eq_of_length_le_one hready h.ready)
  rw [hecho', hready']

variable [P : Platform]

/-- What a listed node shows for an empty batch is the outcome of its round. -/
theorem shows_empty_iff
    {nd nd' : Node} {evs : List NodeEvent}
    (h : nd.Listed)
    (hround : nd.broadcastRound = .ok (nd', evs))
    (sent : List Message)
    (accepted : List Str) :
    nd.Shows [[]] sent accepted ↔
      broadcastMessages evs = sent ∧ nd'.acceptedBlocks = accepted := by
  have hstart : ({ nd with sendThisRound := [] } : Node) = nd := by
    rw [← h.send]
  have hrecv : nd.updateRecvMessages [] = .ok (nd, []) := by
    rw [updateRecvMessages, hstart]
    rfl
  constructor
  · rintro ⟨evss, nd₁, hrun, hsent, haccepted⟩
    cases hrun with
    | cons htask rest =>
        cases rest
        obtain ⟨nd₂, ev₂, nd₃, ev₃, hrecv', hrehash, hround', rfl⟩ := htask
        obtain ⟨rfl, rfl⟩ := Prod.mk.inj (Except.ok.inj (hrecv.symm.trans hrecv'))
        rw [eq_of_rehashed h hrehash] at hround'
        obtain ⟨rfl, rfl⟩ := Prod.mk.inj (Except.ok.inj (hround.symm.trans hround'))
        refine ⟨?_, haccepted⟩
        simpa using hsent
  · rintro ⟨hsent, haccepted⟩
    have hrehash : nd.Rehashed nd := ⟨_, _, .refl _, .refl _, rfl⟩
    have htask : nd.RunTask [] nd' evs := ⟨nd, [], nd, evs, hrecv, hrehash, hround, rfl⟩
    refine ⟨[evs], nd', .cons htask (.nil nd'), ?_, haccepted⟩
    simpa using hsent

/-- Nodes that behave alike have the same outcome for an empty batch. -/
theorem Node.BehavesLike.outcome_eq
    {nd₁ nd₂ nd₁' nd₂' : Node} {ev₁ ev₂ : List NodeEvent}
    (h : nd₁.BehavesLike nd₂)
    (h₁ : nd₁.Listed)
    (h₂ : nd₂.Listed)
    (hround₁ : nd₁.broadcastRound = .ok (nd₁', ev₁))
    (hround₂ : nd₂.broadcastRound = .ok (nd₂', ev₂)) :
    broadcastMessages ev₁ = broadcastMessages ev₂ ∧
      nd₁'.acceptedBlocks = nd₂'.acceptedBlocks := by
  have hshows := (shows_empty_iff h₂ hround₂ _ _).mpr ⟨rfl, rfl⟩
  exact (shows_empty_iff h₁ hround₁ _ _).mp ((h _ _ _).mp hshows)

/-- A node with `k` `READY` votes for a hash, for which it has sent its own. -/
def readyVotes (n f k : Nat) : Node :=
  { Node.new 0 n f false (fun _ _ => ([], [])) keptRead with
    readyThisRound := AList.singleton [0] k
    readySent := {[0]} }

theorem readyVotes_listed
    (n f k : Nat) :
    (readyVotes n f k).Listed :=
  ⟨rfl, Nat.zero_le 1, Nat.le_refl 1⟩

/-- The hash is accepted if there are more than 2f + 1 votes. -/
theorem broadcastRound_readyVotes
    (n f k : Nat) :
    ∃ nd evs, (readyVotes n f k).broadcastRound = .ok (nd, evs) ∧
      nd.acceptedBlocks = if 2 * f + 1 < k then [[0]] else [] := by
  have hready : announceReady { readyVotes n f k with shouldBroadcast := true } (f + 1) k [0] 3 =
      .ok ({ readyVotes n f k with shouldBroadcast := true }, []) := by
    apply if_neg
    exact fun h => h.2 (Finset.mem_singleton.mpr rfl)
  have hloop : readyLoop [⟨[0], k⟩] { readyVotes n f k with shouldBroadcast := true } =
      if 2 * f + 1 < k then
        .ok (({ readyVotes n f k with shouldBroadcast := true } : Node).deliver [0] [0],
          [.delivered [0]])
      else
        .ok ({ readyVotes n f k with shouldBroadcast := true }, []) := by
    rw [readyLoop]
    show (announceReady { readyVotes n f k with shouldBroadcast := true } (f + 1) k [0] 3 >>= _) = _
    rw [hready]
    rfl
  split_ifs at hloop with hvotes
  · refine ⟨({ readyVotes n f k with shouldBroadcast := true } : Node).deliver [0] [0],
      [.delivered [0]], ?_, (if_pos hvotes).symm⟩
    show (readyLoop [⟨[0], k⟩] { readyVotes n f k with shouldBroadcast := true } >>= _) = _
    rw [hloop]
    rfl
  · refine ⟨{ readyVotes n f k with shouldBroadcast := true }, [], ?_, (if_neg hvotes).symm⟩
    show (readyLoop [⟨[0], k⟩] { readyVotes n f k with shouldBroadcast := true } >>= _) = _
    rw [hloop]
    rfl

/-- With another f the node and its copy accept different blocks for some number of votes. -/
theorem f_eq_of_behavesLike
    {n f n' f' : Nat}
    (h : ∀ k, (readyVotes n f k).BehavesLike (readyVotes n' f' k)) :
    f' = f := by
  have hdelivers : ∀ k, 2 * f + 1 < k ↔ 2 * f' + 1 < k := by
    intro k
    obtain ⟨nd₁, ev₁, hround₁, haccepted₁⟩ := broadcastRound_readyVotes n f k
    obtain ⟨nd₂, ev₂, hround₂, haccepted₂⟩ := broadcastRound_readyVotes n' f' k
    have hsame := ((h k).outcome_eq (readyVotes_listed n f k) (readyVotes_listed n' f' k)
      hround₁ hround₂).2
    rw [haccepted₁, haccepted₂] at hsame
    exact iff_of_answer_eq hsame
  have hle := (hdelivers (2 * f + 2)).mp (by omega)
  have hge := (hdelivers (2 * f' + 2)).mpr (by omega)
  omega

/-- A node with `k` `ECHO` votes for a finalized block. -/
def echoVotes (n f k : Nat) : Node :=
  { Node.new 0 n f false (fun _ _ => ([], [])) keptRead with
    echoThisRound := AList.singleton [0] k
    blkList := AList.singleton [0] { isMutable := false } }

theorem echoVotes_listed
    (n f k : Nat) :
    (echoVotes n f k).Listed :=
  ⟨rfl, Nat.le_refl 1, Nat.zero_le 1⟩

theorem echoVotes_supplied
    (n f k : Nat) :
    (echoVotes n f k).Supplied where
  key := keyGen_wellFormed _
  frozen h b hb := by
    by_cases heq : h = [0]
    · subst heq
      obtain rfl : { isMutable := false } = b := Option.some.inj hb
      rfl
    · have hnone : (echoVotes n f k).blkList.lookup h = none := by
        rw [AList.lookup_eq_none]
        exact fun hmem => heq (List.mem_singleton.mp hmem)
      rw [hnone] at hb
      cases hb
  send hne := absurd rfl hne
  echo h hh := hh
  ready h hh := absurd hh (AList.notMem_empty h)

variable [LawfulPlatform P]

/-- A `READY` is sent if there are at least (n + f + 1) / 2 votes. -/
theorem broadcastRound_echoVotes
    (n f k : Nat) :
    ∃ nd evs, (echoVotes n f k).broadcastRound = .ok (nd, evs) ∧
      (broadcastMessages evs = [] ↔ k < (n + f + 1) / 2) := by
  set nd : Node := { echoVotes n f k with shouldBroadcast := true } with hnd
  have hsupplied : nd.Supplied := { echoVotes_supplied n f k with }
  obtain ⟨nd₁, ev₁, hone⟩ := exists_announceReady hsupplied (List.mem_singleton.mpr rfl)
    ((n + f + 1) / 2) k 2
  have hready : nd₁.readyThisRound.entries = [] := by
    rcases announceReady_cases hone with ⟨_, rfl, _⟩ | ⟨_, _, rfl, _⟩ <;> rfl
  have hround : (echoVotes n f k).broadcastRound = .ok (nd₁, ev₁) := by
    show (echoLoop [⟨[0], k⟩] nd >>= _) = _
    have hloop : echoLoop [⟨[0], k⟩] nd = .ok (nd₁, ev₁) := by
      rw [echoLoop]
      show (nd.announceReady ((n + f + 1) / 2) k [0] 2 >>= _) = _
      rw [hone]
      show Except.ok (nd₁, ev₁ ++ []) = _
      rw [List.append_nil]
    rw [hloop]
    show (readyLoop nd₁.readyThisRound.entries nd₁ >>= _) = _
    rw [hready]
    show Except.ok (nd₁, [] ++ ev₁ ++ []) = _
    rw [List.nil_append, List.append_nil]
  refine ⟨nd₁, ev₁, hround, ?_⟩
  rcases announceReady_cases hone with ⟨hcond, _, rfl⟩ | ⟨hle, _, _, m, _, rfl⟩
  · refine ⟨fun _ => ?_, fun _ => rfl⟩
    by_contra hnot
    exact hcond ⟨Nat.le_of_not_lt hnot, Finset.notMem_empty _⟩
  · refine ⟨fun h => ?_, fun hlt => absurd hle (Nat.not_le_of_lt hlt)⟩
    cases h

/-- With another first threshold they send different messages for some number of votes. -/
theorem threshold_eq_of_behavesLike
    {n f n' f' : Nat}
    (h : ∀ k, (echoVotes n f k).BehavesLike (echoVotes n' f' k)) :
    (n' + f' + 1) / 2 = (n + f + 1) / 2 := by
  have hsilent : ∀ k, k < (n + f + 1) / 2 ↔ k < (n' + f' + 1) / 2 := by
    intro k
    obtain ⟨nd₁, ev₁, hround₁, hsent₁⟩ := broadcastRound_echoVotes n f k
    obtain ⟨nd₂, ev₂, hround₂, hsent₂⟩ := broadcastRound_echoVotes n' f' k
    have hsame := ((h k).outcome_eq (echoVotes_listed n f k) (echoVotes_listed n' f' k)
      hround₁ hround₂).1
    rw [← hsent₁, ← hsent₂, hsame]
  have hle := hsilent ((n' + f' + 1) / 2)
  have hge := hsilent ((n + f + 1) / 2)
  omega

/-- What a new node sends for a batch of copies of one vote. -/
theorem shows_votes_of_new
    {n f : Nat}
    (hpos : 0 < (n + f + 1) / 2)
    {hd : Header} {m : Message}
    (hblock : OfBlock hd [] m.block)
    (hdigest : ∃ digest, m.block.getDigest = .ok digest)
    (hself : m.block.ValidUnder m.block.validatorNextPublicKey)
    (id : UInt16) (isLead : Bool) (urandom : Nat → Draw) (erasedRead : Nat → Str → Str) (k : Nat) :
    (∃ sent accepted,
      (Node.new id n f isLead urandom erasedRead).Shows [List.replicate k m] sent accepted) ∧
      ∀ sent accepted,
        (Node.new id n f isLead urandom erasedRead).Shows [List.replicate k m] sent accepted →
        sent.map (fun m => m.type) =
          (Tally.task ((n + f + 1) / 2) f {} (List.replicate k m.type)).2 := by
  set nd : Node := Node.new id n f isLead urandom erasedRead with hnd
  have hpasses : Passes hd [] nd := fun b hb => passesVerify_of_empty hb.txs nd
  have hnone : GoodBatch hd [] nd [] := ⟨trivial, by simp⟩
  have hgood : GoodBatch hd [] nd (List.replicate k m) :=
    hnone.append_replicate ⟨hblock, hdigest⟩ hself rfl k
  obtain ⟨_, nd', outs, hiff, _, _, _, hsends, _⟩ :=
    runTask_iff_tally (tracks_new id n f isLead urandom erasedRead) hpasses hgood hpos
  have htypes := hsends.types
  rw [List.map_replicate] at htypes
  have hsent := (taskEvents_spec (List.replicate k m) outs nd.f
    (Tally.recv {} ((List.replicate k m).map fun m => m.type)).ready hd.getID).1
  constructor
  · exact ⟨_, _, [_], nd', .cons ((hiff nd' _).mpr ⟨rfl, rfl⟩) (.nil nd'), rfl, rfl⟩
  · rintro sent accepted ⟨evss, nd₁, hrun, rfl, _⟩
    cases hrun with
    | cons htask rest =>
        cases rest
        obtain ⟨rfl, rfl⟩ := (hiff _ _).mp htask
        rw [List.flatten_singleton, hsent]
        exact htypes

/-- A new node and its copy answer copies of one vote alike only if f and the threshold agree. -/
theorem sizes_eq_of_new_behavesLike
    {n f n' f' : Nat}
    (hpos : 0 < (n + f + 1) / 2)
    (hpos' : 0 < (n' + f' + 1) / 2)
    {id : UInt16} {isLead : Bool} {urandom : Nat → Draw}
    {erasedRead : Nat → Str → Str}
    (h : (Node.new id n f isLead urandom erasedRead).BehavesLike
      (Node.new id n' f' isLead urandom erasedRead)) :
    f' = f ∧ (n' + f' + 1) / 2 = (n + f + 1) / 2 := by
  have hanswer : ∀ (type : MsgType) (k : Nat), type ≠ .other →
      (Tally.task ((n + f + 1) / 2) f {} (List.replicate k type)).2 =
        (Tally.task ((n' + f' + 1) / 2) f' {} (List.replicate k type)).2 := by
    intro type k htype
    obtain ⟨m, _, _, rfl, hblock, hdigest, _, hself⟩ :=
      exists_selfSigned (b := { isMutable := false }) rfl ⟨[], rfl⟩ 1 htype
    obtain ⟨⟨sent, accepted, hshows⟩, hall⟩ :=
      shows_votes_of_new hpos hblock hdigest hself id isLead urandom erasedRead k
    obtain ⟨_, hall'⟩ :=
      shows_votes_of_new hpos' hblock hdigest hself id isLead urandom erasedRead k
    rw [← hall sent accepted hshows, ← hall' sent accepted ((h _ _ _).mpr hshows)]
  have hready : ∀ k, f + 1 ≤ k ↔ f' + 1 ≤ k := by
    intro k
    have hsame := hanswer .ready k nofun
    rw [Tally.task_readys hpos, Tally.task_readys hpos'] at hsame
    exact iff_of_answer_eq hsame
  have hecho : ∀ k, (n + f + 1) / 2 ≤ k ↔ (n' + f' + 1) / 2 ≤ k := by
    intro k
    have hsame := hanswer .echo k nofun
    rw [Tally.task_echoes, Tally.task_echoes] at hsame
    exact iff_of_answer_eq hsame
  have hf := (hready (f + 1)).mp (Nat.le_refl _)
  have hf' := (hready (f' + 1)).mpr (Nat.le_refl _)
  have ht := (hecho ((n + f + 1) / 2)).mp (Nat.le_refl _)
  have ht' := (hecho ((n' + f' + 1) / 2)).mpr (Nat.le_refl _)
  omega

/--
All nodes of size `n` and `f` are behaved like by their copies exactly when the
memory of the copy held the same f and an n with the same first threshold.  For
a committee that is not empty a single new node tells the difference.
-/
theorem copied_node_behaves_like_original_iff
    (n f n' f' : UInt16) :
    ((∀ nd : Node, nd.n = n.toNat → nd.f = f.toNat → nd.BehavesLike (nd.copyConstruct n' f')) ↔
      f' = f ∧ (n'.toNat + f'.toNat + 1) / 2 = (n.toNat + f.toNat + 1) / 2) ∧
    ∀ id isLead urandom erasedRead, 0 < n.toNat + f.toNat → 0 < n'.toNat + f'.toNat →
      let nd := Node.new id n.toNat f.toNat isLead urandom erasedRead
      (nd.BehavesLike (nd.copyConstruct n' f') ↔
        f' = f ∧ (n'.toNat + f'.toNat + 1) / 2 = (n.toNat + f.toNat + 1) / 2) := by
  have hcopies : f' = f ∧ (n'.toNat + f'.toNat + 1) / 2 = (n.toNat + f.toNat + 1) / 2 →
      ∀ nd : Node, nd.n = n.toNat → nd.f = f.toNat → nd.BehavesLike (nd.copyConstruct n' f') := by
    rintro ⟨rfl, hsize⟩ nd hn hf
    have hcopy : nd.copyConstruct n' f' = nd.resize n'.toNat := by
      rw [copyConstruct, resize, ← hf]
    rw [hcopy]
    apply behavesLike_resize
    rw [hf, hn]
    exact hsize
  refine ⟨⟨?_, hcopies⟩, ?_⟩
  · intro h
    have hready : ∀ k, (readyVotes n.toNat f.toNat k).BehavesLike
        (readyVotes n'.toNat f'.toNat k) :=
      fun k => h (readyVotes n.toNat f.toNat k) rfl rfl
    have hecho : ∀ k, (echoVotes n.toNat f.toNat k).BehavesLike
        (echoVotes n'.toNat f'.toNat k) :=
      fun k => h (echoVotes n.toNat f.toNat k) rfl rfl
    exact ⟨UInt16.toNat_inj.mp (f_eq_of_behavesLike hready), threshold_eq_of_behavesLike hecho⟩
  · intro id isLead urandom erasedRead hcommittee hcommittee' nd
    refine ⟨?_, fun hsizes => hcopies hsizes nd rfl rfl⟩
    intro h
    have hsizes := sizes_eq_of_new_behavesLike (by omega) (by omega) h
    exact ⟨UInt16.toNat_inj.mp hsizes.1, hsizes.2⟩

end Differences

/-- A new node of four validators. -/
def nodeOfFour [Platform] : Node :=
  Node.new 0 4 1 false (fun _ _ => (equalBytes 0, equalBytes 0)) keptRead

/-- A copy whose memory held 5 instead of 4 validators behaves like the original. -/
theorem copied_node_of_four :
    letI := textPlatform
    nodeOfFour.BehavesLike (nodeOfFour.copyConstruct 5 1) := by
  let _ := textPlatform
  exact ((copied_node_behaves_like_original_iff 4 1 5 1).2 _ _ _ _ (by decide) (by decide)).mpr
    (by decide)

/--
A copy whose memory held f = 0 instead of 1 answers the first `READY` it gets
with its own, the original does not.
-/
theorem copied_node_votes_too_early :
    letI := textPlatform
    ¬ nodeOfFour.BehavesLike (nodeOfFour.copyConstruct 4 0) := by
  let _ := textPlatform
  intro h
  have hsizes := sizes_eq_of_new_behavesLike (by decide) (by decide) h
  exact absurd hsizes.1 (by decide)

end CosiCoin
