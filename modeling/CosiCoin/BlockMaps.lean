import CosiCoin.EchoPerBatch
import CosiCoin.FrozenBlocks

/-!
# COSICOIN: the block maps of a node

A node keeps the blocks it has received in `blk_list_` and, with the collected
signatures, in `blocks_`, and the hashes that passed the verification in
`verified_blocks_`.  These three have the same keys (`Represents`), every hash
the node may still have to look up is one of them, and what is stored under a
key is a finalized block of that header.

So the inserting `operator[]` of the source never inserts: `broadcastRound` signs
blocks it has stored, which never throws, and what it broadcasts has the contents
of a stored block.

`getConsensusBlocks` is the one reader outside the rounds.  It looks up the keys in
`accepted_blocks_`, which a delivery reads from an erased entry, so the lives
considered here call it only while all of these are stored (`TakesStored`).
-/

namespace CosiCoin

open LabelledRuns Node

section Representation

variable [P : Platform]

/-- The block under a key is finalized and has that key as its header ID. -/
def StoredUnder (blocks : AList fun _ : Str => Block) : Prop :=
  ∀ h b, blocks.lookup h = some b → b.isMutable = false ∧ b.header.getID = h

/-- The maps have the same keys, and every hash in use is one of them. -/
structure Node.Represents (nd : Node) : Prop where
  blocks : ∀ h, h ∈ nd.blocks ↔ h ∈ nd.blkList
  verified : ∀ h, h ∈ nd.verifiedBlocks ↔ h ∈ nd.blkList
  echo : ∀ h ∈ nd.echoThisRound, h ∈ nd.blkList
  ready : ∀ h ∈ nd.readyThisRound, h ∈ nd.blkList
  readySent : ∀ h ∈ nd.readySent, h ∈ nd.blkList
  send : nd.sendThisRound ≠ [] → nd.sendThisRound ∈ nd.blkList
  listed : StoredUnder nd.blkList
  received : StoredUnder nd.blocks

/-- `getConsensusBlocks` is only called while every hash it looks up is stored. -/
def TakesStored (s : NodeLife) : LifeAction → Prop
  | .getConsensusBlocks _ => ∀ h ∈ s.node.acceptedBlocks, (s.node.blocks.lookup h).isSome = true
  | _ => True

/-- Every message that is broadcast carries a block the node has stored. -/
def Node.SendsStored (nd : Node) (evs : List NodeEvent) : Prop :=
  ∀ m, .broadcast m ∈ evs → ∃ h b, nd.blkList.lookup h = some b ∧ b.SameCore m.block

/--
At every point of a sequence of batches the maps represent the received blocks,
every batch and every round after it goes through without an exception, and the
rounds only broadcast stored blocks.
-/
def Node.Sound : List (List Message) → Node → Prop
  | [], nd => nd.Represents
  | msgs :: batches, nd =>
      nd.Represents ∧
      ∃ nd₁ ev₁, nd.updateRecvMessages msgs = .ok (nd₁, ev₁) ∧ nd₁.Represents ∧
        ∀ nd₂, nd₁.Rehashed nd₂ →
          ∃ nd' ev₂, nd₂.broadcastRound = .ok (nd', ev₂) ∧ nd₂.SendsStored ev₂ ∧
            nd'.Sound batches

theorem StoredUnder.insert
    {blocks : AList fun _ : Str => Block} {k : Str} {v : Block}
    (h : StoredUnder blocks)
    (hv : v.isMutable = false ∧ v.header.getID = k) :
    StoredUnder (blocks.insert k v) := by
  intro k' b hb
  by_cases hk : k' = k
  · subst hk
    rw [AList.lookup_insert] at hb
    rwa [← Option.some.inj hb]
  · rw [AList.lookup_insert_ne hk] at hb
    exact h k' b hb

/-- What is found under a key, or else a finalized block of that header, is stored under it. -/
theorem StoredUnder.lookup_getD
    {blocks : AList fun _ : Str => Block} {b : Block}
    (h : StoredUnder blocks)
    (hfrozen : b.isMutable = false) :
    Block.isMutable ((blocks.lookup b.header.getID).getD b) = false ∧
      Header.getID (Block.header ((blocks.lookup b.header.getID).getD b)) = b.header.getID := by
  cases hold : blocks.lookup b.header.getID with
  | none => exact ⟨hfrozen, rfl⟩
  | some old => exact h _ old hold

theorem receive_blocks
    (nd : Node) (m : Message) :
    ∃ sig, (nd.receive m).blocks = nd.blocks.insert m.block.header.getID
      (((nd.blocks.lookup m.block.header.getID).getD m.block).addValidatorSignature sig) := by
  rw [Node.receive, countMessage_eq]
  exact ⟨_, rfl⟩

theorem represents_new
    (id : UInt16) (n f : Nat) (isLead : Bool) (urandom : Nat → Draw)
    (erasedRead : Nat → Str → Str) :
    (Node.new id n f isLead urandom erasedRead).Represents where
  blocks _ := Iff.rfl
  verified h :=
    ⟨fun hh => absurd hh (Finset.notMem_empty h), fun hh => absurd hh (AList.notMem_empty h)⟩
  echo _ hh := hh
  ready _ hh := hh
  readySent h hh := absurd hh (Finset.notMem_empty h)
  send hne := absurd rfl hne
  listed h b hb := by cases hb
  received h b hb := by cases hb

/-- An accepted message enters its block under the same key into every map. -/
theorem Node.Represents.receive
    {nd : Node} {m : Message}
    (h : nd.Represents)
    (hfrozen : m.block.isMutable = false) :
    (nd.receive m).Represents := by
  obtain ⟨hecho, hready, hsend, hsent⟩ := receive_counters nd m
  obtain ⟨hverified, _⟩ := receive_verification nd m
  obtain ⟨sig, hblocks⟩ := receive_blocks nd m
  have hlist := receive_blkList nd m
  have hkeys : ∀ k, k ∈ (nd.receive m).blkList ↔ k = m.block.header.getID ∨ k ∈ nd.blkList := by
    intro k
    rw [hlist]
    exact AList.mem_insert _
  have hcounter : ∀ {c : Counter} {type : MsgType}, (∀ k ∈ c, k ∈ nd.blkList) →
      ∀ k ∈ (if m.type = type then c.increment m.block.header.getID else c),
        k ∈ (nd.receive m).blkList := by
    intro c type hc k hk
    rw [hkeys]
    split_ifs at hk
    · exact ((AList.mem_insert _).mp hk).imp_right (hc k)
    · exact Or.inr (hc k hk)
  refine ⟨?_, ?_, ?_, ?_, ?_, ?_, ?_, ?_⟩
  · intro k
    rw [hkeys, hblocks, AList.mem_insert, h.blocks]
  · intro k
    rw [hkeys, hverified, Finset.mem_insert, h.verified]
  · rw [hecho]
    exact hcounter h.echo
  · rw [hready]
    exact hcounter h.ready
  · intro k hk
    rw [hsent] at hk
    exact (hkeys k).mpr (Or.inr (h.readySent k hk))
  · intro hne
    rw [hsend] at hne ⊢
    rw [hkeys]
    split_ifs at hne ⊢
    · exact Or.inl rfl
    · exact Or.inr (h.send hne)
  · rw [hlist]
    exact h.listed.insert (h.listed.lookup_getD hfrozen)
  · rw [hblocks]
    exact h.received.insert (h.received.lookup_getD hfrozen)

/-- A part of a round: the maps stay, the hashes in use stay among their keys. -/
structure Node.RoundKeeps (nd nd' : Node) (evs : List NodeEvent) : Prop where
  blkList : nd'.blkList = nd.blkList
  represents : nd'.Represents
  stored : nd.SendsStored evs

theorem Node.RoundKeeps.append
    {nd nd₁ nd₂ : Node} {ev₁ ev₂ : List NodeEvent}
    (h₁ : nd.RoundKeeps nd₁ ev₁)
    (h₂ : nd₁.RoundKeeps nd₂ ev₂) :
    nd.RoundKeeps nd₂ (ev₁ ++ ev₂) where
  blkList := h₂.blkList.trans h₁.blkList
  represents := h₂.represents
  stored m hm := by
    rcases List.mem_append.mp hm with hm | hm
    · exact h₁.stored m hm
    · rw [← h₁.blkList]
      exact h₂.stored m hm

/-- Nothing happens. -/
theorem Node.Represents.keeps
    {nd : Node}
    (h : nd.Represents) :
    nd.RoundKeeps nd [] :=
  ⟨rfl, h, fun _ hm => absurd hm List.not_mem_nil⟩

/-- A message signed for a key carries the block stored under it. -/
theorem sendsStored_of_signs
    {nd : Node} {k : Str} {type : MsgType} {round : UInt32} {m : Message}
    (hk : k ∈ nd.blkList)
    (hm : nd.Signs type ((nd.blkList.lookup k).getD {}) round m) :
    nd.SendsStored [.broadcast m] := by
  obtain ⟨b, hb⟩ := Option.isSome_iff_exists.mp (AList.lookup_isSome.mpr hk)
  intro m' hm'
  obtain rfl := NodeEvent.broadcast.inj (List.mem_singleton.mp hm')
  obtain ⟨_, digest, rfl, _⟩ := hm
  refine ⟨k, b, hb, ?_⟩
  rw [hb]
  exact ⟨rfl, rfl, rfl, rfl⟩

theorem announceReady_keeps
    {nd nd' : Node} {threshold nbRecv : Nat} {k : Str} {round : UInt32} {evs : List NodeEvent}
    (h : nd.Represents)
    (hk : k ∈ nd.blkList)
    (hok : nd.announceReady threshold nbRecv k round = .ok (nd', evs)) :
    nd.RoundKeeps nd' evs := by
  rcases announceReady_cases hok with ⟨_, rfl, rfl⟩ | ⟨_, _, rfl, m, hm, rfl⟩
  · exact h.keeps
  · refine ⟨rfl, { h with readySent := ?_ }, sendsStored_of_signs hk hm⟩
    intro k' hk'
    rcases Finset.mem_insert.mp hk' with rfl | hk'
    · exact hk
    · exact h.readySent k' hk'

theorem sendEcho_keeps
    {nd nd' : Node} {evs : List NodeEvent}
    (h : nd.Represents)
    (hok : nd.sendEcho = .ok (nd', evs)) :
    nd.RoundKeeps nd' evs := by
  rcases sendEcho_cases hok with ⟨_, rfl, rfl⟩ | ⟨hsend, rfl, m, hm, rfl⟩
  · exact h.keeps
  · exact ⟨rfl, { h with send := fun hne => absurd rfl hne },
      sendsStored_of_signs (h.send hsend) hm⟩

/-- A delivery forgets a key, whatever the erased entry reads as. -/
theorem deliver_keeps
    {nd : Node} (k recorded : Str)
    (h : nd.Represents) :
    nd.RoundKeeps (nd.deliver k recorded) [.delivered k] := by
  refine ⟨rfl, { h with echo := ?_, ready := ?_ }, ?_⟩
  · exact fun k' hk' => h.echo k' (AList.mem_erase.mp hk').2
  · exact fun k' hk' => h.ready k' (AList.mem_erase.mp hk').2
  · intro m hm
    cases List.mem_singleton.mp hm

theorem echoLoop_keeps
    {entries : List ((_ : Str) × Nat)} :
    ∀ {nd nd' : Node} {evs : List NodeEvent}, nd.Represents →
      (∀ e ∈ entries, e.1 ∈ nd.blkList) →
      echoLoop entries nd = .ok (nd', evs) → nd.RoundKeeps nd' evs := by
  induction entries with
  | nil =>
      intro nd nd' evs h _ hok
      obtain ⟨rfl, rfl⟩ := Prod.mk.inj (Except.ok.inj hok)
      exact h.keeps
  | cons e entries ih =>
      obtain ⟨k, nbRecv⟩ := e
      intro nd nd' evs h hkeys hok
      obtain ⟨⟨nd₁, ev₁⟩, hone, hok⟩ := bind_eq_ok hok
      obtain ⟨⟨nd₂, ev₂⟩, hloop, hok⟩ := bind_eq_ok hok
      obtain ⟨rfl, rfl⟩ := Prod.mk.inj (Except.ok.inj hok)
      obtain ⟨hk, hrest⟩ := List.forall_mem_cons.mp hkeys
      have hfirst := announceReady_keeps h hk hone
      rw [← hfirst.blkList] at hrest
      exact hfirst.append (ih hfirst.represents hrest hloop)

theorem readyLoop_keeps
    {entries : List ((_ : Str) × Nat)} :
    ∀ {nd nd' : Node} {evs : List NodeEvent}, nd.Represents →
      (∀ e ∈ entries, e.1 ∈ nd.blkList) →
      readyLoop entries nd = .ok (nd', evs) → nd.RoundKeeps nd' evs := by
  induction entries with
  | nil =>
      intro nd nd' evs h _ hok
      obtain ⟨rfl, rfl⟩ := Prod.mk.inj (Except.ok.inj hok)
      exact h.keeps
  | cons e entries ih =>
      obtain ⟨k, nbRecv⟩ := e
      intro nd nd' evs h hkeys hok
      obtain ⟨⟨nd₁, ev₁⟩, hone, hok⟩ := bind_eq_ok hok
      obtain ⟨hk, hrest⟩ := List.forall_mem_cons.mp hkeys
      have hfirst := announceReady_keeps h hk hone
      rw [← hfirst.blkList] at hrest
      dsimp only at hok
      split_ifs at hok
      · obtain ⟨rfl, rfl⟩ := Prod.mk.inj (Except.ok.inj hok)
        exact hfirst.append (deliver_keeps _ _ hfirst.represents)
      · obtain ⟨⟨nd₂, ev₂⟩, hloop, hok⟩ := bind_eq_ok hok
        obtain ⟨rfl, rfl⟩ := Prod.mk.inj (Except.ok.inj hok)
        exact hfirst.append (ih hfirst.represents hrest hloop)

/-- A round keeps the maps and broadcasts stored blocks. -/
theorem broadcastRound_keeps
    {nd nd' : Node} {evs : List NodeEvent}
    (h : nd.Represents)
    (hok : nd.broadcastRound = .ok (nd', evs)) :
    nd.RoundKeeps nd' evs := by
  obtain ⟨⟨nd₁, ev₁⟩, hecho, hok⟩ := bind_eq_ok hok
  obtain ⟨⟨nd₂, ev₂⟩, hloop₁, hok⟩ := bind_eq_ok hok
  obtain ⟨⟨nd₃, ev₃⟩, hloop₂, hok⟩ := bind_eq_ok hok
  obtain ⟨rfl, rfl⟩ := Prod.mk.inj (Except.ok.inj hok)
  have hmem : ∀ {c : Counter} {e : (_ : Str) × Nat}, e ∈ c.entries → e.1 ∈ c :=
    fun he => AList.mem_keys.mpr (List.mem_map_of_mem he)
  have h₀ : Node.Represents { nd with shouldBroadcast := true } :=
    { h with }
  have h₁ := sendEcho_keeps h₀ hecho
  have h₂ := echoLoop_keeps h₁.represents (fun e he => h₁.represents.echo _ (hmem he)) hloop₁
  have h₃ := readyLoop_keeps h₂.represents (fun e he => h₂.represents.ready _ (hmem he)) hloop₂
  have hround := (h₁.append h₂).append h₃
  exact ⟨hround.blkList, hround.represents, hround.stored⟩

theorem Node.Represents.rehashed
    {nd nd' : Node}
    (h : nd.Represents)
    (hrehash : nd.Rehashed nd') :
    nd'.Represents := by
  obtain ⟨echo, ready, hecho, hready, rfl⟩ := hrehash
  exact { h with
    echo := fun k hk => h.echo k ((AList.mem_of_perm hecho).mp hk)
    ready := fun k hk => h.ready k ((AList.mem_of_perm hready).mp hk) }

theorem recvMessage_represents
    {nd nd' : Node} {m : Message} {evs : List NodeEvent}
    (h : nd.Represents)
    (hrecv : nd.recvMessage m = .ok (nd', evs)) :
    nd'.Represents := by
  obtain ⟨digest, _, _, hdigest, _⟩ := recvMessage_eq_ok hrecv
  rcases recvMessage_cases hrecv with ⟨_, _, rfl⟩ | ⟨_, _, rfl⟩
  · exact { h with }
  · exact h.receive (Block.frozen_of_getDigest hdigest)

theorem recvMessages_represents
    {msgs : List Message} :
    ∀ {nd nd' : Node} {evs : List NodeEvent}, nd.Represents →
      recvMessages msgs nd = .ok (nd', evs) → nd'.Represents := by
  induction msgs with
  | nil =>
      intro nd nd' evs h hok
      obtain ⟨rfl, rfl⟩ := Prod.mk.inj (Except.ok.inj hok)
      exact h
  | cons m msgs ih =>
      intro nd nd' evs h hok
      obtain ⟨⟨nd₁, ev₁⟩, hm, hok⟩ := bind_eq_ok hok
      obtain ⟨⟨nd₂, ev₂⟩, hrest, hok⟩ := bind_eq_ok hok
      obtain ⟨rfl, rfl⟩ := Prod.mk.inj (Except.ok.inj hok)
      exact ih (recvMessage_represents h hm) hrest

theorem updateRecvMessages_represents
    {nd nd' : Node} {msgs : List Message} {evs : List NodeEvent}
    (h : nd.Represents)
    (hrecv : nd.updateRecvMessages msgs = .ok (nd', evs)) :
    nd'.Represents := by
  have hbatch : Node.Represents { nd with sendThisRound := [] } :=
    { h with send := fun hne => absurd rfl hne }
  exact recvMessages_represents hbatch hrecv

/-- Looking up stored hashes does not enter anything. -/
theorem Node.Represents.getConsensusBlocks
    {nd : Node}
    (h : nd.Represents)
    (hknown : ∀ k ∈ nd.acceptedBlocks, (nd.blocks.lookup k).isSome = true)
    (erase : Bool) :
    (nd.getConsensusBlocks erase).2.Represents := by
  have hsame := @getConsensusBlocks_known nd erase hknown
  have hblocks : ∀ k, k ∈ (nd.getConsensusBlocks erase).2.blocks ↔ k ∈ nd.blkList := by
    intro k
    rw [← h.blocks, ← AList.lookup_isSome, ← AList.lookup_isSome, hsame]
  have hreceived : StoredUnder (nd.getConsensusBlocks erase).2.blocks := by
    intro k b hb
    rw [hsame] at hb
    exact h.received k b hb
  cases erase with
  | false => exact { h with blocks := hblocks, received := hreceived }
  | true => exact { h with blocks := hblocks, received := hreceived }

/-- Every step of the life of a node keeps the maps. -/
theorem represents_step
    {s s' : NodeLife} {a : LifeAction}
    (h : s.node.Represents)
    (hstored : TakesStored s a)
    (hstep : LifeStep s a s') :
    s'.node.Represents := by
  cases hstep with
  | batch =>
      exact { h with send := fun hne => absurd rfl hne }
  | receive m nd evs hrecv => exact recvMessage_represents h hrecv
  | round nd₁ nd evs hrehash hround =>
      exact (broadcastRound_keeps (h.rehashed hrehash) hround).represents
  | runProtocol broadcast =>
      exact { h with }
  | setUTXOlists utxolist walletIds =>
      exact { h with }
  | propose b nd evs hpropose =>
      obtain ⟨rfl, _⟩ := propose_eq_ok hpropose
      exact { h with }
  | getConsensusBlocks erase => exact h.getConsensusBlocks hstored erase

theorem represents_of_reachable
    {n f : Nat} {s : NodeLife}
    (h : Reachable (LifeInit n f) (Guarded TakesStored LifeStep) s) :
    s.node.Represents := by
  have hinit : ∀ s : NodeLife, LifeInit n f s → s.node.Represents := by
    rintro _ ⟨id, isLead, urandom, erasedRead, rfl⟩
    exact represents_new id n f isLead urandom erasedRead
  exact Reachable.invariant hinit (fun _ _ _ hs hstep => represents_step hs hstep.1 hstep.2) h

variable [LawfulPlatform P] [UnicodeJson P]

/-- From such a state on, a node goes soundly through messages read from the wire. -/
theorem sound_of_represents
    {n f : Nat} {batches : List (List Message)} :
    ∀ {s : NodeLife}, LifeReachable n f s → s.node.Represents →
      (∀ msgs ∈ batches, ∀ m ∈ msgs, ∃ p, Message.fromProtoMessage p = .ok m) →
      s.node.Sound batches := by
  induction batches with
  | nil =>
      intro s _ hrepresents _
      exact hrepresents
  | cons msgs batches ih =>
      intro s hs hrepresents hread
      obtain ⟨nd₁, ev₁, hrecv, _⟩ := completes_of_reachable hs hread
      have hreceived := updateRecvMessages_represents hrepresents hrecv
      refine ⟨hrepresents, nd₁, ev₁, hrecv, hreceived, ?_⟩
      intro nd₂ hrehash
      obtain ⟨nd, ev₂, hround, htask⟩ := exists_round hs hrecv hrehash
      have hkeeps := broadcastRound_keeps (hreceived.rehashed hrehash) hround
      refine ⟨nd, ev₂, hround, hkeeps.stored, ?_⟩
      exact ih (hs.task htask) hkeeps.represents
        fun msgs' hmsgs' => hread msgs' (List.mem_cons_of_mem _ hmsgs')

/--
In every state of a life in which only stored hashes are looked up, a node goes
soundly through every sequence of batches of messages read from the wire.
-/
theorem block_maps_represent_received_blocks
    (n f : Nat)
    (batches : List (List Message)) :
    ∀ s : NodeLife, Reachable (LifeInit n f) (Guarded TakesStored LifeStep) s →
      (∀ msgs ∈ batches, ∀ m ∈ msgs, ∃ p, Message.fromProtoMessage p = .ok m) →
      s.node.Sound batches :=
  fun _ hs => sound_of_represents (hs.mono fun _ _ _ h => h.2) (represents_of_reachable hs)

end Representation

/-- A new node goes soundly through a proposal and its repetition. -/
theorem proposals_soundly_stored :
    letI := textPlatform
    ∃ m : Message, (∃ p, Message.fromProtoMessage p = .ok m) ∧ m.type = .send ∧
      (Node.new 0 4 1 false (fun _ _ => (equalBytes 0, equalBytes 0)) keptRead).Sound
        [[m], [m]] := by
  let _ := textPlatform
  obtain ⟨m, p, hp, htype, _⟩ := exists_emptySend (b := emptyBlock) rfl rfl 1
  refine ⟨m, ⟨p, hp⟩, htype, ?_⟩
  refine block_maps_represent_received_blocks 4 1 [[m], [m]]
    { node := Node.new 0 4 1 false (fun _ _ => (equalBytes 0, equalBytes 0)) keptRead }
    (.start ⟨_, _, _, _, rfl⟩) ?_
  simpa using ⟨p, hp⟩

end CosiCoin
