import CosiCoin.BrachaNodeSteps

/-!
# COSICOIN: a node and its history

The counters of a node are erased on delivery and its block maps keep only the
first block of a hash, so what a node has seen is read off its history: the list
of its events, newest first.  `Recorded nd hist` ties the fields of a node to its
history and is preserved by every step (`Recorded.step`); so is `HoldsFirst`, as long
as no accepted blocks are taken from the node.
-/

namespace CosiCoin

open Node

section Histories

variable [Platform]

/-- A counted message of the given type and hash. -/
def isVote (type : MsgType) (h : Str) : NodeEvent → Bool
  | .counted m => m.type = type ∧ m.block.header.getID = h
  | _ => false

/-- A broadcast `READY` for the hash. -/
def isReadyFor (h : Str) : NodeEvent → Bool
  | .broadcast m => m.type = .ready ∧ m.block.header.getID = h
  | _ => false

/-- How many messages of a type were counted for a hash. -/
def votes (type : MsgType) (h : Str) (hist : List NodeEvent) : Nat :=
  hist.countP (isVote type h)

/-- How often a node has broadcast `READY` for a hash. -/
def readyBroadcasts (h : Str) (hist : List NodeEvent) : Nat :=
  hist.countP (isReadyFor h)

/-- How often a node has accepted a hash. -/
def deliveries (h : Str) (hist : List NodeEvent) : Nat :=
  hist.countP fun e => e = .delivered h

/-- The message counted first for a hash. -/
def firstCounted (h : Str) : List NodeEvent → Option Message
  | [] => none
  | e :: hist =>
      match firstCounted h hist, e with
      | some m, _ => some m
      | none, .counted m => if m.block.header.getID = h then some m else none
      | none, _ => none

/-- What the agreement is about: the header and the transactions. -/
def Block.body (b : Block) : Header × List Transaction :=
  (b.header, b.txs)

/-- The fields of a node are what its history makes them. -/
structure Recorded (nd : Node) (hist : List NodeEvent) : Prop where
  echo : ∀ h, nd.echoThisRound.count h ≤ votes .echo h hist
  ready : ∀ h, (2 * nd.f + 2) * deliveries h hist + nd.readyThisRound.count h ≤
    votes .ready h hist
  send : nd.sendThisRound ≠ [] → 0 < votes .send nd.sendThisRound hist
  readySent : ∀ h, readyBroadcasts h hist ≤ if h ∈ nd.readySent then 1 else 0
  blkList : ∀ h, (nd.blkList.lookup h).map Block.body =
    (firstCounted h hist).map fun m => m.block.body
  voted : ∀ h, .delivered h ∈ hist → .delivered nd.votedHash ∈ hist

/-- Under every hash the node holds the block it counted first. -/
def HoldsFirst (nd : Node) (hist : List NodeEvent) : Prop :=
  ∀ h, (nd.blocks.lookup h).map Block.body = (firstCounted h hist).map fun m => m.block.body

theorem firstCounted_spec
    {h : Str} {hist : List NodeEvent} {m : Message}
    (hm : firstCounted h hist = some m) :
    .counted m ∈ hist ∧ m.block.header.getID = h := by
  induction hist with
  | nil =>
      cases hm
  | cons e hist ih =>
      unfold firstCounted at hm
      split at hm
      · rename_i m' hm'
        obtain ⟨hin, hh⟩ := ih (hm'.trans hm)
        exact ⟨List.mem_cons_of_mem _ hin, hh⟩
      · split_ifs at hm with hh
        obtain rfl := Option.some.inj hm
        exact ⟨by simp, hh⟩
      · cases hm

/-- Events that count nothing leave the first message as it is. -/
theorem firstCounted_cons_of_ne
    {h : Str} {hist : List NodeEvent} {e : NodeEvent}
    (he : ∀ m, e ≠ .counted m) :
    firstCounted h (e :: hist) = firstCounted h hist := by
  cases hf : firstCounted h hist with
  | some m =>
      simp [firstCounted, hf]
  | none =>
      cases e with
      | counted m => exact absurd rfl (he m)
      | proposed b => simp [firstCounted, hf]
      | broadcast m => simp [firstCounted, hf]
      | delivered h' => simp [firstCounted, hf]
      | restarted => simp [firstCounted, hf]

theorem firstCounted_cons_counted
    {h : Str} {hist : List NodeEvent} {m : Message} :
    firstCounted h (.counted m :: hist) =
      if m.block.header.getID = h then some ((firstCounted h hist).getD m)
      else firstCounted h hist := by
  cases hf : firstCounted h hist with
  | some m' =>
      split_ifs <;> simp [firstCounted, hf]
  | none =>
      simp [firstCounted, hf]

/-- The first message stays the first. -/
theorem firstCounted_append
    {h : Str} {hist : List NodeEvent} {m : Message}
    (hm : firstCounted h hist = some m)
    (later : List NodeEvent) :
    firstCounted h (later ++ hist) = some m := by
  induction later with
  | nil =>
      exact hm
  | cons e later ih =>
      simp [firstCounted, ih]

/-- A hash with a vote has a first message. -/
theorem firstCounted_isSome
    {h : Str} {hist : List NodeEvent} {m : Message}
    (hm : .counted m ∈ hist)
    (hh : m.block.header.getID = h) :
    ∃ m', firstCounted h hist = some m' := by
  obtain ⟨later, earlier, rfl⟩ := List.append_of_mem hm
  have hfirst : ∃ m', firstCounted h (.counted m :: earlier) = some m' := by
    rw [firstCounted_cons_counted, if_pos hh]
    exact ⟨_, rfl⟩
  obtain ⟨m', hm'⟩ := hfirst
  exact ⟨m', firstCounted_append hm' later⟩

theorem exists_of_votes_pos
    {type : MsgType} {h : Str} {hist : List NodeEvent}
    (hpos : 0 < votes type h hist) :
    ∃ m, .counted m ∈ hist ∧ m.type = type ∧ m.block.header.getID = h := by
  obtain ⟨e, he, hvote⟩ := List.countP_pos_iff.mp hpos
  cases e with
  | counted m =>
      have hm : m.type = type ∧ m.block.header.getID = h := by
        simpa [isVote] using hvote
      exact ⟨m, he, hm.1, hm.2⟩
  | proposed b => simp [isVote] at hvote
  | broadcast m => simp [isVote] at hvote
  | delivered h' => simp [isVote] at hvote
  | restarted => simp [isVote] at hvote

end Histories

section CountMessage

/-- A block that agrees with the one it replaces in some part changes nothing of that part. -/
theorem lookup_insert_map
    {β : Type} {g : Block → β}
    {blocks : AList (fun _ : Str => Block)} {blkHash : Str} {b b' : Block}
    (hsame : g b' = g ((blocks.lookup blkHash).getD b))
    (h : Str) :
    ((blocks.insert blkHash b').lookup h).map g =
      if blkHash = h then some (((blocks.lookup h).map g).getD (g b))
      else (blocks.lookup h).map g := by
  split_ifs with hh
  · subst hh
    rw [AList.lookup_insert, Option.map_some, hsame]
    cases blocks.lookup blkHash with
    | none => rfl
    | some b => rfl
  · rw [AList.lookup_insert_ne (Ne.symm hh)]

variable [Platform]

theorem countMessage_same
    (nd : Node) (m : Message) :
    (nd.countMessage m).id = nd.id ∧ (nd.countMessage m).n = nd.n ∧
    (nd.countMessage m).f = nd.f ∧ (nd.countMessage m).readySent = nd.readySent ∧
    (nd.countMessage m).votedHash = nd.votedHash := by
  rw [countMessage_eq]
  exact ⟨rfl, rfl, rfl, rfl, rfl⟩

/-- A counter that is incremented for messages of one type counts their votes. -/
theorem count_increment_of_type
    (c : Counter) (type : MsgType) (m : Message) (h : Str) :
    (if m.type = type then c.increment m.block.header.getID else c).count h =
      c.count h + if isVote type h (.counted m) then 1 else 0 := by
  by_cases htype : m.type = type
  · rw [if_pos htype, Counter.count_increment]
    by_cases hh : h = m.block.header.getID
    · simp [isVote, htype, hh]
    · simp [isVote, htype, hh, Ne.symm hh]
  · simp [isVote, htype]

theorem countMessage_echo
    (nd : Node) (m : Message) (h : Str) :
    (nd.countMessage m).echoThisRound.count h =
      nd.echoThisRound.count h + if isVote .echo h (.counted m) then 1 else 0 := by
  rw [countMessage_eq]
  exact count_increment_of_type nd.echoThisRound .echo m h

theorem countMessage_ready
    (nd : Node) (m : Message) (h : Str) :
    (nd.countMessage m).readyThisRound.count h =
      nd.readyThisRound.count h + if isVote .ready h (.counted m) then 1 else 0 := by
  rw [countMessage_eq]
  exact count_increment_of_type nd.readyThisRound .ready m h

theorem countMessage_send
    (nd : Node) (m : Message) :
    (nd.countMessage m).sendThisRound =
      if m.type = .send then m.block.header.getID else nd.sendThisRound := by
  rw [countMessage_eq]

/-- Saving a block keeps the body of a hash that is known already. -/
theorem countMessage_blocks
    (nd : Node) (m : Message) (h : Str) :
    ((nd.countMessage m).blocks.lookup h).map Block.body =
      if m.block.header.getID = h then
        some (((nd.blocks.lookup h).map Block.body).getD m.block.body)
      else (nd.blocks.lookup h).map Block.body := by
  rw [countMessage_eq]
  refine lookup_insert_map ?_ h
  rfl

theorem countMessage_blkList
    (nd : Node) (m : Message) (h : Str) :
    ((nd.countMessage m).blkList.lookup h).map Block.body =
      if m.block.header.getID = h then
        some (((nd.blkList.lookup h).map Block.body).getD m.block.body)
      else (nd.blkList.lookup h).map Block.body := by
  rw [countMessage_eq]
  refine lookup_insert_map ?_ h
  rfl

end CountMessage

section Steps

variable [Platform]

/-- The initial node has no history. -/
theorem Recorded.new
    (id : UInt16) (n f : Nat) (isLead : Bool) (urandom : Nat → Draw)
    (erasedRead : Nat → Str → Str) :
    Recorded (Node.new id n f isLead urandom erasedRead) [] where
  echo h := by simp [Node.new]
  ready h := by simp [Node.new, deliveries]
  send h := absurd rfl h
  readySent h := by simp [readyBroadcasts]
  blkList h := rfl
  voted h hin := by cases hin

theorem Recorded.quiet
    {nd nd' : Node} {hist : List NodeEvent}
    (hrec : Recorded nd hist)
    (h : nd.Quiet nd') :
    Recorded nd' hist where
  echo k := by
    rw [h.echo]
    exact hrec.echo k
  ready k := by
    rw [h.f, h.ready]
    exact hrec.ready k
  send hne := by
    rcases h.send with hs | hs
    · rw [hs] at hne ⊢
      exact hrec.send hne
    · exact absurd hs hne
  readySent k := by
    rw [h.readySent]
    exact hrec.readySent k
  blkList k := by
    rw [h.blkList]
    exact hrec.blkList k
  voted k hk := by
    rw [h.votedHash]
    exact hrec.voted k hk

theorem Recorded.count
    {nd : Node} {hist : List NodeEvent}
    (hrec : Recorded nd hist)
    (m : Message) :
    Recorded (nd.countMessage m) (.counted m :: hist) := by
  obtain ⟨_, _, hf, hsent, hvoted⟩ := countMessage_same nd m
  have hvotes : ∀ type h, votes type h (.counted m :: hist) =
      votes type h hist + if isVote type h (.counted m) then 1 else 0 := by
    intro type h
    simp [votes, List.countP_cons]
  constructor
  · intro h
    rw [countMessage_echo, hvotes]
    have := hrec.echo h
    omega
  · intro h
    rw [countMessage_ready, hvotes, hf]
    have hdel : deliveries h (.counted m :: hist) = deliveries h hist := by
      simp [deliveries]
    rw [hdel]
    have := hrec.ready h
    omega
  · intro hne
    rw [countMessage_send] at hne ⊢
    rw [hvotes]
    split_ifs at hne ⊢ with htype hvote
    · omega
    · exact absurd (by simp [isVote, htype]) hvote
    · omega
    · have := hrec.send hne
      omega
  · intro h
    rw [hsent]
    have hsame : readyBroadcasts h (.counted m :: hist) = readyBroadcasts h hist := by
      simp [readyBroadcasts, isReadyFor]
    rw [hsame]
    exact hrec.readySent h
  · intro h
    rw [countMessage_blkList, firstCounted_cons_counted, hrec.blkList]
    split_ifs
    · cases firstCounted h hist with
      | none => rfl
      | some m' => rfl
    · rfl
  · intro h hin
    have hin' : .delivered h ∈ hist := by simpa using hin
    rw [hvoted]
    exact List.mem_cons_of_mem _ (hrec.voted h hin')

/-- An event that is neither a vote nor a `READY` nor a delivery changes nothing. -/
theorem Recorded.cons
    {nd : Node} {hist : List NodeEvent} {e : NodeEvent}
    (hrec : Recorded nd hist)
    (hvote : ∀ m, e ≠ .counted m)
    (hready : ∀ h, isReadyFor h e = false)
    (hdel : ∀ h, e ≠ .delivered h) :
    Recorded nd (e :: hist) := by
  have hvotes : ∀ type h, votes type h (e :: hist) = votes type h hist := by
    intro type h
    cases e with
    | counted m => exact absurd rfl (hvote m)
    | proposed b => simp [votes, isVote]
    | broadcast m => simp [votes, isVote]
    | delivered h' => simp [votes, isVote]
    | restarted => simp [votes, isVote]
  constructor
  · intro h
    rw [hvotes]
    exact hrec.echo h
  · intro h
    have hsame : deliveries h (e :: hist) = deliveries h hist := by
      simp [deliveries, hdel h]
    rw [hvotes, hsame]
    exact hrec.ready h
  · intro hne
    rw [hvotes]
    exact hrec.send hne
  · intro h
    have hsame : readyBroadcasts h (e :: hist) = readyBroadcasts h hist := by
      simp [readyBroadcasts, hready h]
    rw [hsame]
    exact hrec.readySent h
  · intro h
    rw [firstCounted_cons_of_ne hvote]
    exact hrec.blkList h
  · intro h hin
    have hin' : .delivered h ∈ hist := by
      rcases List.mem_cons.mp hin with heq | hin'
      · exact absurd heq.symm (hdel h)
      · exact hin'
    exact List.mem_cons_of_mem _ (hrec.voted h hin')

/-- The block a node broadcasts for a hash is the one it counted first. -/
theorem Recorded.body_of_signs
    {nd : Node} {hist : List NodeEvent} {type : MsgType} {h : Str} {round : UInt32} {m : Message}
    (hrec : Recorded nd hist)
    (hm : nd.Signs type ((nd.blkList.lookup h).getD {}) round m) :
    ∃ m', firstCounted h hist = some m' ∧ m'.block.body = m.block.body ∧
      m.block.header.getID = h := by
  have hmut := hm.1
  obtain ⟨_, hheader, htxs, _⟩ := Signs.type_eq hm
  cases hlookup : nd.blkList.lookup h with
  | none =>
      rw [hlookup] at hmut
      cases hmut
  | some b =>
      rw [hlookup] at hheader htxs
      have hbody := hrec.blkList h
      rw [hlookup] at hbody
      cases hfirst : firstCounted h hist with
      | none =>
          rw [hfirst] at hbody
          cases hbody
      | some m' =>
          rw [hfirst] at hbody
          have heq : b.body = m'.block.body := Option.some.inj hbody
          have hmbody : m.block.body = b.body := by
            simp only [Block.body]
            rw [hheader, htxs]
            rfl
          refine ⟨m', rfl, (hmbody.trans heq).symm, ?_⟩
          have hhead : m.block.header = m'.block.header :=
            congrArg Prod.fst (hmbody.trans heq)
          rw [hhead]
          exact (firstCounted_spec hfirst).2

/-- Signing does not touch what the history speaks about. -/
theorem Recorded.rotateKeys
    {nd : Node} {hist : List NodeEvent}
    (hrec : Recorded nd hist) :
    Recorded nd.rotateKeys hist :=
  hrec.quiet ⟨rfl, rfl, rfl, rfl, rfl, rfl, rfl, rfl, rfl, Or.inl rfl⟩

theorem Recorded.sendReady
    {nd : Node} {hist : List NodeEvent} {m : Message} {h : Str}
    (hrec : Recorded nd hist)
    (hsent : h ∉ nd.readySent)
    (htype : m.type = .ready)
    (hhash : m.block.header.getID = h) :
    Recorded { nd.rotateKeys with readySent := insert h nd.readySent } (.broadcast m :: hist) := by
  have hvotes : ∀ type k, votes type k (.broadcast m :: hist) = votes type k hist := by
    intro type k
    simp [votes, isVote]
  constructor
  · intro k
    rw [hvotes]
    exact hrec.echo k
  · intro k
    have hsame : deliveries k (.broadcast m :: hist) = deliveries k hist := by
      simp [deliveries]
    rw [hvotes, hsame]
    exact hrec.ready k
  · intro hne
    rw [hvotes]
    exact hrec.send hne
  · intro k
    have hle := hrec.readySent k
    by_cases hk : k = h
    · subst hk
      rw [if_neg hsent] at hle
      have hone : readyBroadcasts k (.broadcast m :: hist) = readyBroadcasts k hist + 1 := by
        simp [readyBroadcasts, isReadyFor, htype, hhash]
      rw [hone, if_pos (Finset.mem_insert_self _ _)]
      omega
    · have hsame : readyBroadcasts k (.broadcast m :: hist) = readyBroadcasts k hist := by
        have hne : ¬ m.block.header.getID = k := by
          rw [hhash]
          exact Ne.symm hk
        simp [readyBroadcasts, isReadyFor, hne]
      rw [hsame]
      simpa [hk] using hle
  · intro k
    rw [firstCounted_cons_of_ne (by simp)]
    exact hrec.blkList k
  · intro k hin
    have hin' : .delivered k ∈ hist := by simpa using hin
    exact List.mem_cons_of_mem _ (hrec.voted k hin')

theorem Recorded.deliver
    {nd : Node} {hist : List NodeEvent} {h : Str}
    (hrec : Recorded nd hist)
    (hvotes : 2 * nd.f + 1 < nd.readyThisRound.count h)
    (recorded : Str) :
    Recorded (nd.deliver h recorded) (.delivered h :: hist) := by
  have hsame : ∀ type k, votes type k (.delivered h :: hist) = votes type k hist := by
    intro type k
    simp [votes, isVote]
  constructor
  · intro k
    have hle := hrec.echo k
    rw [hsame, Node.deliver, Counter.count_erase]
    split_ifs
    · omega
    · exact hle
  · intro k
    have hle := hrec.ready k
    rw [hsame, Node.deliver, Counter.count_erase]
    by_cases hk : k = h
    · subst hk
      have hone : deliveries k (.delivered k :: hist) = deliveries k hist + 1 := by
        simp [deliveries]
      rw [hone, if_pos rfl, Nat.mul_add]
      show (2 * nd.f + 2) * deliveries k hist + (2 * nd.f + 2) * 1 + 0 ≤ _
      omega
    · have hzero : deliveries k (.delivered h :: hist) = deliveries k hist := by
        simp [deliveries, Ne.symm hk]
      rw [hzero, if_neg hk]
      exact hle
  · intro hne
    rw [hsame]
    exact hrec.send hne
  · intro k
    have hzero : readyBroadcasts k (.delivered h :: hist) = readyBroadcasts k hist := by
      simp [readyBroadcasts, isReadyFor]
    rw [hzero]
    exact hrec.readySent k
  · intro k
    rw [firstCounted_cons_of_ne (by simp)]
    exact hrec.blkList k
  · intro k _
    exact List.mem_cons_self

/-- Every step keeps the node in line with its history. -/
theorem Recorded.step
    {nd nd' : Node} {hist ev : List NodeEvent}
    (hrec : Recorded nd hist)
    (h : NodeStep nd ev nd') :
    Recorded nd' (ev.reverse ++ hist) := by
  cases h with
  | quiet hq hkept =>
      exact hrec.quiet hq
  | count m =>
      exact hrec.count m
  | echo m hsend hm =>
      have htype := (Signs.type_eq hm).1
      exact hrec.rotateKeys.cons (by simp) (by simp [isReadyFor, htype]) (by simp)
  | ready m h round hvotes hsent hm =>
      obtain ⟨m', _, _, hhash⟩ := hrec.body_of_signs hm
      exact hrec.sendReady hsent (Signs.type_eq hm).1 hhash
  | deliver h hvotes =>
      exact hrec.deliver hvotes _
  | restart =>
      have hquiet : nd.Quiet (nd.runProtocol true) :=
        ⟨rfl, rfl, rfl, rfl, rfl, rfl, rfl, rfl, rfl, Or.inl rfl⟩
      exact (hrec.quiet hquiet).cons (by simp) (by simp [isReadyFor]) (by simp)

theorem Recorded.propose
    {nd : Node} {hist : List NodeEvent} {b : Block} {m : Message}
    (hrec : Recorded nd hist)
    (hm : nd.Signs .send b 0 m) :
    Recorded nd.rotateKeys (.broadcast m :: .proposed b :: hist) := by
  have htype := (Signs.type_eq hm).1
  have hfirst := hrec.rotateKeys.cons (e := .proposed b) (by simp) (by simp [isReadyFor])
    (by simp)
  exact hfirst.cons (by simp) (by simp [isReadyFor, htype]) (by simp)

/-- An event that counts nothing leaves the first messages and the blocks as they are. -/
theorem HoldsFirst.cons
    {nd nd' : Node} {hist : List NodeEvent} {e : NodeEvent}
    (hholds : HoldsFirst nd hist)
    (hblocks : nd'.blocks = nd.blocks)
    (he : ∀ m, e ≠ .counted m) :
    HoldsFirst nd' (e :: hist) := by
  intro h
  rw [hblocks, firstCounted_cons_of_ne he]
  exact hholds h

theorem HoldsFirst.count
    {nd : Node} {hist : List NodeEvent}
    (hholds : HoldsFirst nd hist)
    (m : Message) :
    HoldsFirst (nd.countMessage m) (.counted m :: hist) := by
  intro h
  rw [countMessage_blocks, firstCounted_cons_counted, hholds]
  split_ifs
  · cases firstCounted h hist with
    | none => rfl
    | some m' => rfl
  · rfl

/-- Every step keeps the blocks that were counted first. -/
theorem HoldsFirst.step
    {nd nd' : Node} {hist ev : List NodeEvent}
    (hholds : HoldsFirst nd hist)
    (h : NodeStep nd ev nd') :
    HoldsFirst nd' (ev.reverse ++ hist) := by
  cases h with
  | quiet hq hkept =>
      intro h
      rw [hkept.blocks]
      exact hholds h
  | count m =>
      exact hholds.count m
  | echo m hsend hm =>
      exact hholds.cons rfl nofun
  | ready m h round hvotes hsent hm =>
      exact hholds.cons rfl nofun
  | deliver h hvotes =>
      exact hholds.cons rfl nofun
  | restart =>
      exact hholds.cons rfl nofun

end Steps

end CosiCoin
