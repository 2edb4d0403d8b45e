import CosiCoin.ReadyDiscipline
import CosiCoin.ReferencePlatform

/-!
# COSICOIN: the delivery branch and its references

The loop of `broadcastRound` over `ready_this_round_` binds `blk_hash` and
`nb_recv` by reference to the entry it stands at.  Here a reference is the key of
its entry: keys are not repeated and no entry is inserted during the loop, so the
reference is good as long as the key is in the map, and a read through it is an
error afterwards.

In a round without a delivery every read is good and the round is the one of the
model with values.  The delivery branch erases the entry it stands at and then
appends `blk_hash` to `accepted_blocks_`: this read goes to the erased entry.
-/

namespace CosiCoin

open Node

/-- What a read through a reference to an erased entry gives. -/
def danglingRead : String := "read through a reference to an erased entry"

namespace Node

section Reads

/-- Read `nb_recv`. -/
def readCount (nd : Node) (ref : Str) : Except String Nat :=
  match nd.readyThisRound.lookup ref with
  | some nbRecv => .ok nbRecv
  | none => .error danglingRead

/-- Read `blk_hash`. -/
def readHash (nd : Node) (ref : Str) : Except String Str :=
  if ref ∈ nd.readyThisRound then .ok ref else .error danglingRead

/-- The delivery branch, statement by statement. -/
def deliverByReference (nd : Node) (ref : Str) : Except String Node := do
  -- the line of the log
  let _ ← nd.readHash ref
  let nd := { nd with shouldBroadcast := false }
  let blkHash ← nd.readHash ref
  let nd := { nd with votedHash := blkHash }
  let blkHash ← nd.readHash ref
  let nd := { nd with echoThisRound := nd.echoThisRound.erase blkHash }
  let blkHash ← nd.readHash ref
  let nd := { nd with readyThisRound := nd.readyThisRound.erase blkHash }
  let blkHash ← nd.readHash ref
  return { nd with acceptedBlocks := nd.acceptedBlocks ++ [blkHash] }

theorem readHash_of_mem
    {nd : Node} {ref : Str}
    (h : ref ∈ nd.readyThisRound) :
    nd.readHash ref = .ok ref :=
  if_pos h

/-- The delivery branch always ends in a read of the erased entry. -/
theorem deliverByReference_eq_error
    (nd : Node)
    (ref : Str) :
    nd.deliverByReference ref = .error danglingRead := by
  by_cases h : ref ∈ nd.readyThisRound
  · have hread : ∀ {nd' : Node}, nd'.readyThisRound = nd.readyThisRound →
        nd'.readHash ref = .ok ref := fun hsame => readHash_of_mem (hsame ▸ h)
    have herased : ∀ {nd' : Node}, nd'.readyThisRound = nd.readyThisRound.erase ref →
        nd'.readHash ref = .error danglingRead := by
      intro nd' hsame
      rw [readHash, hsame, if_neg]
      exact fun hmem => (AList.mem_erase.mp hmem).1 rfl
    simp only [deliverByReference, hread, herased, bind, Except.bind]
  · have hread : nd.readHash ref = .error danglingRead := if_neg h
    simp only [deliverByReference, hread, bind, Except.bind]

end Reads

section Rounds

variable [Platform]

/-- The first `if` of the loop body. -/
def announceByReference (nd : Node) (ref : Str) : Except String (Node × List NodeEvent) := do
  let nbRecv ← nd.readCount ref
  if nd.f + 1 ≤ nbRecv then
    let blkHash ← nd.readHash ref
    if blkHash ∉ nd.readySent then
      let blkHash ← nd.readHash ref
      let (nd, evs) ← nd.broadcastMessage .ready ((nd.blkList.lookup blkHash).getD {}) 3
      let blkHash ← nd.readHash ref
      return ({ nd with readySent := insert blkHash nd.readySent }, evs)
    else
      return (nd, [])
  else
    return (nd, [])

/-- The loop over `ready_this_round_`. -/
def readyLoopByReference : List Str → Node → Except String (Node × List NodeEvent)
  | [], nd => .ok (nd, [])
  | ref :: rest, nd => do
      let (nd, ev) ← nd.announceByReference ref
      let nbRecv ← nd.readCount ref
      if 2 * nd.f + 1 < nbRecv then
        let nd ← nd.deliverByReference ref
        return (nd, ev ++ [.delivered nd.votedHash])
      else
        let (nd, evs) ← readyLoopByReference rest nd
        return (nd, ev ++ evs)

/-- `Node::broadcastRound` with the loop variables of its last loop as references. -/
def broadcastRoundByReference (nd : Node) : Except String (Node × List NodeEvent) := do
  let (nd, ev₁) ← sendEcho { nd with shouldBroadcast := true }
  let (nd, ev₂) ← echoLoop nd.echoThisRound.entries nd
  let (nd, ev₃) ← readyLoopByReference nd.readyThisRound.keys nd
  return (nd, ev₁ ++ ev₂ ++ ev₃)

/-- The round ends, the voted hash is the one accepted last, and its block is handed out. -/
def DeliversFaithfully (nd : Node) : Prop :=
  ∃ nd' evs, nd.broadcastRoundByReference = .ok (nd', evs) ∧
    nd'.acceptedBlocks = nd.acceptedBlocks ++ [nd'.votedHash] ∧
    nd'.votedHash ∈ nd'.blocks ∧
    (nd'.getConsensusBlocks false).1.getLast? = nd'.blocks.lookup nd'.votedHash

/-- In the turn of an entry every read is good. -/
theorem announceByReference_of_mem
    {nd nd' : Node} {ref : Str} {nbRecv : Nat} {evs : List NodeEvent}
    (hmem : ⟨ref, nbRecv⟩ ∈ nd.readyThisRound.entries)
    (hok : nd.announceReady (nd.f + 1) nbRecv ref 3 = .ok (nd', evs)) :
    nd.announceByReference ref = .ok (nd', evs) ∧ nd'.readyThisRound = nd.readyThisRound := by
  have hlookup : nd.readyThisRound.lookup ref = some nbRecv := AList.mem_lookup_iff.mpr hmem
  have hkey : ref ∈ nd.readyThisRound := AList.lookup_isSome.mp (by rw [hlookup]; rfl)
  have hcount : nd.readCount ref = .ok nbRecv := by rw [readCount, hlookup]
  have hhash : nd.readHash ref = .ok ref := readHash_of_mem hkey
  unfold announceReady at hok
  split_ifs at hok with hcond
  · obtain ⟨⟨nd₁, ev₁⟩, hsend, hok⟩ := bind_eq_ok hok
    obtain ⟨rfl, rfl⟩ := Prod.mk.inj (Except.ok.inj hok)
    obtain ⟨rfl, _⟩ := broadcastMessage_eq_ok hsend
    have hhash' : nd.rotateKeys.readHash ref = .ok ref := readHash_of_mem hkey
    refine ⟨?_, rfl⟩
    simp only [announceByReference, hcount, hhash, hsend, hhash', bind, Except.bind, pure,
      Except.pure, if_pos hcond.1, if_pos hcond.2]
  · obtain ⟨rfl, rfl⟩ := Prod.mk.inj (Except.ok.inj hok)
    refine ⟨?_, rfl⟩
    simp only [announceByReference, hcount, hhash, bind, Except.bind, pure, Except.pure]
    split_ifs with hvotes hsent
    · rfl
    · exact absurd ⟨hvotes, hsent⟩ hcond
    · rfl

/-- The loop agrees with the one over values, or it ends in a read of an erased entry. -/
theorem readyLoopByReference_of_readyLoop
    {entries : List ((_ : Str) × Nat)} :
    ∀ {nd nd' : Node} {evs : List NodeEvent},
      (∀ e ∈ entries, e ∈ nd.readyThisRound.entries) →
      readyLoop entries nd = .ok (nd', evs) →
      ((∀ k, .delivered k ∉ evs) →
        readyLoopByReference (entries.map Sigma.fst) nd = .ok (nd', evs)) ∧
      ((∃ k, .delivered k ∈ evs) →
        readyLoopByReference (entries.map Sigma.fst) nd = .error danglingRead) := by
  induction entries with
  | nil =>
      intro nd nd' evs _ h
      obtain ⟨rfl, rfl⟩ := Prod.mk.inj (Except.ok.inj h)
      exact ⟨fun _ => rfl, fun ⟨k, hk⟩ => absurd hk List.not_mem_nil⟩
  | cons e entries ih =>
      obtain ⟨ref, nbRecv⟩ := e
      intro nd nd' evs hmem h
      obtain ⟨⟨nd₁, ev₁⟩, hone, h⟩ := bind_eq_ok h
      obtain ⟨hannounce, hsame⟩ := announceByReference_of_mem (hmem _ List.mem_cons_self) hone
      have hsilent := announceReady_silent hone
      have hcount : nd₁.readCount ref = .ok nbRecv := by
        rw [readCount, hsame, AList.mem_lookup_iff.mpr (hmem _ List.mem_cons_self)]
      dsimp only at h
      split_ifs at h with hvotes
      · obtain ⟨rfl, rfl⟩ := Prod.mk.inj (Except.ok.inj h)
        refine ⟨fun hnone => absurd (List.mem_append_right _ (List.mem_singleton.mpr rfl))
          (hnone ref), fun _ => ?_⟩
        simp only [List.map_cons, readyLoopByReference, hannounce, hcount, if_pos hvotes,
          deliverByReference_eq_error, bind, Except.bind]
      · obtain ⟨⟨nd₂, ev₂⟩, hloop, h⟩ := bind_eq_ok h
        obtain ⟨rfl, rfl⟩ := Prod.mk.inj (Except.ok.inj h)
        have hrest : ∀ e ∈ entries, e ∈ nd₁.readyThisRound.entries := by
          intro e he
          rw [hsame]
          exact hmem e (List.mem_cons_of_mem _ he)
        obtain ⟨hnone, hsome⟩ := ih hrest hloop
        refine ⟨fun hnot => ?_, fun ⟨k, hk⟩ => ?_⟩
        · have hloop' := hnone fun k hk => hnot k (List.mem_append_right _ hk)
          simp only [List.map_cons, readyLoopByReference, hannounce, hcount, if_neg hvotes,
            hloop', bind, Except.bind, pure, Except.pure]
        · have hk' : .delivered k ∈ ev₂ := by
            rcases List.mem_append.mp hk with hk | hk
            · exact absurd hk (hsilent k)
            · exact hk
          have hloop' := hsome ⟨k, hk'⟩
          simp only [List.map_cons, readyLoopByReference, hannounce, hcount, if_neg hvotes,
            hloop', bind, Except.bind]

/-- Without a delivery the references make no difference, with one the round ends in an error. -/
theorem broadcastRoundByReference_of_broadcastRound
    {nd nd' : Node} {evs : List NodeEvent}
    (h : nd.broadcastRound = .ok (nd', evs)) :
    ((∀ k, .delivered k ∉ evs) → nd.broadcastRoundByReference = .ok (nd', evs)) ∧
      ((∃ k, .delivered k ∈ evs) → nd.broadcastRoundByReference = .error danglingRead) := by
  obtain ⟨⟨nd₁, ev₁⟩, hecho, h⟩ := bind_eq_ok h
  obtain ⟨⟨nd₂, ev₂⟩, hloop₁, h⟩ := bind_eq_ok h
  obtain ⟨⟨nd₃, ev₃⟩, hloop₂, h⟩ := bind_eq_ok h
  obtain ⟨rfl, rfl⟩ := Prod.mk.inj (Except.ok.inj h)
  obtain ⟨hnone, hsome⟩ := readyLoopByReference_of_readyLoop (fun _ he => he) hloop₂
  have hkeys : nd₂.readyThisRound.keys = nd₂.readyThisRound.entries.map Sigma.fst := rfl
  refine ⟨fun hnot => ?_, fun ⟨k, hk⟩ => ?_⟩
  · have hloop' := hnone fun k hk => hnot k (List.mem_append_right _ hk)
    simp only [broadcastRoundByReference, hecho, hloop₁, hkeys, hloop', bind, Except.bind, pure,
      Except.pure]
  · have hk' : .delivered k ∈ ev₃ := by
      rcases List.mem_append.mp hk with hk | hk
      · rcases List.mem_append.mp hk with hk | hk
        · exact absurd hk (sendEcho_silent hecho k)
        · exact absurd hk (echoLoop_silent hloop₁ k)
      · exact hk
    have hloop' := hsome ⟨k, hk'⟩
    simp only [broadcastRoundByReference, hecho, hloop₁, hkeys, hloop', bind, Except.bind]

/-- Every round that takes the delivery branch reads an erased entry and records nothing. -/
theorem delivery_reads_erased_entry
    (nd nd' : Node) (evs : List NodeEvent) (blkHash : Str)
    (hround : nd.broadcastRound = .ok (nd', evs))
    (hdelivers : .delivered blkHash ∈ evs) :
    nd.broadcastRoundByReference = .error danglingRead ∧ ¬ nd.DeliversFaithfully := by
  have herror := (broadcastRoundByReference_of_broadcastRound hround).2 ⟨blkHash, hdelivers⟩
  refine ⟨herror, ?_⟩
  rintro ⟨nd₁, ev₁, hok, _⟩
  rw [herror] at hok
  cases hok

/-- A node that has two `READY` votes for a block, has sent its own and tolerates no fault. -/
def votedNode : Node :=
  let blk : Block := { isMutable := false }
  { Node.new 1 1 0 false (fun _ _ => ([], [])) keptRead with
    readyThisRound := AList.singleton blk.header.getID 2
    readySent := {blk.header.getID}
    verifiedBlocks := {blk.header.getID}
    blocks := AList.singleton blk.header.getID blk
    blkList := AList.singleton blk.header.getID blk }

/-- The round of that node takes the delivery branch. -/
theorem votedNode_delivers :
    let blkHash := Header.getID {}
    votedNode.broadcastRound =
      .ok (({ votedNode with shouldBroadcast := true } : Node).deliver blkHash blkHash,
        [.delivered blkHash]) := by
  intro blkHash
  have hready : announceReady { votedNode with shouldBroadcast := true } 1 2 blkHash 3 =
      .ok ({ votedNode with shouldBroadcast := true }, []) := by
    apply if_neg
    exact fun h => h.2 (Finset.mem_singleton.mpr rfl)
  show (readyLoop [⟨blkHash, 2⟩] { votedNode with shouldBroadcast := true } >>= _) = _
  rw [readyLoop]
  show (announceReady { votedNode with shouldBroadcast := true } 1 2 blkHash 3 >>= _) >>= _ = _
  rw [hready]
  rfl

end Rounds

/-- The delivery of a block with two votes. -/
theorem delivery_of_voted_block :
    letI := referencePlatform
    votedNode.broadcastRoundByReference = .error danglingRead := by
  let _ := referencePlatform
  exact (delivery_reads_erased_entry votedNode _ _ _ votedNode_delivers
    List.mem_cons_self).1

/-- That delivery takes the branch and does not record the hash. -/
theorem voted_block_not_recorded :
    letI := referencePlatform
    (∃ nd' evs, votedNode.broadcastRound = .ok (nd', evs) ∧
      .delivered (Header.getID {}) ∈ evs) ∧ ¬ votedNode.DeliversFaithfully := by
  let _ := referencePlatform
  have herror := (broadcastRoundByReference_of_broadcastRound votedNode_delivers).2
    ⟨_, List.mem_cons_self⟩
  refine ⟨⟨_, _, votedNode_delivers, List.mem_cons_self⟩, ?_⟩
  rintro ⟨nd₁, ev₁, hok, _⟩
  rw [herror] at hok
  cases hok

end Node

end CosiCoin
