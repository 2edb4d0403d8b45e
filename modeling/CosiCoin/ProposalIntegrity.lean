import CosiCoin.DoubleSpendControl
import CosiCoin.ReadyProvenance

/-!
# COSICOIN: accepted blocks are proposed blocks

When all validators follow the code, the body of every counted message is the
body of a proposed block as the wire leaves it: a `SEND` carries a proposed
block, an `ECHO` or `READY` carries what its sender counted, and the wire
changes a body only the first time.  A node accepts a hash only after counting
`READY` messages for it, so the block it holds under the hash is a proposed one
(`accepted_is_proposed`), up to transaction keys with an empty half, which the
wire format cannot express (`half_key_is_lost`).
-/

namespace CosiCoin

open CausalLog Node

section Integrity

theorem map_wireTransaction_idem
    (txs : List Transaction) :
    (txs.map wireTransaction).map wireTransaction = txs.map wireTransaction := by
  simp

variable [P : Platform]

/-- The block is a proposed one as it arrives over the wire. -/
def FromProposal (c : Committee) (log : Log) (b : Block) : Prop :=
  ∃ b₀, (c.leader, .proposed b₀) ∈ log ∧
    b.header = b₀.header ∧ b.txs = b₀.txs.map wireTransaction

/--
Every accepted hash is the identifier of a block proposed earlier, and the block
held under it has exactly the header and the transactions of such a block.
-/
def ExactIntegrity (c : Committee) (s : SystemState) : Prop :=
  ∀ i h later earlier, s.log = later ++ (i, .delivered h) :: earlier →
    ∃ b, (c.leader, .proposed b) ∈ earlier ∧ b.header.getID = h ∧
      ∃ held, (s.nodes i).blocks.lookup h = some held ∧
        held.header = b.header ∧ held.txs = b.txs

variable [LawfulPlatform P]

/-- A message that arrives has the body of what its sender proposed or counted. -/
theorem fromProposal_of_wire
    {c : Committee} {log earlier : Log} {j : UInt16} {m₀ m : Message}
    (hrule : BroadcastRule c j m₀ earlier)
    (hsub : ∀ e ∈ earlier, e ∈ log)
    (hcounted : ∀ m', (j, .counted m') ∈ earlier → FromProposal c log m'.block)
    (hwire : m₀.wire = .ok m) :
    FromProposal c log m.block := by
  obtain ⟨_, hheader, _, _, _⟩ := wire_eq_ok hwire
  obtain ⟨htxs, _, _⟩ := wire_block hwire
  have hechoes : EchoesCounted j m₀ earlier → FromProposal c log m.block := by
    rintro ⟨m', hfirst, hbody⟩
    have hin := mem_history.mp (firstCounted_spec hfirst).1
    obtain ⟨b₀, hb₀, hheader', htxs'⟩ := hcounted m' hin
    have hh : m'.block.header = m₀.block.header := congrArg Prod.fst hbody
    have ht : m'.block.txs = m₀.block.txs := congrArg Prod.snd hbody
    refine ⟨b₀, hb₀, ?_, ?_⟩
    · rw [hheader, ← hh, hheader']
    · rw [htxs, ← ht, htxs', map_wireTransaction_idem]
  unfold BroadcastRule at hrule
  cases htype : m₀.type with
  | send =>
      rw [htype] at hrule
      obtain ⟨b, hb, hbody⟩ := hrule
      have hh : m₀.block.header = b.header := congrArg Prod.fst hbody
      have ht : m₀.block.txs = b.txs := congrArg Prod.snd hbody
      exact ⟨b, hsub _ hb, by rw [hheader, hh], by rw [htxs, ht]⟩
  | echo =>
      rw [htype] at hrule
      exact hechoes hrule.1
  | ready =>
      rw [htype] at hrule
      exact hechoes hrule.1
  | other =>
      rw [htype] at hrule
      exact absurd hrule id

/-- Every counted message carries a proposed block. -/
theorem fromProposal_of_counted
    {c : Committee} {log : Log}
    (hbyz : c.byz = ∅)
    (hcausal : Causal (Rule c) log)
    {i : UInt16} {m : Message}
    (hm : (i, .counted m) ∈ log) :
    FromProposal c log m.block := by
  by_contra hnot
  obtain ⟨later, ⟨i', e⟩, earlier, hlog, ⟨m', hm', hnot'⟩, hno⟩ := exists_first
    (p := fun e : UInt16 × NodeEvent =>
      ∃ m', e.2 = .counted m' ∧ ¬ FromProposal c log m'.block)
    ⟨(i, .counted m), hm, m, rfl, hnot⟩
  have he : e = .counted m' := hm'
  subst he
  have hsub : ∀ e ∈ earlier, e ∈ log := by
    intro e he
    rw [hlog]
    exact List.mem_append_right _ (List.mem_cons_of_mem _ he)
  rw [hlog] at hcausal
  obtain ⟨_, havail⟩ := hcausal.cause
  rcases havail with ⟨j, m₀, hin, hwire⟩ | ⟨hfaulty, _⟩
  · obtain ⟨later', earlier', hlog', _, _, hrule⟩ :=
      hcausal.of_append.2.exists_of_mem hin
    have hsub' : ∀ e ∈ earlier', e ∈ earlier := by
      intro e he
      rw [hlog']
      exact List.mem_append_right _ (List.mem_cons_of_mem _ he)
    apply hnot'
    refine fromProposal_of_wire hrule (fun e he => hsub e (hsub' e he)) ?_ hwire
    intro m'' hm''
    by_contra hbad
    exact hno _ (hsub' _ hm'') ⟨m'', rfl, hbad⟩
  · rw [hbyz] at hfaulty
    exact absurd hfaulty (Finset.notMem_empty _)

/--
When all validators follow the code, an accepted hash is the identifier of a
block proposed earlier, and the block held under it has the header of that
block and its transactions as the wire leaves them.
-/
theorem accepted_is_proposed
    (c : Committee) (s : SystemState)
    (hbyz : c.byz = ∅)
    (hs : SystemReachable c s)
    (i : UInt16) (h : Str) (later earlier : Log)
    (hlog : s.log = later ++ (i, .delivered h) :: earlier) :
    ∃ b, (c.leader, .proposed b) ∈ earlier ∧ b.header.getID = h ∧
      ∃ held, (s.nodes i).blocks.lookup h = some held ∧
        held.header = b.header ∧ held.txs = b.txs.map wireTransaction := by
  have hinv := systemInv_of_reachable hs
  obtain ⟨m, held, hm, hhash, hheld, hbody⟩ := held_of_delivered hinv hlog
  have hcausal : Causal (Rule c) earlier := by
    have h := hinv.causal
    rw [hlog] at h
    exact h.of_append.2
  obtain ⟨b, hb, hheader, htxs⟩ := fromProposal_of_counted hbyz hcausal hm
  have hheldHeader : held.header = m.block.header := congrArg Prod.fst hbody
  have hheldTxs : held.txs = m.block.txs := congrArg Prod.snd hbody
  exact ⟨b, hb, by rw [← hheader, hhash], held, hheld, hheldHeader.trans hheader,
    hheldTxs.trans htxs⟩

end Integrity

section Transfers

variable [P : Platform]

/-- The block of the transfer can be sent over the wire. -/
theorem selfTransfer_encodable
    [LawfulPlatform P]
    (txID : UInt32) :
    Encodable (singleBlock (selfTransfer txID)).txs := by
  refine encodable_iff.mpr fun t ht => ?_
  obtain rfl : t = selfTransfer txID := List.mem_singleton.mp ht
  unfold keyToProto
  split_ifs
  · exact sigKeyToString_keyGen _
  · exact ⟨[], rfl⟩

/-- The wire keeps the transfer, as both halves of its key are full. -/
theorem selfTransfer_wired
    (txID : UInt32) :
    (singleBlock (selfTransfer txID)).txs.map wireTransaction =
      (singleBlock (selfTransfer txID)).txs := by
  have hfull : (selfTransfer txID).publicKey.FullLength :=
    (uniformKey_wellFormed 1).publicKey_fullLength
  have hsame : wireTransaction (selfTransfer txID) = selfTransfer txID := by
    rw [wireTransaction, if_pos hfull.ne_nil]
  exact congrArg (fun t => [t]) hsame

end Transfers

/-- Two validators accept a block with a transfer, and one holds it. -/
theorem transferBlock_is_held :
    letI := referencePlatform
    ∃ s : SystemState, SystemReachable twoValidators s ∧
      ∃ b held, (0, .proposed b) ∈ s.log ∧
        (s.nodes 0).blocks.lookup (singleBlock (selfTransfer 100)).header.getID = some held ∧
        held.header = b.header ∧ held.txs = b.txs.map wireTransaction := by
  let _ := referencePlatform
  obtain ⟨s, hs, _, hdel⟩ := exists_accepted [⟨0, 0, ⟨10, 1⟩⟩] [1] rfl
    (selfTransfer_encodable 100) (oneCoinLeader_verify 100)
  obtain ⟨later, earlier, hlog⟩ := List.append_of_mem hdel
  obtain ⟨b, hb, _, held, hheld, hheader, htxs⟩ := accepted_is_proposed twoValidators s rfl hs 0
    (singleBlock (selfTransfer 100)).header.getID later earlier hlog
  refine ⟨s, hs, b, held, ?_, hheld, hheader, htxs⟩
  rw [hlog]
  exact List.mem_append_right _ (List.mem_cons_of_mem _ hb)

/-- A transaction whose key has an empty half. -/
def halfKeyTransaction : Transaction :=
  { publicKey := { S0 := [[]] } }

/-- The block of that transaction, finalized. -/
def halfKeyBlock [Platform] : Block where
  header := Header.calculateMerkleRoot {} [halfKeyTransaction]
  txs := [halfKeyTransaction]
  empty := false
  isMutable := false

/-- The key with an empty half is lost on the way to the node that accepts the block. -/
theorem half_key_is_lost :
    letI := referencePlatform
    ∃ s, SystemReachable twoValidators s ∧ twoValidators.byz = ∅ ∧
      ¬ ExactIntegrity twoValidators s := by
  let _ := referencePlatform
  obtain ⟨s, hs, hproposed, hdel⟩ := exists_accepted (b := halfKeyBlock) [] [] rfl ⟨_, rfl⟩ (by decide)
  refine ⟨s, hs, rfl, ?_⟩
  intro hexact
  have hinv := systemInv_of_reachable hs
  obtain ⟨later, earlier, hlog⟩ := List.append_of_mem hdel
  have honly : ∀ b, (twoValidators.leader, .proposed b) ∈ s.log → b = halfKeyBlock := by
    intro b hb
    have hmem := mem_proposals hb
    rw [hproposed] at hmem
    exact List.mem_singleton.mp hmem
  have hearlier : ∀ e ∈ earlier, e ∈ s.log := by
    intro e he
    rw [hlog]
    exact List.mem_append_right _ (List.mem_cons_of_mem _ he)
  -- what the node holds was counted, and what was counted went through the wire
  obtain ⟨m, held, hm, _, hheld, hbody⟩ := held_of_delivered hinv hlog
  obtain ⟨b, hb, _, htxs⟩ := fromProposal_of_counted rfl hinv.causal (hearlier _ hm)
  obtain rfl := honly b hb
  obtain ⟨b', hb', _, held', hheld', _, htxs'⟩ := hexact 0 _ later earlier hlog
  obtain rfl := honly b' (hearlier _ hb')
  obtain rfl := Option.some.inj (hheld.symm.trans hheld')
  have hheldTxs : held.txs = m.block.txs := congrArg Prod.snd hbody
  have hsame : [halfKeyTransaction].map wireTransaction = [halfKeyTransaction] :=
    htxs.symm.trans (hheldTxs.symm.trans htxs')
  exact absurd hsame (by decide)

end CosiCoin
