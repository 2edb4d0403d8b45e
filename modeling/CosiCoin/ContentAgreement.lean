import CosiCoin.AcceptedKeys
import CosiCoin.BrachaAgreement
import CosiCoin.ProposalIntegrity

/-!
# COSICOIN: agreement on the contents of a block

A block is identified by the hash of its header, while its transactions travel
in every message and are kept from the message counted first.  No check ties
the transactions to the Merkle root of the header, and a `SEND` is counted from
any validator.  A faulty validator can therefore make two nodes hold different
transactions under one accepted hash (`faulty_validator_swaps_bodies`).

`contentAgreement_of_careful` shows what is missing: votes have to be counted
once for each validator, a counted `SEND` has to be for a proposed block, and a
counted message with the hash of a proposed block has to carry its transactions.
For `getConsensusBlocks`, moreover, the key that a delivery has erased has to be
still there when it is read for `accepted_blocks_`.
-/

namespace CosiCoin

open LabelledRuns CausalLog QuorumCounting Node

section Contents

variable [Platform]

/--
A node holds a block with the given transactions under a hash, and gives no other
one for it, neither by `getReceivedBlock` nor by `getConsensusBlocks`.
-/
structure Node.Holds (nd : Node) (h : Str) (txs : List Transaction) : Prop where
  stored : nd.blocks.lookup h = some (nd.getReceivedBlock h)
  received : (nd.getReceivedBlock h).txs = txs
  taken : ∃ b ∈ (nd.getConsensusBlocks false).1, b.header.getID = h
  takenTxs : ∀ b ∈ (nd.getConsensusBlocks false).1, b.header.getID = h → b.txs = txs

/--
Correct validators that have accepted the same hash hold under it the
transactions of a block the leader proposed.
-/
def ContentAgreement (c : Committee) (s : SystemState) : Prop :=
  ∀ i j h, c.Correct i → c.Correct j →
    (i, .delivered h) ∈ s.log → (j, .delivered h) ∈ s.log →
    ∃ b, (c.leader, .proposed b) ∈ s.log ∧ b.header.getID = h ∧
      (s.nodes i).Holds h b.txs ∧ (s.nodes j).Holds h b.txs

/-- A `SEND` is for a proposed block. -/
def SendProposed (c : Committee) (log : Log) (m : Message) : Prop :=
  m.type = .send →
    ∃ b, (c.leader, .proposed b) ∈ log ∧ b.header.getID = m.block.header.getID

/-- A message with the hash of a proposed block carries its transactions. -/
def BodyProposed (c : Committee) (log : Log) (m : Message) : Prop :=
  ∀ b, (c.leader, .proposed b) ∈ log → b.header.getID = m.block.header.getID →
    m.block.txs = b.txs

/--
The condition on a step: a task counts no second `ECHO` or `READY` of a
validator for the same hash, no `SEND` for a block that was not proposed, and no
message whose transactions differ from those of a proposed block with its hash;
if it accepts a hash, this is what the erased key is read as; and the leader
proposes no block with the hash of a counted message that carries other
transactions.
-/
def CarefulBodies (c : Committee) (s : SystemState) : SystemAction → Prop
  | .runTask i msgs =>
      (∀ nd evs, (s.nodes i).updateRecvMessages msgs = .ok (nd, evs) →
        OneVoteEach (countedMessages (evs.reverse ++ history i s.log)) ∧
        ∀ m ∈ countedMessages evs, SendProposed c s.log m ∧ BodyProposed c s.log m) ∧
      ∀ nd evs h, (s.nodes i).RunTask msgs nd evs → .delivered h ∈ evs →
        (s.nodes i).erasedRead (s.nodes i).erasedReads h = h
  | .propose b => ∀ i m, (i, .counted m) ∈ s.log →
      b.header.getID = m.block.header.getID → m.block.txs = b.txs
  | _ => True

/-- All counted messages are tied to the proposals. -/
def BodiesProposed (c : Committee) (s : SystemState) : Prop :=
  ∀ i m, (i, .counted m) ∈ s.log → SendProposed c s.log m ∧ BodyProposed c s.log m

theorem SendProposed.mono
    {c : Committee} {log : Log} {m : Message}
    (h : SendProposed c log m)
    (later : Log) :
    SendProposed c (later ++ log) m := by
  intro htype
  obtain ⟨b, hb, hhash⟩ := h htype
  exact ⟨b, List.mem_append_right _ hb, hhash⟩

/-- Entries that propose nothing keep the messages tied to the proposals. -/
theorem BodyProposed.append
    {c : Committee} {log later : Log} {m : Message}
    (h : BodyProposed c log m)
    (hlater : ∀ b, (c.leader, .proposed b) ∉ later) :
    BodyProposed c (later ++ log) m := by
  intro b hb
  rcases List.mem_append.mp hb with hb | hb
  · exact absurd hb (hlater b)
  · exact h b hb

theorem bodiesProposed_propose
    {c : Committee} {s : SystemState} {b : Block} {nd : Node} {evs : List NodeEvent}
    (h : BodiesProposed c s)
    (hguard : CarefulBodies c s (.propose b))
    (hprop : (s.nodes c.leader).propose b = .ok (nd, evs)) :
    BodiesProposed c (s.record c.leader nd evs) := by
  obtain ⟨_, m₀, _, rfl⟩ := propose_eq_ok hprop
  intro i m hm
  have hold : (i, .counted m) ∈ s.log := by
    simpa [SystemState.record] using hm
  obtain ⟨hsend, hbody⟩ := h i m hold
  refine ⟨hsend.mono _, ?_⟩
  intro b' hb' hhash
  have hb'' : b' = b ∨ (c.leader, .proposed b') ∈ s.log := by
    simpa [SystemState.record] using hb'
  rcases hb'' with rfl | hb''
  · exact hguard i m hold hhash
  · exact hbody b' hb'' hhash

theorem bodiesProposed_runTask
    {c : Committee} {s : SystemState} {j : UInt16} {msgs : List Message} {nd : Node}
    {evs : List NodeEvent}
    (h : BodiesProposed c s)
    (hguard : CarefulBodies c s (.runTask j msgs))
    (htask : (s.nodes j).RunTask msgs nd evs) :
    BodiesProposed c (s.record j nd evs) := by
  have hnone : ∀ b, (c.leader, .proposed b) ∉ evs.reverse.map fun e => (j, e) := by
    intro b hb
    obtain ⟨e, he, heq⟩ := List.mem_map.mp hb
    obtain rfl : e = .proposed b := congrArg Prod.snd heq
    exact (runTask_nodeRun htask).1.proposed_notMem b (List.mem_reverse.mp he)
  obtain ⟨nd₁, ev₁, hrecv, hsame⟩ := runTask_countedMessages htask []
  intro i m hm
  have hties : SendProposed c s.log m ∧ BodyProposed c s.log m := by
    rcases List.mem_append.mp hm with hnew | hold
    · obtain ⟨e, he, heq⟩ := List.mem_map.mp hnew
      obtain rfl : e = .counted m := congrArg Prod.snd heq
      have hin : m ∈ countedMessages (evs.reverse ++ []) := by
        rw [List.append_nil]
        exact mem_countedMessages.mpr he
      rw [hsame, List.append_nil] at hin
      exact (hguard.1 nd₁ ev₁ hrecv).2 m
        (mem_countedMessages.mpr (List.mem_reverse.mp (mem_countedMessages.mp hin)))
    · exact h i m hold
  exact ⟨hties.1.mono _, hties.2.append hnone⟩

theorem bodiesProposed_step
    {c : Committee}
    (s : SystemState) (a : SystemAction) (s' : SystemState)
    (h : BodiesProposed c s)
    (hstep : Guarded (CarefulBodies c) (SystemStep c) s a s') :
    BodiesProposed c s' := by
  obtain ⟨hguard, hstep⟩ := hstep
  cases hstep with
  | propose b nd evs hleader hprop =>
      exact bodiesProposed_propose h hguard hprop
  | runTask j msgs nd evs hj hrunning havail htask =>
      exact bodiesProposed_runTask h hguard htask
  | restart j hj hreturned =>
      intro i m hm
      have hold : (i, .counted m) ∈ s.log := by
        simpa [SystemState.record] using hm
      obtain ⟨hsend, hbody⟩ := h i m hold
      exact ⟨hsend.mono _, hbody.append (by simp)⟩
  | setUTXOlists j utxolist walletIds hj =>
      exact h

/-- An accepted hash is the hash of a proposed block. -/
theorem proposed_of_delivered
    {c : Committee} {s : SystemState}
    (hn : 3 * c.f < c.n)
    (hcausal : Causal (Rule c) s.log)
    (hsingle : CountedWithin OneVoteEach s)
    (hbodies : BodiesProposed c s)
    {i : UInt16} {h : Str}
    (hdel : (i, .delivered h) ∈ s.log) :
    ∃ b, (c.leader, .proposed b) ∈ s.log ∧ b.header.getID = h := by
  obtain ⟨k, _, hk⟩ := echo_quorum_of_delivered hcausal
    (readyVotesSound_of_oneVoteEach hsingle h) hdel
  rw [← length_ballots] at hk
  have hmany : c.byz.card < (ballots .echo h (countedMessages (history k s.log))).length := by
    have hbyz := c.byz_card
    have hthreshold : c.f < c.echoThreshold := by
      unfold Committee.echoThreshold
      omega
    omega
  obtain ⟨v, hv, hcorrect⟩ := exists_notMem_of_length (hsingle k .echo h (Or.inl rfl)) hmany
  obtain ⟨m, hm, htype, hhash, rfl⟩ := mem_ballots.mp hv
  obtain ⟨m', hm', htype', hhash'⟩ := send_counted_of_echo hcausal
    (mem_history.mp (mem_countedMessages.mp hm)) htype hcorrect
  obtain ⟨b, hb, hbhash⟩ := (hbodies _ m' hm').1 htype'
  exact ⟨b, hb, by rw [hbhash, hhash', hhash]⟩

/-- The accepted hashes are in `accepted_blocks_`. -/
def RecordsAccepted (c : Committee) (s : SystemState) : Prop :=
  ∀ i, c.Correct i → (s.nodes i).acceptedBlocks = (deliveredHashes (history i s.log)).reverse

theorem recordsAccepted_step
    {c : Committee}
    (s : SystemState) (a : SystemAction) (s' : SystemState)
    (h : RecordsAccepted c s)
    (hstep : Guarded (CarefulBodies c) (SystemStep c) s a s') :
    RecordsAccepted c s' := by
  obtain ⟨hguard, hstep⟩ := hstep
  have hrecord : ∀ j nd evs,
      nd.acceptedBlocks = (s.nodes j).acceptedBlocks ++ deliveredHashes evs →
      RecordsAccepted c (s.record j nd evs) := by
    intro j nd evs haccepted i hi
    by_cases hij : i = j
    · subst hij
      have hnd : (s.record i nd evs).nodes i = nd := by simp [SystemState.record]
      rw [record_history_self, hnd, haccepted, h i hi, deliveredHashes_append,
        deliveredHashes_reverse, List.reverse_append, List.reverse_reverse]
    · have hnd : (s.record j nd evs).nodes i = s.nodes i := by simp [SystemState.record, hij]
      rw [record_history_of_ne s hij, hnd]
      exact h i hi
  cases hstep with
  | propose b nd evs hleader hprop =>
      obtain ⟨rfl, m, _, rfl⟩ := propose_eq_ok hprop
      exact hrecord _ _ _ (List.append_nil _).symm
  | runTask j msgs nd evs hj hrunning havail htask =>
      exact hrecord j nd evs (runTask_appends_of_kept htask fun k hk => hguard.2 nd evs k htask hk)
  | restart j hj hreturned =>
      exact hrecord j _ _ (List.append_nil _).symm
  | setUTXOlists j utxolist walletIds hj =>
      exact hrecord j _ _ (List.append_nil _).symm

/-- A node that has accepted the hash of a proposed block holds its transactions. -/
theorem holds_of_delivered
    {c : Committee} {s : SystemState}
    (hinv : SystemInv c s)
    (hbodies : BodiesProposed c s)
    (haccepted : RecordsAccepted c s)
    {i : UInt16} {b : Block}
    (hi : c.Correct i)
    (hb : (c.leader, .proposed b) ∈ s.log)
    (hdel : (i, .delivered b.header.getID) ∈ s.log) :
    (s.nodes i).Holds b.header.getID b.txs := by
  have hheldFor := fun {k : Str} => exists_held (h := k) hinv.causal (hinv.holdsFirst i hi)
  obtain ⟨m, held, hm, hheld, hid, hbody⟩ := hheldFor hdel
  have hheader : held.header = m.block.header := congrArg Prod.fst hbody
  have hheldTxs : held.txs = m.block.txs := congrArg Prod.snd hbody
  have htxs : held.txs = b.txs :=
    hheldTxs.trans ((hbodies i m hm).2 b hb (by rw [← hheader, hid]))
  have hreceived : (s.nodes i).getReceivedBlock b.header.getID = held := by
    rw [getReceivedBlock, hheld, Option.getD_some]
  have htaken := getConsensusBlocks_fst (s.nodes i) false
  have hmem : ∀ k, k ∈ (s.nodes i).acceptedBlocks ↔ (i, .delivered k) ∈ s.log := by
    intro k
    rw [haccepted i hi, List.mem_reverse, mem_deliveredHashes, mem_history]
  refine ⟨by rw [hreceived, hheld], by rw [hreceived, htxs], ⟨held, ?_, hid⟩, ?_⟩
  · rw [htaken]
    exact List.mem_map.mpr ⟨_, (hmem _).mpr hdel, by rw [hheld, Option.getD_some]⟩
  · intro b' hb' hb'id
    rw [htaken] at hb'
    obtain ⟨k, hk, rfl⟩ := List.mem_map.mp hb'
    obtain ⟨_, held', _, hheld', hid', _⟩ := hheldFor ((hmem k).mp hk)
    rw [hheld', Option.getD_some] at hb'id ⊢
    -- the block under an accepted hash has this hash
    obtain rfl : k = b.header.getID := hid'.symm.trans hb'id
    obtain rfl := Option.some.inj (hheld.symm.trans hheld')
    exact htxs

/-- Content agreement holds in every run whose steps are careful about bodies. -/
theorem contentAgreement_of_careful
    (c : Committee)
    (hn : 3 * c.f < c.n)
    (s : SystemState)
    (hs : Reachable (SystemInit c) (Guarded (CarefulBodies c) (SystemStep c)) s) :
    ContentAgreement c s := by
  have hinv : SystemInv c s := systemInv_of_reachable (hs.mono fun _ _ _ h => h.2)
  have hsingle : CountedWithin OneVoteEach s := by
    refine countedWithin_of_reachable (c := c) (fun _ _ _ => List.nodup_nil) (hs.mono ?_)
    rintro s a s' ⟨hguard, hstep⟩
    refine ⟨?_, hstep⟩
    cases a with
    | runTask i msgs => exact fun nd evs hrecv => (hguard.1 nd evs hrecv).1
    | propose b => trivial
    | restart i => trivial
    | setUTXOlists i utxolist walletIds => trivial
  have hbodies : BodiesProposed c s := by
    refine hs.invariant ?_ bodiesProposed_step
    rintro s ⟨urandom, erasedRead, utxolist, walletIds, rfl⟩ i m hm
    cases hm
  have haccepted : RecordsAccepted c s := by
    refine hs.invariant ?_ recordsAccepted_step
    rintro s ⟨urandom, erasedRead, utxolist, walletIds, rfl⟩ i hi
    rfl
  intro i j h hi hj hdel hdel'
  obtain ⟨b, hb, rfl⟩ := proposed_of_delivered hn hinv.causal hsingle hbodies hdel
  exact ⟨b, hb, rfl, holds_of_delivered hinv hbodies haccepted hi hb hdel,
    holds_of_delivered hinv hbodies haccepted hj hb hdel'⟩

end Contents

section FifoRuns

variable [P : Platform]

/-- A step whose counted messages all carry the only proposed block, with its keys kept. -/
theorem carefulBodies_of_step
    {c : Committee} {b : Block} {s s' : SystemState} {a : SystemAction}
    (hkept : ∀ i, (s.nodes i).erasedRead = keptRead)
    (hstep : SystemStep c s a s')
    (hvotes : CountedWithin OneVoteEach s')
    (honly : ∀ b', (c.leader, .proposed b') ∈ s'.log → b' = b)
    (hbodies : ∀ i m, (i, .counted m) ∈ s'.log → (c.leader, .proposed b) ∈ s'.log ∧
      m.block.header = b.header ∧ m.block.txs = b.txs) :
    CarefulBodies c s a := by
  have hcount := countsWithin_of_step hstep hvotes
  cases hstep with
  | runTask j msgs nd evs hj hrunning havail htask =>
      refine ⟨?_, fun nd' evs' h _ _ => by rw [hkept j]; rfl⟩
      intro nd' evs' hrecv
      refine ⟨hcount nd' evs' hrecv, ?_⟩
      obtain ⟨nd₁, ev₁, hrecv', hsame⟩ := runTask_countedMessages htask []
      obtain ⟨_, rfl⟩ := Prod.mk.inj (Except.ok.inj (hrecv.symm.trans hrecv'))
      intro m hm
      have hcounted : .counted m ∈ evs.reverse ++ [] := by
        apply mem_countedMessages.mp
        rw [hsame]
        apply mem_countedMessages.mpr
        simpa using mem_countedMessages.mp hm
      have hin : (j, .counted m) ∈ (s.record j nd evs).log := by
        apply List.mem_append_left
        exact List.mem_map.mpr ⟨_, by simpa using hcounted, rfl⟩
      obtain ⟨hproposed, hheader, htxs⟩ := hbodies j m hin
      have hearlier : (c.leader, .proposed b) ∈ s.log := by
        rcases List.mem_append.mp hproposed with hnew | hold
        · obtain ⟨e, he, heq⟩ := List.mem_map.mp hnew
          obtain rfl : e = .proposed b := congrArg Prod.snd heq
          exact absurd (List.mem_reverse.mp he) ((runTask_nodeRun htask).1.proposed_notMem b)
        · exact hold
      refine ⟨fun _ => ⟨b, hearlier, by rw [hheader]⟩, ?_⟩
      intro b' hb' _
      rw [honly b' (List.mem_append_right _ hb'), htxs]
  | propose b' nd evs hleader hprop =>
      obtain ⟨_, m₀, _, rfl⟩ := propose_eq_ok hprop
      have hb' : b' = b := honly b' (by simp [SystemState.record])
      intro i m hm _
      rw [hb']
      exact (hbodies i m (List.mem_append_right _ hm)).2.2
  | restart i hi hreturned => trivial
  | setUTXOlists i utxolist walletIds hi => trivial

variable [LawfulPlatform P]

/--
When all validators follow the code and the memory of erased keys is kept, runs
over links with a single proposal meet the condition of the theorem on contents.
-/
theorem carefulBodies_of_single
    {c : Committee} {b : Block} {s : LinkState}
    (hbyz : c.byz = ∅)
    (henc : Encodable b.txs)
    (hwired : b.txs.map wireTransaction = b.txs)
    (hs : SingleReachable c b s)
    (hkept : ∀ i, (s.nodes i).erasedRead = keptRead) :
    Reachable (SystemInit c) (Guarded (CarefulBodies c) (SystemStep c)) s.toSystemState := by
  have hruns := hs.guarded_of_final (P := fun s => ∀ i, (s.nodes i).erasedRead = keptRead)
    (fun _ _ _ hstep h i => (hstep.erasedRead_eq i).symm.trans (h i)) hkept
  refine (guarded_of_link (CarefulBodies c) ?_ hruns).1
  rintro s a s' a' hreach ⟨⟨hbefore, honly⟩, hlink⟩ hsystem
  have hs' : SingleReachable c b s' :=
    (hreach.mono fun _ _ _ h => ⟨h.1.2, h.2⟩).next_guarded hlink honly
  have honly : ∀ b', (c.leader, .proposed b') ∈ s'.log → b' = b := by
    intro b' hb'
    have hmem := mem_proposals hb'
    rcases proposals_of_single henc hs' with hnone | hone
    · rw [hnone] at hmem
      cases hmem
    · rw [hone] at hmem
      exact List.mem_singleton.mp hmem
  have hcausal := (systemInv_of_reachable
    (systemReachable_of_link (hs'.mono fun _ _ _ hstep => hstep.2)).1).causal
  refine carefulBodies_of_step hbefore hsystem
    (fun i => (countedWithin_of_single henc hs' i).1) honly ?_
  intro i m hm
  obtain ⟨b₀, hb₀, hheader, htxs⟩ := fromProposal_of_counted hbyz hcausal hm
  obtain rfl := honly b₀ hb₀
  exact ⟨hb₀, hheader, htxs.trans hwired⟩

end FifoRuns

/-- Validators in lockstep hold the transfer of the proposed block. -/
theorem three_validators_hold_transfer :
    letI := referencePlatform
    ∃ s : SystemState,
      Reachable (SystemInit threeValidators)
        (Guarded (CarefulBodies threeValidators) (SystemStep threeValidators)) s ∧
      (0, .delivered (singleBlock (selfTransfer 100)).header.getID) ∈ s.log ∧
      (1, .delivered (singleBlock (selfTransfer 100)).header.getID) ∈ s.log ∧
      ContentAgreement threeValidators s := by
  let _ := referencePlatform
  obtain ⟨s, t, hs, hmatch, hend, hkept⟩ := exists_linkRun (c := threeValidators)
    (b := singleBlock (selfTransfer 100))
    (p := fun t => decide (∀ i ∈ threeValidators.live, 0 < (t.tallies i).accepted))
    (fun _ => [⟨0, 0, ⟨10, 1⟩⟩]) (fun _ => [1]) (by decide) rfl (selfTransfer_encodable 100)
    (fun _ _ => oneCoinLeader_verify 100) (fun _ _ _ => (equalBytes 0, equalBytes 0))
    (lockstep 0 [0, 1, 2]) (by decide +kernel)
  have haccepted := of_decide_eq_true hend
  have hcareful := carefulBodies_of_single rfl (selfTransfer_encodable 100)
    (selfTransfer_wired 100) hs hkept
  exact ⟨s.toSystemState, hcareful,
    (delivered_iff hmatch (by decide)).mpr (haccepted 0 (by decide)),
    (delivered_iff hmatch (by decide)).mpr (haccepted 1 (by decide)),
    contentAgreement_of_careful threeValidators (by decide) _ hcareful⟩

/-- The header of the empty block with one transaction under it. -/
def swappedBlock : Block :=
  { emptyBlock with txs := [{}] }

/--
The honest leader proposes the empty block, and one faulty validator of four
makes two correct ones hold different transactions under its hash.  Their blocks
have the same header, so no collision is involved.
-/
theorem faulty_validator_swaps_bodies :
    letI := referencePlatform
    3 * oneOfFour.f < oneOfFour.n ∧ oneOfFour.Correct oneOfFour.leader ∧
      ∃ (s : SystemState) (held held' : Block), SystemReachable oneOfFour s ∧
        (0, .proposed emptyBlock) ∈ s.log ∧
        (1, .delivered emptyBlock.header.getID) ∈ s.log ∧
        (2, .delivered emptyBlock.header.getID) ∈ s.log ∧
        (s.nodes 1).blocks.lookup emptyBlock.header.getID = some held ∧
        (s.nodes 2).blocks.lookup emptyBlock.header.getID = some held' ∧
        held.header = held'.header ∧ held.txs ≠ held'.txs ∧
        ¬ ContentAgreement oneOfFour s := by
  let _ := referencePlatform
  refine ⟨by decide, by decide, ?_⟩
  let s₀ := SystemState.initial oneOfFour (fun _ _ _ => (equalBytes 0, equalBytes 0))
    (fun _ => keptRead) (fun _ => []) (fun _ => [])
  obtain ⟨m, hprop⟩ := exists_propose (s₀.nodes 0) (b := emptyBlock) (keyGen_wellFormed _) rfl
  let s₁ := s₀.record 0 (s₀.nodes 0).rotateKeys [.proposed emptyBlock, .broadcast m]
  have hs₁ : SystemReachable oneOfFour s₁ :=
    (Reachable.start ⟨_, _, _, _, rfl⟩).next (.propose s₀ emptyBlock _ _ (by decide) hprop)
  obtain ⟨_, nd, evs, hstep, hstuffed⟩ := exists_stuffed_step (s := s₁) (i := 1) (v := 3)
    (b := swappedBlock) (by decide) (by decide) rfl ⟨_, rfl⟩ (inLine_new rfl _ _ _) rfl
  obtain ⟨_, nd', evs', hstep', hstuffed'⟩ := exists_stuffed_step (s := s₁.record 1 nd evs)
    (i := 2) (v := 3) (b := emptyBlock) (by decide) (by decide) rfl ⟨[], rfl⟩
    (inLine_new rfl _ _ _) rfl
  let s := (s₁.record 1 nd evs).record 2 nd' evs'
  have hs : SystemReachable oneOfFour s := (hs₁.next hstep).next hstep'
  have hinv := systemInv_of_reachable hs
  have hhistory : history 1 s.log = evs.reverse := by
    rw [record_history_of_ne _ (by decide), record_history_self,
      record_history_of_ne _ (by decide)]
    exact List.append_nil _
  have hhistory' : history 2 s.log = evs'.reverse := by
    rw [record_history_self, record_history_of_ne _ (by decide),
      record_history_of_ne _ (by decide)]
    exact List.append_nil _
  have hone : Stuffed swappedBlock (s.nodes 1) evs := hstuffed
  have htwo : Stuffed emptyBlock (s.nodes 2) evs' := hstuffed'
  obtain ⟨hdel, held, hheld, hheader, htxs⟩ := hone.held hhistory hinv
  obtain ⟨hdel', held', hheld', hheader', htxs'⟩ := htwo.held hhistory' hinv
  have hne : held.txs ≠ held'.txs := by
    rw [htxs, htxs']
    decide
  have hproposed : (0, .proposed emptyBlock) ∈ s.log := by
    simp [s, s₁, SystemState.record]
  refine ⟨s, held, held', hs, hproposed, hdel, hdel', hheld, hheld', hheader.trans hheader'.symm,
    hne, ?_⟩
  intro hagree
  obtain ⟨b, _, _, hholds, hholds'⟩ :=
    hagree 1 2 emptyBlock.header.getID (by decide) (by decide) hdel hdel'
  have hone : held.txs = b.txs := by
    rw [Option.some.inj (hheld.symm.trans hholds.stored)]
    exact hholds.received
  have htwo : held'.txs = b.txs := by
    rw [Option.some.inj (hheld'.symm.trans hholds'.stored)]
    exact hholds'.received
  exact hne (hone.trans htwo.symm)

end CosiCoin
