import CosiCoin.DeliveryThreshold
import CosiCoin.SpendingBounds
import CosiCoin.ValidatorThreads

/-!
# COSICOIN: from the proposals to the ledgers

A block may be lost between the threads, and where an erased key is read as
something else another block is taken, or a default one.  Even so a validator
applies nothing but proposed blocks as the wire leaves them and blocks without
transactions, no more blocks than it has accepted, and the ledger is what these
blocks leave of the first coins.  Where the erased keys are read as they were, no
acceptance is applied twice and every applied block is a proposed one
(`ledger_of_chain`).

The runs built here propose one block, let the nodes accept it in lockstep and then
let the threads of one validator apply it.
-/

namespace CosiCoin

open LabelledRuns CausalLog FifoLinks Node

section Applying

/-- A transaction with one input and one output stays inside the vectors. -/
theorem inRange_of_single
    {t : Transaction} {i : Input} {o : Output}
    (hinputs : t.inputs = [i])
    (houtputs : t.outputs = [o])
    (l : UTXOlist) :
    t.InRange l := by
  intro k input hk p hp
  rw [hinputs] at hk
  cases k with
  | zero =>
      obtain ⟨hlt, _⟩ := UTXOlist.index_spec hp
      simpa [houtputs, spentPositions] using hlt
  | succ k => simp at hk

/-- Blocks of one such transaction are applied without an exception. -/
theorem exists_foldlM_onAgreeBlk
    {blist : List Block} {t : Transaction}
    (hrange : ∀ l, t.InRange l)
    (htxs : ∀ b ∈ blist, b.txs = [t]) :
    ∀ v : Validator, ∃ v', blist.foldlM Validator.onAgreeBlk v = some v' := by
  induction blist with
  | nil => exact fun v => ⟨v, rfl⟩
  | cons b blist ih =>
      intro v
      obtain ⟨hb, hblist⟩ := List.forall_mem_cons.mp htxs
      obtain ⟨m, hm⟩ := Option.isSome_iff_exists.mp
        ((agreeTransaction_isSome_iff v.utxoSets t).mpr (hrange _))
      have happly : v.onAgreeBlk b = some { v with utxoSets := m } := by
        simp [Validator.onAgreeBlk, hb, hm]
      obtain ⟨v', hv'⟩ := ih hblist { v with utxoSets := m }
      refine ⟨v', ?_⟩
      rw [List.foldlM_cons, happly]
      exact hv'

end Applying

section Runs

/-- The links and the log are the same. -/
def SameLinks (s s' : ChainState) : Prop :=
  s'.log = s.log ∧ s'.net = s.net ∧ s'.terminated = s.terminated

theorem SameLinks.trans
    {s s₁ s₂ : ChainState}
    (h₁ : SameLinks s s₁)
    (h₂ : SameLinks s₁ s₂) :
    SameLinks s s₂ :=
  ⟨h₂.1.trans h₁.1, h₂.2.1.trans h₁.2.1, h₂.2.2.trans h₁.2.2⟩

variable [P : Platform]

/--
The condition on a step: the leader proposes only `b`, once, and no consensus thread is
started again while `DBProcess` is about to assign `blist_`.
-/
def ProposesOnce (b : Block) (s : ChainState) : ChainAction → Prop
  | .createAndPropose b' => b' = b ∧ proposals s.log = []
  | .consensus (.restart j) => (s.stores j).phase ≠ .assign
  | _ => True

/-- The states of runs in which only `b` is proposed. -/
def SingleChain (c : Committee) (walletsIds : List UInt32) (coins : UInt64) (b : Block) :
    ChainState → Prop :=
  Reachable (ChainInit c walletsIds coins) (Guarded (ProposesOnce b) (ChainStep c))

/-- The states of runs in which validator `i` also hands its blocks over. -/
def OrderlyChain (c : Committee) (walletsIds : List UInt32) (coins : UInt64) (b : Block)
    (i : UInt16) : ChainState → Prop :=
  Reachable (ChainInit c walletsIds coins)
    (Guarded (fun s a => ProposesOnce b s a ∧ HandsOver i s a) (ChainStep c))

variable {c : Committee} {walletsIds : List UInt32} {coins : UInt64} {b : Block} {i : UInt16}

theorem SingleChain.reachable
    {s : ChainState}
    (h : SingleChain c walletsIds coins b s) :
    Reachable (ChainInit c walletsIds coins) (ChainStep c) s :=
  h.mono fun _ _ _ hstep => hstep.2

theorem OrderlyChain.single
    {s : ChainState}
    (h : OrderlyChain c walletsIds coins b i s) :
    SingleChain c walletsIds coins b s :=
  h.mono fun _ _ _ hstep => ⟨hstep.1.1, hstep.2⟩

theorem OrderlyChain.handsOver
    {s : ChainState}
    (h : OrderlyChain c walletsIds coins b i s) :
    Reachable (ChainInit c walletsIds coins) (Guarded (HandsOver i) (ChainStep c)) s :=
  h.mono fun _ _ _ hstep => ⟨hstep.1.2, hstep.2⟩

/-- The threads that store blocks have not done anything, and the erased keys are kept. -/
def IdleStores (s : ChainState) : Prop :=
  ∀ i, (s.stores i).node.erasedRead = keptRead ∧ ∃ nd further accepted,
    s.stores i = { node := nd, further := further, accepted := accepted }

theorem IdleStores.follow
    {s : ChainState} {a : LinkAction} {links' : LinkState}
    (h : IdleStores s)
    (hstep : LinkStep c s.links a links') :
    IdleStores (s.follow links') := by
  intro i
  obtain ⟨hread, nd, further, accepted, hst⟩ := h i
  have hfollow : (s.follow links').stores i = (s.stores i).follow (links'.nodes i) := rfl
  rw [hst, StoreState.follow] at hfollow
  exact ⟨(hstep.erasedRead_eq i).trans hread, _, _, _, hfollow⟩

/-- What has been accepted is waiting as long as nothing was taken. -/
theorem IdleStores.taken_ne_nil
    {s : ChainState} {t : VoteState}
    (hidle : IdleStores s)
    (hs : OrderlyChain c walletsIds coins b i s)
    (hmatch : Matches c b s.links t)
    (hi : c.Correct i)
    (haccepted : 0 < (t.tallies i).accepted) :
    ((s.stores i).node.getConsensusBlocks true).1 ≠ [] := by
  obtain ⟨_, nd, further, accepted, hst⟩ := hidle i
  have hlength := (nothingLost_of_reachable hs.handsOver).length
  have hdelivered := mem_deliveredHashes.mpr
    (mem_history.mpr ((delivered_iff hmatch hi).mpr haccepted))
  rw [getConsensusBlocks_fst]
  intro hnone
  have hempty : (s.stores i).node.acceptedBlocks = [] := List.map_eq_nil_iff.mp hnone
  rw [hst] at hempty hlength
  rw [StoreState.hashes, hempty] at hlength
  exact absurd (List.length_eq_zero_iff.mp hlength.symm) (List.ne_nil_of_mem hdelivered)

/-- After one proposal, a block from a proposal is `b` as the wire leaves it. -/
theorem wired_of_matches
    {s : ChainState} {t : VoteState} {b' : Block}
    (hmatch : Matches c b s.links t)
    (hb' : FromProposal c s.log b') :
    b'.header = b.header ∧ b'.txs = b.txs.map wireTransaction := by
  obtain ⟨b₀, hb₀, hheader, htxs⟩ := hb'
  have hmem := mem_proposals hb₀
  have hproposed : proposals s.log = [b] := hmatch.proposed
  rw [hproposed] at hmem
  obtain rfl := List.mem_singleton.mp hmem
  exact ⟨hheader, htxs⟩

/-- Steps of the votes are taken while nothing is stored. -/
theorem exists_chainSteps
    [LawfulPlatform P]
    (henc : Encodable b.txs)
    {acts : List VoteAction} {t' : VoteState} :
    ∀ {s : ChainState} {t : VoteState}, OrderlyChain c walletsIds coins b i s →
      Matches c b s.links t → IdleStores s → t.run c acts = some t' →
      ∃ s', OrderlyChain c walletsIds coins b i s' ∧ Matches c b s'.links t' ∧
        IdleStores s' := by
  induction acts with
  | nil =>
      intro s t hs h hidle hrun
      obtain rfl := Option.some.inj hrun
      exact ⟨s, hs, h, hidle⟩
  | cons a acts ih =>
      intro s t hs h hidle hrun
      obtain ⟨t₁, hstep, hrest⟩ := Option.bind_eq_some_iff.mp hrun
      obtain ⟨a', links₁, hguard, hlink, hmatch⟩ := exists_linkStep henc h hstep
      have ha : ∀ b', a' ≠ .propose b' := by
        rintro b' rfl
        have hnone := hguard.2.1
        rw [h.proposed] at hnone
        cases hnone
      have hphase : ∀ j, (s.stores j).phase ≠ .assign := by
        intro j
        obtain ⟨_, nd, further, accepted, hst⟩ := hidle j
        rw [hst]
        nofun
      have hallowed : ProposesOnce b s (.consensus a') := by
        cases a' with
        | restart j => exact hphase j
        | propose b' => trivial
        | transfer j k => trivial
        | terminate j => trivial
        | runTask j => trivial
      exact ih (hs.next_guarded (.consensus s a' links₁ ha hlink) ⟨hallowed, trivial⟩) hmatch
        (hidle.follow hlink) hrest

/-- The threads of validator `i` take a step. -/
theorem OrderlyChain.store
    {s : ChainState} {st t : StoreState} {a : StoreAction}
    (h : OrderlyChain c walletsIds coins b i s)
    (hst : s.stores i = st)
    (hi : c.Correct i)
    (halive : i ∉ s.terminated)
    (ha : a.ofThreads = true)
    (hstep : StoreStep st a t)
    (hguard : HandedOver st a) :
    ∃ s', OrderlyChain c walletsIds coins b i s' ∧ s'.stores i = t ∧ SameLinks s s' := by
  subst hst
  exact ⟨_, h.next_guarded (.store s i a t hi halive ha hstep) ⟨trivial, fun _ => hguard⟩,
    Function.update_self i t s.stores, rfl, rfl, rfl⟩

/--
From a state in which node `i` has stopped with accepted blocks that can be applied,
`DBProcess` and the event thread apply them and come to rest.
-/
theorem OrderlyChain.exists_stored
    {s : ChainState} {nd : Node} {further : Bool} {accepted : List Str}
    (h : OrderlyChain c walletsIds coins b i s)
    (hst : s.stores i = { node := nd, further := further, accepted := accepted })
    (hi : c.Correct i)
    (halive : i ∉ s.terminated)
    (hconsensus : nd.isConsensus = true)
    (hsome : (nd.getConsensusBlocks true).1 ≠ [])
    (happly : ∀ v : Validator, ∃ v',
      (nd.getConsensusBlocks true).1.foldlM Validator.onAgreeBlk v = some v') :
    ∃ s', OrderlyChain c walletsIds coins b i s' ∧ SameLinks s s' ∧
      (s'.stores i).agreed = (nd.getConsensusBlocks true).1 ∧ (s'.stores i).Quiescent ∧
      (s'.stores i).node.erasedRead = nd.erasedRead := by
  let taken := nd.getConsensusBlocks true
  obtain ⟨s₁, h₁, hst₁, hsame₁⟩ := h.store hst hi halive rfl (.testTrue _ rfl hconsensus) trivial
  obtain ⟨s₂, h₂, hst₂, hsame₂⟩ := h₁.store hst₁ hi (by rwa [hsame₁.2.2]) rfl
    (.assign _ taken.1 taken.2 rfl rfl hsome) rfl
  have hsame₂ := hsame₁.trans hsame₂
  obtain ⟨s₃, h₃, hst₃, hsame₃⟩ := h₂.store hst₂ hi (by rwa [hsame₂.2.2]) rfl
    (.publish _ rfl) trivial
  have hsame₃ := hsame₂.trans hsame₃
  obtain ⟨s₄, h₄, hst₄, hsame₄⟩ := h₃.store hst₃ hi (by rwa [hsame₃.2.2]) rfl
    (.subscribe _ rfl) trivial
  have hsame₄ := hsame₃.trans hsame₄
  obtain ⟨s₅, h₅, hst₅, hsame₅⟩ := h₄.store hst₄ hi (by rwa [hsame₄.2.2]) rfl
    (.pop _ .dbstore _ rfl rfl) trivial
  have hsame₅ := hsame₄.trans hsame₅
  -- the task is run by the event thread
  obtain ⟨v', hv'⟩ := happly (s₅.validators i)
  have hrun := ChainStep.run (c := c) s₅ i .dbstore
    (StoreState.runTask { s₅.stores i with current := .none } .store) v'.onSyncReply hi
    (by rwa [hsame₅.2.2]) (by rw [hst₅]) (by
      rw [hst₅]
      show (taken.1.foldlM Validator.onAgreeBlk (s₅.validators i) >>= _) >>= _ = _
      rw [hv']
      rfl)
  have h₆ := h₅.next_guarded hrun
    ⟨trivial, fun _ _ => Or.inr (by rw [hst₅]; exact List.cons_ne_nil _ _)⟩
  have hst₆ := Function.update_self i
    (StoreState.runTask { s₅.stores i with current := .none } .store) s₅.stores
  rw [hst₅] at hst₆ h₆
  obtain ⟨s₇, h₇, hst₇, hsame₇⟩ := OrderlyChain.store h₆ hst₆ hi (by rwa [hsame₅.2.2]) rfl
    (.testTrue _ rfl rfl) trivial
  obtain ⟨s₈, h₈, hst₈, hsame₈⟩ := h₇.store hst₇ hi (by rw [hsame₇.2.2]; rwa [hsame₅.2.2]) rfl
    (.assignEmpty _ _ rfl rfl) rfl
  refine ⟨s₈, h₈, hsame₅.trans (SameLinks.trans hsame₇ hsame₈), ?_, ?_, ?_⟩
  · rw [hst₈]
    rfl
  · rw [hst₈]
    exact ⟨rfl, rfl, rfl, rfl, rfl⟩
  · rw [hst₈]
    rfl

end Runs

section TwoValidators

/-- Two validators with the coin of wallet 1. -/
def coinChain [Platform] : ChainState where
  stores := fun i => {
    node := firstNode twoValidators [1] 10 (fun _ _ _ => (equalBytes 0, equalBytes 0))
      (fun _ => keptRead) i }
  validators := firstValidator twoValidators [1] 10

variable [P : Platform]

/-- The transfer of the coin is received, put into a block and proposed. -/
theorem exists_transferChain
    [LawfulPlatform P] :
    ∃ s, OrderlyChain twoValidators [1] 10 (singleBlock (selfTransfer 100)) 0 s ∧
      Matches twoValidators (singleBlock (selfTransfer 100)) s.links
        (VoteState.start twoValidators) ∧ IdleStores s := by
  have hinit : ChainInit twoValidators [1] 10 coinChain := ⟨_, _, rfl⟩
  have hstart : OrderlyChain twoValidators [1] 10 (singleBlock (selfTransfer 100)) 0 coinChain :=
    .start hinit
  have hlink : LinkInit twoValidators coinChain.links := ⟨⟨_, _, _, _, rfl⟩, rfl, rfl⟩
  have hverified : VerifiedEverywhere twoValidators (singleBlock (selfTransfer 100))
      coinChain.links.toSystemState := fun _ _ => oneCoinLeader_verify 100
  obtain ⟨nd, evs, hprop, hmatch⟩ := matches_propose hlink (by decide) rfl
    (selfTransfer_encodable 100) hverified
  have hpropose : LinkStep twoValidators coinChain.links
      (.propose (singleBlock (selfTransfer 100))) _ :=
    .propose coinChain.links _ nd evs (by decide) (Finset.notMem_empty _) hprop
  have hidle : IdleStores coinChain := fun _ => ⟨rfl, _, _, _, rfl⟩
  rcases onRecvTx_cases (coinChain.validators 0) (selfTransfer 100) with ⟨_, _, hv⟩ | ⟨hn, _⟩
  · have hrecv := ChainStep.recvTx (c := twoValidators) coinChain 0 (selfTransfer 100)
    rw [hv] at hrecv
    have hreceived := hstart.next_guarded hrecv ⟨trivial, trivial⟩
    have hproposed := hreceived.next_guarded (.createAndPropose _ _ _ _
      (createBlk_single rfl rfl (oneCoinLeader_spendable 100)) hpropose) ⟨⟨rfl, rfl⟩, trivial⟩
    exact ⟨_, hproposed, hmatch, hidle.follow hpropose⟩
  · exact absurd ⟨selfTransfer_verifiesUnder 100, oneCoinLeader_spendable 100⟩ hn

/-- Both have accepted, no message is left, and validator 0 has applied the block. -/
theorem exists_storedChain
    [LawfulPlatform P] :
    ∃ s, OrderlyChain twoValidators [1] 10 (singleBlock (selfTransfer 100)) 0 s ∧
      singleBlock (selfTransfer 100) ∈ proposals s.log ∧ Quiescent twoValidators s.links ∧
      (s.stores 0).Quiescent ∧ (s.stores 0).agreed ≠ [] ∧
      (s.stores 0).node.erasedRead = keptRead := by
  obtain ⟨s₀, hs₀, hmatch₀, hidle₀⟩ := exists_transferChain
  have hrun : ((VoteState.start twoValidators).run twoValidators (lockstep 0 [0, 1])).any
      (fun t => decide (t.Quiet twoValidators ∧ 0 < (t.tallies 0).accepted ∧
        (t.tallies 0).running = false)) = true := by
    decide +kernel
  obtain ⟨t, ht, hend⟩ := (Option.any_eq_true _ _).mp hrun
  obtain ⟨hquiet, haccepted, hrunning⟩ := of_decide_eq_true hend
  obtain ⟨s, hs, hmatch, hidle⟩ :=
    exists_chainSteps (selfTransfer_encodable 100) hs₀ hmatch₀ hidle₀ ht
  have hcorrect : twoValidators.Correct 0 := by decide
  have h := chained_of_reachable (by decide) hs.single.reachable
  have hsome := hidle.taken_ne_nil hs hmatch hcorrect haccepted
  obtain ⟨hread, nd, further, accepted, hst⟩ := hidle 0
  have hnode : (s.stores 0).node = nd := congrArg StoreState.node hst
  have hfrom := (h.taken_of_kept (i := 0) ⟨hcorrect.1, Finset.notMem_empty _⟩ hread).2
  rw [hnode] at hsome hfrom hread
  have htxs : ∀ b ∈ (nd.getConsensusBlocks true).1,
      b.txs = [wireTransaction (selfTransfer 100)] :=
    fun b hb => (wired_of_matches hmatch (hfrom b hb)).2
  have hconsensus : nd.isConsensus = true := by
    have htracks : nd.shouldBroadcast = false := by
      rw [← hnode, ← hrunning]
      exact (hmatch.nodes 0 hcorrect).tracks.running
    rw [isConsensus, htracks]
    rfl
  have halive : (0 : UInt16) ∉ s.terminated := by
    have hnone : s.terminated = ∅ := hmatch.alive
    rw [hnone]
    exact Finset.notMem_empty _
  obtain ⟨s', hs', hsame, hagreed, hrest, hread'⟩ := hs.exists_stored hst hcorrect halive
    hconsensus hsome (exists_foldlM_onAgreeBlk (inRange_of_single rfl rfl) htxs)
  refine ⟨s', hs', ?_, ?_, hrest, by rwa [hagreed], hread'.trans hread⟩
  · have hproposed : proposals s.log = [singleBlock (selfTransfer 100)] := hmatch.proposed
    rw [hsame.1, hproposed]
    exact List.mem_singleton.mpr rfl
  · have hlinks := (quiescent_iff hmatch).mpr hquiet
    have hnet : s'.links.net = s.links.net := hsame.2.1
    unfold Quiescent
    rw [hnet]
    exact hlinks

end TwoValidators

/--
In every state of every run, for a validator that follows the code: it has applied
proposed blocks as they arrive over the wire, blocks without transactions and nothing
else, no more than it has accepted, and its lists are the first coins these do not
spend.  If its node reads the erased keys as they were, all of them are proposed
blocks, and no acceptance is applied twice; and none is lost if its threads also hand
over every block.
-/
theorem ledger_of_chain
    [P : Platform]
    [LawfulPlatform P]
    (c : Committee)
    (walletsIds : List UInt32) (coins : UInt64)
    (hids : walletsIds.Nodup)
    (s : ChainState)
    (hrun : Reachable (ChainInit c walletsIds coins) (ChainStep c) s)
    (i : UInt16) :
    (∀ b ∈ (s.stores i).agreed, ProposedOrEmpty c s.log b) ∧
    (s.stores i).hashes.length ≤ (deliveredHashes (history i s.log)).length ∧
    HoldsUnspent (s.validators i).utxoSets
      (Validator.firstCoins { walletsIds := walletsIds } coins)
      ((s.stores i).agreed.flatMap Block.inputs) ∧
    ((s.stores i).node.erasedRead = keptRead →
      (∀ b ∈ (s.stores i).agreed, FromProposal c s.log b) ∧
      (s.stores i).hashes.Subperm (deliveredHashes (history i s.log)) ∧
      (Reachable (ChainInit c walletsIds coins) (Guarded (HandsOver i) (ChainStep c)) s →
        (s.stores i).hashes.Perm (deliveredHashes (history i s.log)))) := by
  have h := (chained_of_reachable hids hrun).ledger i
  refine ⟨fun b hb => h.blocks b (List.mem_append_left _ hb), h.handed, h.lists, fun hread => ?_⟩
  obtain ⟨honce, hfrom⟩ := h.kept hread
  refine ⟨fun b hb => hfrom b (List.mem_append_left _ hb), honce, fun hover => ?_⟩
  exact honce.perm_of_length_le (nothingLost_of_reachable hover).length.ge

/-- The transfer is applied by one of two validators, for the one acceptance there was. -/
theorem ledger_of_chain_once :
    letI := referencePlatform
    ∃ s : ChainState, Reachable (ChainInit twoValidators [1] 10) (ChainStep twoValidators) s ∧
      ∃ b ∈ (s.stores 0).agreed, FromProposal twoValidators s.log b ∧
        (s.stores 0).hashes.Perm (deliveredHashes (history 0 s.log)) ∧
        HoldsUnspent (s.validators 0).utxoSets
          (Validator.firstCoins { walletsIds := [1] } 10)
          ((s.stores 0).agreed.flatMap Block.inputs) := by
  let _ := referencePlatform
  obtain ⟨s, hs, _, _, _, hsome, hread⟩ := exists_storedChain
  obtain ⟨b, hb⟩ := List.exists_mem_of_ne_nil _ hsome
  obtain ⟨_, _, hlists, hkept⟩ :=
    ledger_of_chain twoValidators [1] 10 (by decide) s hs.single.reachable 0
  obtain ⟨hfrom, _, hperm⟩ := hkept hread
  exact ⟨s, hs.single.reachable, b, hb, hfrom b hb, hperm hs.handsOver, hlists⟩

end CosiCoin
