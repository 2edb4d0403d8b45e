import CosiCoin.ReferencePlatform
import CosiCoin.VoteBalance
import Mathlib.Data.Nat.Cast.Basic

/-!
# COSICOIN: delivery in spite of silent validators

A node accepts a hash when it has counted more than `2 f + 1` `READY` messages.
Each live validator sends one, so at least `2 f + 2` of them are needed, and
`f` validators may be silent: `n` has to be at least `3 f + 2`.  Then all live
nodes have accepted the block once no message is left
(`accepted_at_quiescence`).  With `n = 3 f + 1`, the smallest committee the
protocol is made for, nobody accepts anything (`stuck_at_quiescence`).

The votes are counted on the level of the tallies, where they are balanced, and
carried over to the validators.
-/

namespace CosiCoin

open LabelledRuns FifoLinks Node

section Quiet

variable {c : Committee} {t : VoteState}

/-- No message to a live node is left. -/
def VoteState.Quiet (c : Committee) (t : VoteState) : Prop :=
  ∀ j ∈ c.live, t.net.inbox j = [] ∧ ∀ i ∈ c.live, t.net.out i j = []

instance (c : Committee) (t : VoteState) : Decidable (t.Quiet c) :=
  inferInstanceAs (Decidable (∀ j ∈ c.live, _ ∧ ∀ i ∈ c.live, _))

theorem inFlight_of_quiet
    (h : t.Quiet c)
    {j : UInt16}
    (hj : j ∈ c.live)
    (p : MsgType → Bool) :
    inFlight c.live p t.net j = 0 := by
  obtain ⟨hinbox, hout⟩ := h j hj
  rw [inFlight, hinbox, Finset.sum_eq_zero]
  · rfl
  · intro i hi
    rw [hout i hi]
    rfl

theorem Committee.card_live
    (c : Committee) :
    c.n ≤ c.live.card + c.f := by
  have hsplit := Finset.card_sdiff_add_card_eq_card c.byz_subset
  have hbyz := c.byz_card
  show c.vals.card ≤ (c.vals \ c.byz).card + c.f
  omega

/-- The live validators can make up both quorums. -/
def Committee.EnoughLive (c : Committee) : Prop :=
  c.echoThreshold ≤ c.live.card ∧ 2 * c.f + 2 ≤ c.live.card

instance (c : Committee) : Decidable c.EnoughLive :=
  inferInstanceAs (Decidable (_ ∧ _))

theorem Committee.enoughLive_of_le
    (c : Committee)
    (hn : 3 * c.f + 2 ≤ c.n) :
    c.EnoughLive := by
  have hmany := c.card_live
  refine ⟨?_, ?_⟩
  · rw [Committee.echoThreshold]
    omega
  · omega

/-- With enough live validators all of them have accepted once no message is left. -/
theorem accepted_of_enough
    (hinv : VoteInv c t)
    (henough : c.EnoughLive)
    (hquiet : t.Quiet c) :
    ∀ j ∈ c.live, 0 < (t.tallies j).accepted := by
  obtain ⟨hquorum, hmany⟩ := henough
  have hechoSent : ∀ i ∈ c.live, (t.tallies i).echoSent = 1 := by
    intro i hi
    have hsend := hinv.send i hi
    rw [inFlight_of_quiet hquiet hi] at hsend
    simp only [Finset.sum_const_zero] at hsend
    rw [(hinv.sound i hi).echoSent]
    omega
  have hechoSeen : ∀ i ∈ c.live, (t.tallies i).echoSeen = c.live.card := by
    intro i hi
    have hecho := hinv.echo i hi
    rw [inFlight_of_quiet hquiet hi, Finset.sum_congr rfl hechoSent, Finset.sum_const] at hecho
    simpa using hecho
  -- a node that has not accepted still holds all the echoes it has counted
  have hreadySent : ∀ i ∈ c.live, (t.tallies i).readySent.toNat = 1 := by
    intro i hi
    have hsound := hinv.sound i hi
    have hsent : (t.tallies i).readySent = true := by
      apply hsound.announced
      by_cases haccepted : (t.tallies i).accepted = 0
      · right
        rw [(hsound.waiting haccepted).1, hechoSeen i hi]
        exact hquorum
      · exact Or.inl (by omega)
    rw [hsent]
    rfl
  intro j hj
  have hready := hinv.ready j hj
  rw [inFlight_of_quiet hquiet hj, Finset.sum_congr rfl hreadySent, Finset.sum_const] at hready
  have hreadySeen : (t.tallies j).readySeen = c.live.card := by simpa using hready
  by_contra hnone
  obtain ⟨_, hsame, hfew⟩ := (hinv.sound j hj).waiting (by omega)
  omega

end Quiet

section Crash

variable [P : Platform]

/-- No message to a live node is in a queue or unprocessed. -/
def Quiescent (c : Committee) (s : LinkState) : Prop :=
  ∀ j, c.Correct j → s.net.inbox j = [] ∧ ∀ i, s.net.out i j = []

/--
After the proposal of `b`, the only one of the run, every live node has accepted
it whenever no message is left.
-/
def CrashTolerant (c : Committee) (b : Block) : Prop :=
  ∀ s, SingleReachable c b s → (c.leader, .proposed b) ∈ s.log → Quiescent c s →
    ∀ i, c.Correct i → (i, .delivered b.header.getID) ∈ s.log

theorem quiescent_iff
    {c : Committee} {b : Block} {s : LinkState} {t : VoteState}
    (h : Matches c b s t) :
    Quiescent c s ↔ t.Quiet c := by
  constructor
  · intro hquiet j hj
    obtain ⟨hinbox, hout⟩ := hquiet j (Committee.mem_live.mp hj)
    rw [← h.carries.inbox, hinbox]
    refine ⟨rfl, ?_⟩
    intro i _
    rw [← h.carries.out, hout]
    rfl
  · intro hquiet j hj
    obtain ⟨hinbox, hout⟩ := hquiet j (Committee.mem_live.mpr hj)
    rw [← h.carries.inbox] at hinbox
    refine ⟨List.map_eq_nil_iff.mp hinbox, ?_⟩
    intro i
    by_contra hne
    obtain ⟨m, hm⟩ := List.exists_mem_of_ne_nil _ hne
    have hlive := (h.carries.sendable i j m hm).1
    have hnil := hout i hlive
    rw [← h.carries.out] at hnil
    exact hne (List.map_eq_nil_iff.mp hnil)

variable [LawfulPlatform P]

/--
A block that can be written is accepted by all live nodes of a committee of at
least `3 f + 2` validators.
-/
theorem accepted_at_quiescence
    (c : Committee) (b : Block)
    (hn : 3 * c.f + 2 ≤ c.n)
    (henc : Encodable b.txs) :
    CrashTolerant c b := by
  intro s hs hproposed hquiet i hi
  have hleader : c.Correct c.leader := by
    have hreach : LinkReachable c s := hs.mono fun _ _ _ h => h.2
    have hcausal := (systemInv_of_reachable (systemReachable_of_link hreach).1).causal
    obtain ⟨_, _, _, hcorrect, _⟩ := hcausal.exists_of_mem hproposed
    exact hcorrect
  rcases summed_of_reachable henc hs with hinit | ⟨t, ht, hmatch⟩
  · obtain ⟨⟨urandom, erasedRead, utxolist, walletIds, hs₀⟩, _⟩ := hinit
    rw [hs₀] at hproposed
    cases hproposed
  · have hinv := voteInv_of_reachable (Committee.mem_live.mpr hleader) ht
    rw [delivered_iff hmatch hi]
    exact accepted_of_enough hinv (c.enoughLive_of_le hn) ((quiescent_iff hmatch).mp hquiet) i
      (Committee.mem_live.mpr hi)

end Crash

/-- Two validators accept the block when no message is left. -/
theorem two_validators_accept :
    letI := referencePlatform
    ∃ s, SingleReachable twoValidators emptyBlock s ∧ Quiescent twoValidators s ∧
      (0, .proposed emptyBlock) ∈ s.log ∧
      (0, .delivered emptyBlock.header.getID) ∈ s.log ∧
      (1, .delivered emptyBlock.header.getID) ∈ s.log := by
  let _ := referencePlatform
  obtain ⟨s, t, hs, hmatch, hquiet, _⟩ := exists_emptyBlock_run (c := twoValidators) (by decide)
    (lockstep 0 [0, 1]) (fun t => decide (t.Quiet twoValidators)) (by decide +kernel)
  have hquiescent := (quiescent_iff hmatch).mpr (of_decide_eq_true hquiet)
  have haccepted := accepted_at_quiescence twoValidators emptyBlock (by decide) ⟨[], rfl⟩
    s hs hmatch.byLeader hquiescent
  exact ⟨s, hs, hquiescent, hmatch.byLeader, haccepted 0 (by decide), haccepted 1 (by decide)⟩

/-- With four validators one of which is silent no node ever accepts the block. -/
theorem stuck_at_quiescence :
    letI := referencePlatform
    3 * oneOfFour.f < oneOfFour.n ∧ Encodable emptyBlock.txs ∧
      ¬ CrashTolerant oneOfFour emptyBlock := by
  let _ := referencePlatform
  refine ⟨by decide, ⟨[], rfl⟩, ?_⟩
  intro htolerant
  obtain ⟨s, t, hs, hmatch, hend, _⟩ := exists_emptyBlock_run (c := oneOfFour) (by decide)
    (lockstep 0 [0, 1, 2])
    (fun t => decide (t.Quiet oneOfFour ∧ (t.tallies 0).accepted = 0)) (by decide +kernel)
  obtain ⟨hquiet, hnone⟩ := of_decide_eq_true hend
  have haccepted := htolerant s hs hmatch.byLeader ((quiescent_iff hmatch).mpr hquiet) 0 (by decide)
  rw [delivered_iff hmatch (by decide), hnone] at haccepted
  exact lt_irrefl 0 haccepted

end CosiCoin
