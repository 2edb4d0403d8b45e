import CosiCoin.ReferencePlatform
import CosiCoin.SingleProposal

/-!
# COSICOIN: delivering a block once

On delivery the counters of a hash are erased, and nothing remembers that it
was delivered: later `READY` messages start a new count.  A node sends `READY`
once for each hash and the links do not duplicate, so at most `n` votes reach a
node over its lifetime.  Each delivery uses up `2 f + 2` of them, so a second
delivery of a hash takes `4 f + 4` validators (`delivered_at_most_once`).  With
that many it happens, when the votes arrive in two batches around a restart
(`delivered_twice`).
-/

namespace CosiCoin

open LabelledRuns CausalLog FifoLinks Node

section Delivery

variable [Platform]

/-- Every node accepts a hash at most once over its lifetime. -/
def AtMostOnce (c : Committee) (s : LinkState) : Prop :=
  ∀ i, c.Correct i → ∀ h, deliveries h (history i s.log) ≤ 1

/-- With fewer than `4 f + 4` validators a hash is accepted at most once. -/
theorem delivered_at_most_once
    (c : Committee)
    (hn : c.n < 4 * c.f + 4)
    (s : LinkState)
    (hs : LinkReachable c s) :
    AtMostOnce c s := by
  have hinv := systemInv_of_reachable (systemReachable_of_link hs).1
  intro i hi h
  have hvotes : votes .ready h (history i s.log) ≤ c.n := by
    have hone : ∀ j ∈ c.live, sentMessages (isMessage .ready h) (history j s.log) ≤ 1 := by
      intro j hj
      have hle := (hinv.recorded j (Committee.mem_live.mp hj)).readySent h
      rw [readyBroadcasts_eq_countP] at hle
      exact hle.trans (by split_ifs <;> omega)
    calc votes .ready h (history i s.log)
        ≤ ∑ j ∈ c.live, sentMessages (isMessage .ready h) (history j s.log) :=
          votes_le_sum hs .ready h hi.1
      _ ≤ ∑ _j ∈ c.live, 1 := Finset.sum_le_sum hone
      _ = c.live.card := (Finset.card_eq_sum_ones c.live).symm
      _ ≤ c.n := Finset.card_le_card Finset.sdiff_subset
  have hused := (hinv.recorded i hi).ready h
  rw [(hinv.configured i hi).f] at hused
  by_contra hmany
  have htwo : (2 * c.f + 2) * 2 ≤ (2 * c.f + 2) * deliveries h (history i s.log) :=
    Nat.mul_le_mul_left _ (by omega)
  omega

end Delivery

/-- Four validators that all follow the code, configured with `f = 0`. -/
def fourValidators : Committee where
  vals := {0, 1, 2, 3}
  f := 0
  leader := 0
  byz := ∅
  leader_mem := oneOfFour.leader_mem
  byz_subset := by decide
  byz_card := twoValidators.byz_card
  card_lt := oneOfFour.card_lt

/-- Validator 0 is given two `READY` messages before and two after its restart. -/
def splitDelivery : List VoteAction :=
  [0, 1, 2, 3].map (fun j => .transfer 0 j) ++ [0, 1, 2, 3].map .runTask ++
    transfers [0, 1, 2, 3] ++ [0, 1, 2, 3].map .runTask ++
    [.transfer 0 0, .transfer 1 0, .runTask 0, .restart 0,
      .transfer 2 0, .transfer 3 0, .runTask 0]

/-- In a committee of four with `f = 0` a validator accepts the only proposal twice. -/
theorem delivered_twice :
    letI := referencePlatform
    ∃ s, LinkReachable fourValidators s ∧ fourValidators.byz = ∅ ∧ (proposals s.log).Nodup ∧
      ¬ AtMostOnce fourValidators s := by
  let _ := referencePlatform
  obtain ⟨s, t, hs, hmatch, hend, _⟩ := exists_emptyBlock_run (c := fourValidators) (by decide)
    splitDelivery (fun t => decide ((t.tallies 0).accepted = 2)) (by decide +kernel)
  refine ⟨s, hs.mono fun _ _ _ h => h.2, rfl, ?_, ?_⟩
  · rw [hmatch.proposed]
    exact List.nodup_singleton _
  · intro honce
    have hcount := honce 0 (by decide) emptyBlock.header.getID
    have hnoted := (hmatch.noted 0 (by decide)).accepted
    rw [of_decide_eq_true hend] at hnoted
    have hzero : ({} : Tally).accepted = 0 := rfl
    omega

/-- Two validators that both accept the block do so once. -/
theorem two_validators_deliver_once :
    letI := referencePlatform
    ∃ s, LinkReachable twoValidators s ∧ (0, .delivered emptyBlock.header.getID) ∈ s.log ∧
      AtMostOnce twoValidators s := by
  let _ := referencePlatform
  obtain ⟨s, t, hs, hmatch, hend, _⟩ := exists_emptyBlock_run (c := twoValidators) (by decide)
    (lockstep 0 [0, 1]) (fun t => decide (0 < (t.tallies 0).accepted)) (by decide +kernel)
  have hreach : LinkReachable twoValidators s := hs.mono fun _ _ _ h => h.2
  exact ⟨s, hreach, (delivered_iff hmatch (by decide)).mpr (of_decide_eq_true hend),
    delivered_at_most_once twoValidators (by decide) s hreach⟩

end CosiCoin
