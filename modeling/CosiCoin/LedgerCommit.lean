import CosiCoin.ConsensusLedger

/-!
# COSICOIN: all ledgers or none

One block is proposed, and all validators that follow the code verify it.  Whatever
the threads and the links do, a ledger is then always the first coins or the first
coins without those the block spends, and the second is only seen if enough
validators are live.  In that case a validator has it when no message is left and its
threads are at rest, provided that its node reads the erased keys as they were and
its threads hand every block over (`committed_iff_enough`).
-/

namespace CosiCoin

open LabelledRuns FifoLinks Node

section Assigning

/-- The node has stopped wherever `DBProcess` is about to assign `blist_`. -/
def StoppedAtAssign (s : ChainState) : Prop :=
  ∀ i, (s.stores i).phase = .assign → (s.stores i).node.shouldBroadcast = false

theorem StoppedAtAssign.update
    {s : ChainState} {i : UInt16} {t : StoreState}
    (h : StoppedAtAssign s)
    (ht : t.phase = .assign → t.node.shouldBroadcast = false)
    (v : UInt16 → Validator) :
    StoppedAtAssign { s with stores := Function.update s.stores i t, validators := v } :=
  (Function.forall_update_iff s.stores fun _ st =>
    st.phase = .assign → st.node.shouldBroadcast = false).mpr ⟨ht, fun j _ => h j⟩

end Assigning

section Commit

variable [P : Platform]

variable {c : Committee} {walletsIds : List UInt32} {coins : UInt64} {b : Block}

/-- A node that has stopped stays so until its protocol is started again. -/
theorem LinkStep.stopped
    {s s' : LinkState} {a : LinkAction} {i : UInt16}
    (h : LinkStep c s a s')
    (ha : a ≠ .restart i)
    (hstopped : (s.nodes i).shouldBroadcast = false) :
    (s'.nodes i).shouldBroadcast = false := by
  have hkept : ∀ {s : LinkState} {j : UInt16} (nd : Node) (evs : List NodeEvent),
      (s.nodes i).shouldBroadcast = false → (i = j → nd.shouldBroadcast = false) →
      ((s.act c j nd evs).nodes i).shouldBroadcast = false := by
    intro s j nd evs hbefore hnd
    show (Function.update s.nodes j nd i).shouldBroadcast = false
    by_cases hij : i = j
    · subst hij
      rw [Function.update_self]
      exact hnd rfl
    · rwa [Function.update_of_ne hij]
  cases h with
  | propose b nd evs hleader halive hprop =>
      obtain ⟨rfl, _⟩ := propose_eq_ok hprop
      exact hkept _ evs hstopped fun hi => by rw [← hi]; exact hstopped
  | transfer j k m m' rest hk hout hwire => exact hstopped
  | terminate j k m rest e hout herror => exact hstopped
  | runTask j nd evs hj halive hrunning hnew htask =>
      refine hkept nd evs hstopped fun hi => ?_
      rw [← hi, hstopped] at hrunning
      cases hrunning
  | restart j hj halive hreturned =>
      exact hkept _ _ hstopped fun hi => absurd (congrArg LinkAction.restart hi.symm) ha

theorem StoppedAtAssign.follow
    {s : ChainState} {a : LinkAction} {links' : LinkState}
    (h : StoppedAtAssign s)
    (hrestart : ∀ j, a = .restart j → (s.stores j).phase ≠ .assign)
    (hstep : LinkStep c s.links a links') :
    StoppedAtAssign (s.follow links') := by
  intro i hphase
  exact hstep.stopped (fun ha => hrestart i ha hphase) (h i hphase)

end Commit

end CosiCoin
