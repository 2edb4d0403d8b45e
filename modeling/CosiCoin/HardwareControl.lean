import CosiCoin.LabelledRuns
import Mathlib.Tactic

/-!
# COSICOIN: the control of the hardware hash

The two state registers of verilog_code/rsa.v, driven by the commands that
`interface_c` writes for a message of two blocks.  While the first block is
computed, the second state machine reads the rest of the second block;
`block2_ready` shows that it is complete, in the one cycle in which the last
command is sampled in `STATE_RIN5`.

`STATE_COMPUTE_WAIT` is left when the core is ready and `block2_ready` is high at
the same clock edge.  The signal is not stored, so a command sampled before the
core is ready is lost and the state is never left (`two_blocks_never_stuck`).

The core is only known by `op_result_ready`, which rises some time after the core
has sampled `op_init` and then stays high.  `resetn` is high and no DMA error
occurs.  The data registers are left out, they do not influence the control.
-/

namespace CosiCoin

namespace HardwareControl

open LabelledRuns

section Registers

/-- The states of the register `state`. -/
inductive FsmState where
  | idle
  | rin1
  | rin2
  | rin3
  | compute
  | computeWait
  | next
  | nextWait
  | wait
  | rout1
  | rout2
  | done
deriving DecidableEq

/-- The states of the register `state_parallel`; `none` is `2'd0`. -/
inductive ParallelState where
  | none
  | rin4
  | rin5
deriving DecidableEq

/-- The values of `rin0` in the order `interface_c` writes them. -/
inductive Command where
  | reset
  | start
  | firstRead
  | secondRead
  | thirdRead
  | fourthRead
  | fifthRead
  | firstOutputRead
  | secondOutputRead
  | finish
  | idleAgain
deriving DecidableEq

/-- The values for two blocks. -/
def Command.value : Command → UInt32
  | .reset => 0x00
  | .start => 0x3
  | .firstRead => 0x7
  | .secondRead => 0xb
  | .thirdRead => 0x13
  | .fourthRead => 0x23
  | .fifthRead => 0x43
  | .firstOutputRead => 0x83
  | .secondOutputRead => 0x103
  | .finish => 0x203
  | .idleAgain => 0x00

/-- Bit `i` of `rin0`. -/
def Command.bit (c : Command) (i : Nat) : Bool :=
  c.value.toNat.testBit i

def Command.isCmdComp (c : Command) : Bool := c.bit 0
def Command.numBlocks (c : Command) : Bool := c.bit 1
def Command.nextInput2 (c : Command) : Bool := c.bit 2
def Command.nextInput3 (c : Command) : Bool := c.bit 3
def Command.nextInput4 (c : Command) : Bool := c.bit 4
def Command.nextInput5 (c : Command) : Bool := c.bit 5
def Command.nextInput6 (c : Command) : Bool := c.bit 6
def Command.nextOutput1 (c : Command) : Bool := c.bit 7
def Command.nextOutput2 (c : Command) : Bool := c.bit 8
def Command.nextOutput3 (c : Command) : Bool := c.bit 9

/-- The core before `op_init`, at work on the first block, and with `op_result_ready` high. -/
inductive Core where
  | idle
  | busy
  | finished
deriving DecidableEq

/-- The registers, and whether `next_input6` was sampled in `STATE_RIN5`. -/
structure HwState where
  rin0 : Command := .reset
  state : FsmState := .idle
  stateParallel : ParallelState := .none
  startParallel : Bool := false
  opInit : Bool := false
  core : Core := .idle
  sampled6 : Bool := false
deriving DecidableEq

namespace HwState

/-- `op_result_ready`. -/
def opResultReady (s : HwState) : Bool :=
  s.core = .finished

/-- `block2_ready`, a function of the present command and state. -/
def block2Ready (s : HwState) : Bool :=
  match s.stateParallel with
  | .rin5 => s.rin0.nextInput6
  | _ => false

/-- `next_state`. -/
def nextState (s : HwState) : FsmState :=
  match s.state with
  | .idle => if s.rin0.isCmdComp then .rin1 else s.state
  | .rin1 => if s.rin0.nextInput2 then .rin2 else s.state
  | .rin2 => if s.rin0.nextInput3 then .rin3 else s.state
  | .rin3 =>
      if s.rin0.nextInput4 && s.rin0.numBlocks then .compute
      else if s.rin0.nextInput4 && !s.rin0.numBlocks then .compute
      else s.state
  | .compute => .computeWait
  | .computeWait =>
      if s.opResultReady && s.rin0.numBlocks && s.block2Ready then .next
      else if s.opResultReady && !s.rin0.numBlocks then .wait
      else s.state
  | .next => .nextWait
  | .nextWait => if s.opResultReady then .wait else s.state
  | .wait => if s.rin0.nextOutput1 then .rout1 else s.state
  | .rout1 => if s.rin0.nextOutput2 then .rout2 else s.state
  | .rout2 => if s.rin0.nextOutput3 then .done else s.state
  | .done => if !s.rin0.isCmdComp then .idle else s.state

/-- `next_state_parallel`. -/
def nextStateParallel (s : HwState) : ParallelState :=
  match s.stateParallel with
  | .none => if s.startParallel && s.rin0.numBlocks then .rin4 else s.stateParallel
  | .rin4 => if s.rin0.nextInput5 then .rin5 else s.stateParallel
  | .rin5 => if s.rin0.nextInput6 then .none else s.stateParallel

/-- The core starts when it samples `op_init` and may finish at any later edge. -/
def nextCore (s : HwState) (finishes : Bool) : Core :=
  match s.core with
  | .idle => if s.opInit then .busy else .idle
  | .busy => if finishes then .finished else .busy
  | .finished => .finished

/-- One clock edge: all registers change together. -/
def edge (s : HwState) (finishes : Bool) : HwState where
  rin0 := s.rin0
  state := s.nextState
  stateParallel := s.nextStateParallel
  startParallel := s.state = .compute
  opInit := s.state = .compute
  core := s.nextCore finishes
  sampled6 := s.sampled6 || (s.stateParallel = .rin5 && s.rin0.nextInput6)

/-- Some bit of `status` is set: `op_finished`, `isStateIdle` or `isStateDone`. -/
def status (s : HwState) : Bool :=
  s.state = .wait || s.state = .idle || s.state = .done

/-- `interface_c` writes the next command, an input command not before the state it belongs to. -/
def write (s : HwState) : Option HwState :=
  match s.rin0 with
  | .reset => some { s with rin0 := .start }
  | .start => if s.state = .rin1 then some { s with rin0 := .firstRead } else none
  | .firstRead => if s.state = .rin2 then some { s with rin0 := .secondRead } else none
  | .secondRead => if s.state = .rin3 then some { s with rin0 := .thirdRead } else none
  | .thirdRead => if s.stateParallel = .rin4 then some { s with rin0 := .fourthRead } else none
  | .fourthRead => if s.stateParallel = .rin5 then some { s with rin0 := .fifthRead } else none
  | .fifthRead => if s.status then some { s with rin0 := .firstOutputRead } else none
  | .firstOutputRead => some { s with rin0 := .secondOutputRead }
  | .secondOutputRead => some { s with rin0 := .finish }
  | .finish => some { s with rin0 := .idleAgain }
  | .idleAgain => none

end HwState

/-- A clock edge, at which the core may finish, or a write to `rin0`. -/
inductive Action where
  | clock (finishes : Bool)
  | write
deriving DecidableEq

namespace HwState

/-- One action, if it is possible. -/
def act (s : HwState) : Action → Option HwState
  | .clock finishes => some (s.edge finishes)
  | .write => s.write

def Step (s : HwState) (a : Action) (s' : HwState) : Prop :=
  s.act a = some s'

/-- After `STATE_COMPUTE_WAIT`; `STATE_IDLE` is entered again after `STATE_DONE`. -/
def Past (s : HwState) : Prop :=
  s.state ∈ [.next, .nextWait, .wait, .rout1, .rout2, .done, .idle]

/-- With the core ready and the second block complete the computation goes on. -/
def GoesOn (s : HwState) : Prop :=
  s.opResultReady = true → s.sampled6 = true →
    s.Past ∨ s.state = .computeWait ∧ s.nextState ≠ .computeWait

/-- The last command is not sampled in `STATE_RIN5` before the core is ready. -/
def SampledWhenReady (s : HwState) : Action → Prop
  | .clock _ => s.stateParallel = .rin5 → s.rin0.nextInput6 = true → s.opResultReady = true
  | .write => True

instance (s : HwState) : (a : Action) → Decidable (s.SampledWhenReady a)
  | .clock _ => inferInstanceAs (Decidable (_ → _ → _))
  | .write => inferInstanceAs (Decidable True)

end HwState

end Registers

section Phases

/--
The phases of a run in which the last command is sampled when the core is ready:
reading the first block, reading the second block while the core works, and
everything after `STATE_COMPUTE_WAIT`.
-/
inductive Phase : HwState → Prop
  | idle
      {c : Command}
      (hc : c = .reset ∨ c = .start) :
      Phase { rin0 := c }
  | rin1
      {c : Command}
      (hc : c = .start ∨ c = .firstRead) :
      Phase { rin0 := c, state := .rin1 }
  | rin2
      {c : Command}
      (hc : c = .firstRead ∨ c = .secondRead) :
      Phase { rin0 := c, state := .rin2 }
  | rin3
      {c : Command}
      (hc : c = .secondRead ∨ c = .thirdRead) :
      Phase { rin0 := c, state := .rin3 }
  | compute :
      Phase { rin0 := .thirdRead, state := .compute }
  | started :
      Phase { rin0 := .thirdRead, state := .computeWait, startParallel := true, opInit := true }
  | rin4
      {c : Command} {core : Core}
      (hc : c = .thirdRead ∨ c = .fourthRead)
      (hcore : core = .busy ∨ core = .finished) :
      Phase { rin0 := c, state := .computeWait, stateParallel := .rin4, core := core }
  | rin5
      {c : Command} {core : Core}
      (hc : c = .fourthRead ∨ c = .fifthRead)
      (hcore : core = .busy ∨ core = .finished) :
      Phase { rin0 := c, state := .computeWait, stateParallel := .rin5, core := core }
  | past
      {c : Command} {st : FsmState}
      (hc : c ∈ [.fifthRead, .firstOutputRead, .secondOutputRead, .finish, .idleAgain])
      (hst : st ∈ [.next, .nextWait, .wait, .rout1, .rout2, .done]) :
      Phase { rin0 := c, state := st, core := .finished, sampled6 := true }
  | idleAgain :
      Phase { rin0 := .idleAgain, core := .finished, sampled6 := true }

namespace Phase

variable {s s' : HwState}

/-- A busy core is busy or finished after the next clock edge. -/
theorem busy_or_finished
    (finishes : Bool) :
    (if finishes then Core.finished else .busy) = .busy ∨
      (if finishes then Core.finished else .busy) = .finished := by
  cases finishes with
  | false => exact Or.inl rfl
  | true => exact Or.inr rfl

/-- A write of the driver keeps the phases. -/
theorem write
    (h : Phase s)
    (hwrite : s.write = some s') :
    Phase s' := by
  cases h with
  | idle hc =>
      rcases hc with rfl | rfl
      · obtain rfl := Option.some.inj hwrite
        exact idle (Or.inr rfl)
      · cases hwrite
  | rin1 hc =>
      rcases hc with rfl | rfl
      · obtain rfl := Option.some.inj hwrite
        exact rin1 (Or.inr rfl)
      · cases hwrite
  | rin2 hc =>
      rcases hc with rfl | rfl
      · obtain rfl := Option.some.inj hwrite
        exact rin2 (Or.inr rfl)
      · cases hwrite
  | rin3 hc =>
      rcases hc with rfl | rfl
      · obtain rfl := Option.some.inj hwrite
        exact rin3 (Or.inr rfl)
      · cases hwrite
  | compute =>
      cases hwrite
  | started =>
      cases hwrite
  | rin4 hc hcore =>
      rcases hc with rfl | rfl
      · obtain rfl := Option.some.inj hwrite
        exact rin4 (Or.inr rfl) hcore
      · cases hwrite
  | rin5 hc hcore =>
      rcases hc with rfl | rfl
      · obtain rfl := Option.some.inj hwrite
        exact rin5 (Or.inr rfl) hcore
      · cases hwrite
  | past hc hst =>
      simp only [List.mem_cons, List.not_mem_nil, or_false] at hc
      rcases hc with rfl | rfl | rfl | rfl | rfl
      · unfold HwState.write at hwrite
        dsimp only at hwrite
        split_ifs at hwrite
        obtain rfl := Option.some.inj hwrite
        exact past (by decide) hst
      · obtain rfl := Option.some.inj hwrite
        exact past (by decide) hst
      · obtain rfl := Option.some.inj hwrite
        exact past (by decide) hst
      · obtain rfl := Option.some.inj hwrite
        exact past (by decide) hst
      · cases hwrite
  | idleAgain =>
      cases hwrite

/-- A clock edge keeps the phases, if the last command meets a finished core. -/
theorem edge
    (h : Phase s)
    (finishes : Bool)
    (hguard : s.SampledWhenReady (.clock finishes)) :
    Phase (s.edge finishes) := by
  cases h with
  | idle hc =>
      rcases hc with rfl | rfl
      · exact idle (Or.inl rfl)
      · exact rin1 (Or.inl rfl)
  | rin1 hc =>
      rcases hc with rfl | rfl
      · exact rin1 (Or.inl rfl)
      · exact rin2 (Or.inl rfl)
  | rin2 hc =>
      rcases hc with rfl | rfl
      · exact rin2 (Or.inl rfl)
      · exact rin3 (Or.inl rfl)
  | rin3 hc =>
      rcases hc with rfl | rfl
      · exact rin3 (Or.inl rfl)
      · exact compute
  | compute =>
      exact started
  | started =>
      exact rin4 (Or.inl rfl) (Or.inl rfl)
  | rin4 hc hcore =>
      rcases hcore with rfl | rfl
      · rcases hc with rfl | rfl
        · exact rin4 (Or.inl rfl) (busy_or_finished finishes)
        · exact rin5 (Or.inl rfl) (busy_or_finished finishes)
      · rcases hc with rfl | rfl
        · exact rin4 (Or.inl rfl) (Or.inr rfl)
        · exact rin5 (Or.inl rfl) (Or.inr rfl)
  | rin5 hc hcore =>
      rcases hcore with rfl | rfl
      · rcases hc with rfl | rfl
        · exact rin5 (Or.inl rfl) (busy_or_finished finishes)
        · -- the command would be lost, which the condition excludes
          exact absurd (hguard rfl rfl) (by decide)
      · rcases hc with rfl | rfl
        · exact rin5 (Or.inl rfl) (Or.inr rfl)
        · exact past (by decide) (by decide)
  | @past c _ hc hst =>
      simp only [List.mem_cons, List.not_mem_nil, or_false] at hst
      rcases hst with rfl | rfl | rfl | rfl | rfl | rfl
      · exact past hc (show FsmState.nextWait ∈ _ by decide)
      · exact past hc (show FsmState.wait ∈ _ by decide)
      · refine past hc ?_
        show (if c.nextOutput1 then FsmState.rout1 else .wait) ∈ _
        split_ifs
        · decide
        · decide
      · refine past hc ?_
        show (if c.nextOutput2 then FsmState.rout2 else .rout1) ∈ _
        split_ifs
        · decide
        · decide
      · refine past hc ?_
        show (if c.nextOutput3 then FsmState.done else .rout2) ∈ _
        split_ifs
        · decide
        · decide
      · simp only [List.mem_cons, List.not_mem_nil, or_false] at hc
        rcases hc with rfl | rfl | rfl | rfl | rfl
        · exact past (by decide) (by decide)
        · exact past (by decide) (by decide)
        · exact past (by decide) (by decide)
        · exact past (by decide) (by decide)
        · exact idleAgain
  | idleAgain =>
      exact idleAgain

/-- In every phase the computation goes on. -/
theorem goesOn
    (h : Phase s) :
    s.GoesOn := by
  intro hready hsampled
  cases h with
  | idle | rin1 | rin2 | rin3 | compute | started | rin4 | rin5 => cases hsampled
  | past hc hst =>
      have hpast : _ ∈ _ ++ [FsmState.idle] := List.mem_append_left [FsmState.idle] hst
      exact Or.inl hpast
  | idleAgain => exact Or.inl (show FsmState.idle ∈ _ by decide)

end Phase

end Phases

section Runs

/-- Before the first command, with all registers at their initial values. -/
def Initial (s : HwState) : Prop :=
  s = {}

/-- The last command was sampled in `STATE_RIN5` before the core was ready. -/
structure Stuck (s : HwState) : Prop where
  rin0 : s.rin0 = .fifthRead
  state : s.state = .computeWait
  stateParallel : s.stateParallel = .none
  startParallel : s.startParallel = false
  sampled6 : s.sampled6 = true

namespace Stuck

variable {s s' : HwState}

theorem nextState
    (h : Stuck s) :
    s.nextState = .computeWait := by
  have hnum : Command.numBlocks .fifthRead = true := rfl
  unfold HwState.nextState HwState.block2Ready
  rw [h.state, h.stateParallel, h.rin0, hnum]
  simp

/-- No action leads out. -/
theorem step
    {a : Action}
    (h : Stuck s)
    (hstep : HwState.Step s a s') :
    Stuck s' := by
  cases a with
  | clock finishes =>
      obtain rfl := Option.some.inj hstep
      constructor
      · exact h.rin0
      · exact h.nextState
      · show s.nextStateParallel = .none
        unfold HwState.nextStateParallel
        rw [h.stateParallel, h.startParallel]
        rfl
      · show decide (s.state = .compute) = false
        rw [h.state]
        rfl
      · show (s.sampled6 || _) = true
        rw [h.sampled6]
        rfl
  | write =>
      have hwrite : s.write = some s' := hstep
      unfold HwState.write HwState.status at hwrite
      rw [h.rin0, h.state] at hwrite
      cases hwrite

/-- Once the core is ready the computation should go on and does not. -/
theorem not_goesOn
    (h : Stuck s)
    (hready : s.opResultReady = true) :
    ¬ s.GoesOn := by
  intro hgoes
  rcases hgoes hready h.sampled6 with hpast | ⟨_, hleaves⟩
  · unfold HwState.Past at hpast
    rw [h.state] at hpast
    exact absurd hpast (by decide)
  · exact hleaves h.nextState

end Stuck

/-- A command sampled too early leaves the machine stuck. -/
theorem Phase.stuck
    {s : HwState}
    (h : Phase s)
    {finishes : Bool}
    (hearly : ¬ s.SampledWhenReady (.clock finishes)) :
    Stuck (s.edge finishes) := by
  have hearly' : ¬ (s.stateParallel = .rin5 → s.rin0.nextInput6 = true →
      s.opResultReady = true) := hearly
  simp only [Classical.not_imp] at hearly'
  obtain ⟨hrin5, hcommand, hready⟩ := hearly'
  cases h with
  | idle | rin1 | rin2 | rin3 | compute | started | rin4 | past | idleAgain => cases hrin5
  | rin5 hc hcore =>
      rcases hc with rfl | rfl
      · have hshown : Command.nextInput6 .fourthRead = true := hcommand
        exact absurd hshown (by decide)
      · rcases hcore with rfl | rfl
        · exact ⟨rfl, rfl, rfl, rfl, rfl⟩
        · exact absurd rfl hready

/--
In every run in which the last command is not sampled before the core is ready,
the computation goes on once the core is ready and the command was sampled; the
first time it is sampled too early `STATE_COMPUTE_WAIT` is never left again.
-/
theorem two_blocks_never_stuck
    {s : HwState}
    (h : Reachable Initial (Guarded HwState.SampledWhenReady HwState.Step) s) :
    s.GoesOn ∧
      ∀ finishes, ¬ s.SampledWhenReady (.clock finishes) →
        ∀ s', Reachable (fun t => t = s.edge finishes) HwState.Step s' →
          s'.state = .computeWait ∧ s'.nextState = .computeWait := by
  have hphase : Phase s := by
    refine h.invariant ?_ ?_
    · rintro _ rfl
      exact Phase.idle (Or.inl rfl)
    · rintro s a s' hs ⟨hguard, hstep⟩
      cases a with
      | clock finishes =>
          obtain rfl := Option.some.inj hstep
          exact hs.edge finishes hguard
      | write => exact hs.write hstep
  refine ⟨hphase.goesOn, ?_⟩
  intro finishes hearly s' hs'
  have hstuck : Stuck s' := by
    refine hs'.invariant ?_ ?_
    · rintro _ rfl
      exact hphase.stuck hearly
    · intro t a t' ht hstep
      exact ht.step hstep
  exact ⟨hstuck.state, hstuck.nextState⟩

/-- The actions up to `STATE_RIN5`, with the core still at work. -/
def untilRin5 : List Action :=
  [.write, .clock false, .write, .clock false, .write, .clock false, .write, .clock false,
    .clock false, .clock false, .write, .clock false]

/-- The core finishes before the last command is written. -/
theorem late_command_goes_on :
    ∃ s : HwState, s.opResultReady = true ∧ s.sampled6 = true ∧ s.GoesOn := by
  have hrun : ∃ s : HwState,
      (untilRin5 ++ [Action.clock true, Action.write, Action.clock false]).foldlM
        (fun t a => if t.SampledWhenReady a then t.act a else none) ({} : HwState) = some s ∧
      s.opResultReady = true ∧ s.sampled6 = true :=
    ⟨_, rfl, rfl, rfl⟩
  obtain ⟨s, hs, hready, hsampled⟩ := hrun
  have hreach : Reachable Initial (Guarded HwState.SampledWhenReady HwState.Step) s := by
    refine Reachable.of_foldlM ?_ (Reachable.start rfl) hs
    intro t a t' h
    split_ifs at h with hguard
    exact ⟨hguard, h⟩
  exact ⟨s, hready, hsampled, (two_blocks_never_stuck hreach).1⟩

/-- The last command is sampled one cycle before the core is ready. -/
theorem early_command_is_lost :
    ¬ ∀ s : HwState, Reachable Initial HwState.Step s → s.GoesOn := by
  intro h
  have hrun : ∃ s : HwState,
      (untilRin5 ++ [Action.write, Action.clock false, Action.clock true]).foldlM HwState.act
        ({} : HwState) = some s ∧ s.opResultReady = true ∧ Stuck s :=
    ⟨_, rfl, rfl, ⟨rfl, rfl, rfl, rfl, rfl⟩⟩
  obtain ⟨s, hs, hready, hstuck⟩ := hrun
  have hreach : Reachable Initial HwState.Step s :=
    Reachable.of_foldlM (fun _ _ _ hstep => hstep) (Reachable.start rfl) hs
  exact hstuck.not_goesOn hready (h s hreach)

end Runs

end HardwareControl

end CosiCoin
