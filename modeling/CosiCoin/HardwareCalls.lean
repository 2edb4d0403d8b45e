import CosiCoin.HardwareRegisters
import CosiCoin.Sha256Compression

/-!
# COSICOIN: the calls of the hardware hash

What `interface_c` brings about, part by part: the first block is loaded, the second
while the core works, and the digest is read.  If at least two clock edges pass
between two accesses of the driver, every call that returns has delivered the digest
of its own blocks (`interface_c_returns_digest`), whenever the core finishes and
however often the hardware was used before.  One edge is not enough: the last word
comes to `ro1` at the second edge after its command.
-/

namespace CosiCoin

namespace HardwareData

open BusDrivers LabelledRuns
open HardwareControl (FsmState ParallelState)

section Calls

variable {opResult : ShaCore → Digest}

/-- The blocks a call announces. -/
def Arguments.blocks (a : Arguments) : List Block :=
  if a.numberBlocks = 0 then [fun j => a.block (firstWord j)]
  else [fun j => a.block (firstWord j), fun j => a.block (secondWord j)]

/-- The bits of the commands that both kinds of calls rely on. -/
structure Commands.Sound (c : Commands) : Prop where
  start : bit c.start 0 = true ∧ bit c.start 2 = false
  firstRead : bit c.firstRead 2 = true ∧ bit c.firstRead 3 = false
  secondRead : bit c.secondRead 3 = true ∧ bit c.secondRead 4 = false
  thirdRead : bit c.thirdRead 4 = true
  firstOutputRead : bit c.firstOutputRead 7 = true ∧ bit c.firstOutputRead 8 = false
  secondOutputRead : bit c.secondOutputRead 8 = true ∧ bit c.secondOutputRead 9 = false
  finish : bit c.finish 9 = true ∧ bit c.finish 0 = true

theorem commands_sound
    (numberBlocks : UInt32) :
    (commands numberBlocks).Sound := by
  by_cases h : numberBlocks = 0
  · rw [commands, if_pos h]
    constructor <;> decide
  · rw [commands, if_neg h]
    constructor <;> decide

theorem stable_settled_idle :
    (hardware opResult).Stable (Settled .idle 0) := by
  intro s i h
  exact h.edge (by decide) rfl i

theorem stable_quiet
    {st : FsmState} {c : UInt32}
    (hst : st ∈ [FsmState.idle, .rin1, .rin2, .rin3])
    (hstay : nextState c false false st = st) :
    (hardware opResult).Stable (Quiet st c) := by
  intro s i h
  exact h.edge hst hstay i

/-- A reading state with a part of the first block. -/
def ReadingFirst (block : Fin 32 → UInt32) (st : FsmState) (c : UInt32) (n : Nat)
    (s : Registers) : Prop :=
  Quiet st c s ∧ Loaded block firstWord n s.block1

variable {block : Fin 32 → UInt32}

theorem stable_readingFirst
    {st : FsmState} {c : UInt32} {n : Nat}
    (hst : st = .rin2 ∧ n = 7 ∨ st = .rin3 ∧ n = 14)
    (hstay : nextState c false false st = st) :
    (hardware opResult).Stable (ReadingFirst block st c n) := by
  rintro s i ⟨hquiet, hloaded⟩
  have hmem : st ∈ [FsmState.idle, .rin1, .rin2, .rin3] := by
    rcases hst with ⟨rfl, _⟩ | ⟨rfl, _⟩ <;> decide
  refine ⟨stable_quiet hmem hstay s i hquiet, ?_⟩
  show Loaded block firstWord n s.nextBlock1
  rw [Registers.nextBlock1, hquiet.state]
  rcases hst with ⟨rfl, rfl⟩ | ⟨rfl, rfl⟩
  · exact hloaded.readWords _ _ _ (le_refl 7)
  · exact hloaded.readWords _ _ _ (le_refl 14)

theorem after_write_readingFirst
    {st : FsmState} {c : UInt32} {n : Nat}
    (hstable : (hardware opResult).Stable (ReadingFirst block st c n))
    (s : Registers) (i : Fin 8) (value : UInt32)
    (hi : i ≠ 0)
    (h : ReadingFirst block st c n s) :
    (hardware opResult).After 2 (ReadingFirst block st c n) (s.write i value) :=
  hstable.after 2 ⟨h.1.write hi value, h.2⟩

/-- Two edges after the third read the core has been given the first block. -/
theorem after_thirdRead
    {c₃ : UInt32}
    {s : Registers}
    (h : ReadingFirst block .rin3 c₃ 14 s)
    (hs : Holds block [30, 31, 0, 1, 2, 3, 4] s)
    (h4 : bit c₃ 4 = true)
    {Q : Registers → Prop}
    (hQ : ∀ s, Started c₃ (fun j => block (firstWord j)) s →
      Loaded block secondWord 5 s.block2 → Q s) :
    (hardware opResult).After 2 Q s := by
  intro i i'
  obtain ⟨hquiet, hloaded⟩ := h
  have hcompute : Quiet .compute c₃ (s.edge opResult i) := by
    refine hquiet.edge (by decide) ?_ i
    simp only [nextState, h4]
    cases bit c₃ 1 <;> rfl
  have hblock1 : Loaded block firstWord 16 (s.edge opResult i).block1 := by
    show Loaded block firstWord 16 s.nextBlock1
    rw [Registers.nextBlock1, hquiet.state]
    exact hloaded.next hs 0 2 (by decide)
  have hblock2 : Loaded block secondWord 5 (s.edge opResult i).block2 := by
    show Loaded block secondWord 5 s.nextBlock2
    rw [Registers.nextBlock2, hquiet.state, hquiet.parallel]
    have hnone : Loaded block secondWord 0 s.block2 := fun j hj => absurd hj (Nat.not_lt_zero _)
    exact hnone.next hs 2 5 (by decide)
  apply hQ
  · rw [← hblock1.eq]
    exact hcompute.edge_compute i'
  · show Loaded block secondWord 5 (s.edge opResult i).nextBlock2
    rw [Registers.nextBlock2, hcompute.state, hcompute.parallel]
    exact hblock2

/-- The first part of a call, for every assertion that the start of the core establishes. -/
theorem performs_loadFirst
    (a : Arguments) {c : Commands}
    (hc : c.Sound)
    {Q : Registers → Prop}
    (hstable : (hardware opResult).Stable Q)
    (hQ : ∀ s, Started c.thirdRead (fun j => a.block (firstWord j)) s →
      Loaded a.block secondWord 5 s.block2 → Q s) :
    Performs (hardware opResult) 2 (Having (Settled .idle 0) []) (loadFirst a c) (Having Q []) := by
  have hidle : (hardware opResult).Stable (Quiet .idle 0) :=
    stable_quiet (by decide) rfl
  have hrin1 : (hardware opResult).Stable (Quiet .rin1 c.start) :=
    stable_quiet (by decide) (by simp [nextState, hc.start.2])
  have hrin2 : (hardware opResult).Stable (ReadingFirst a.block .rin2 c.firstRead 7) :=
    stable_readingFirst (.inl ⟨rfl, rfl⟩) (by simp [nextState, hc.firstRead.2])
  have hrin3 : (hardware opResult).Stable (ReadingFirst a.block .rin3 c.secondRead 14) :=
    stable_readingFirst (.inr ⟨rfl, rfl⟩) (by simp [nextState, hc.secondRead.2])
  have hholds := @stable_holds opResult a.block
  -- the core is reset while the first words are written
  have h₁ : Performs (hardware opResult) 2 (Having (Settled .idle 0) [])
      (loads a.block [16, 17, 18, 19, 20, 21, 22])
      (Having (fun s => Quiet .idle 0 s ∧ Holds a.block [16, 17, 18, 19, 20, 21, 22] s) []) := by
    refine performs_loads stable_settled_idle hidle ?_ ?_ a.block _ (by decide) (by decide)
    · intro s i value hi h
      exact (h.write hi value).after_idle
    · intro s i value hi h
      exact hidle.after 2 (h.write hi value)
  have h₂ : Performs (hardware opResult) 2
      (Having (fun s => Quiet .idle 0 s ∧ Holds a.block [16, 17, 18, 19, 20, 21, 22] s) [])
      [.write 0 0x00]
      (Having (fun s => Quiet .idle 0 s ∧ Holds a.block [16, 17, 18, 19, 20, 21, 22] s) []) := by
    refine performs_write (hidle.and (hholds _)) (hidle.and (hholds _)) ?_
    rintro s ⟨h, hs⟩
    exact (hidle.and (hholds _)).after 2 ⟨h.write_command 0, hs.write_zero (by decide) 0⟩
  have h₃ : Performs (hardware opResult) 2
      (Having (fun s => Quiet .idle 0 s ∧ Holds a.block [16, 17, 18, 19, 20, 21, 22] s) [])
      [.write 0 c.start]
      (Having (fun s => Quiet .rin1 c.start s ∧ Holds a.block [16, 17, 18, 19, 20, 21, 22] s)
        []) := by
    refine performs_write (hidle.and (hholds _)) (hrin1.and (hholds _)) ?_
    rintro s ⟨h, hs⟩
    refine (hrin1.and (hholds _)).after_succ 1 fun i => ⟨?_, hs.write_zero (by decide) _⟩
    exact (h.write_command c.start).edge (by decide) (by simp [nextState, hc.start.1]) i
  have h₄ : Performs (hardware opResult) 2
      (Having (fun s => Quiet .rin1 c.start s ∧ Holds a.block [16, 17, 18, 19, 20, 21, 22] s) [])
      [.write 0 c.firstRead]
      (Having (ReadingFirst a.block .rin2 c.firstRead 7) []) := by
    refine performs_write (hrin1.and (hholds _)) hrin2 ?_
    rintro s ⟨h, hs⟩
    have hnone : Loaded a.block firstWord 0 s.block1 := fun j hj => absurd hj (Nat.not_lt_zero _)
    refine hrin2.after_succ 1 fun i => ⟨?_, ?_⟩
    · exact (h.write_command c.firstRead).edge (by decide) (by simp [nextState, hc.firstRead.1]) i
    · show Loaded a.block firstWord 7 (s.write 0 c.firstRead).nextBlock1
      rw [Registers.nextBlock1, (h.write_command c.firstRead).state]
      exact hnone.next (hs.write_zero (by decide) _) 0 7 (by decide)
  have h₅ : Performs (hardware opResult) 2
      (Having (ReadingFirst a.block .rin2 c.firstRead 7) [])
      (loads a.block [23, 24, 25, 26, 27, 28, 29])
      (Having (fun s => ReadingFirst a.block .rin2 c.firstRead 7 s ∧
        Holds a.block [23, 24, 25, 26, 27, 28, 29] s) []) :=
    performs_loads hrin2 hrin2 (after_write_readingFirst hrin2) (after_write_readingFirst hrin2)
      a.block _ (by decide) (by decide)
  have h₆ : Performs (hardware opResult) 2
      (Having (fun s => ReadingFirst a.block .rin2 c.firstRead 7 s ∧
        Holds a.block [23, 24, 25, 26, 27, 28, 29] s) [])
      [.write 0 c.secondRead]
      (Having (ReadingFirst a.block .rin3 c.secondRead 14) []) := by
    refine performs_write (hrin2.and (hholds _)) hrin3 ?_
    rintro s ⟨⟨h, hloaded⟩, hs⟩
    refine hrin3.after_succ 1 fun i => ⟨?_, ?_⟩
    · exact (h.write_command c.secondRead).edge (by decide)
        (by simp [nextState, hc.secondRead.1]) i
    · show Loaded a.block firstWord 14 (s.write 0 c.secondRead).nextBlock1
      rw [Registers.nextBlock1, (h.write_command c.secondRead).state]
      exact hloaded.next (hs.write_zero (by decide) _) 0 7 (by decide)
  have h₇ : Performs (hardware opResult) 2
      (Having (ReadingFirst a.block .rin3 c.secondRead 14) [])
      (loads a.block [30, 31, 0, 1, 2, 3, 4])
      (Having (fun s => ReadingFirst a.block .rin3 c.secondRead 14 s ∧
        Holds a.block [30, 31, 0, 1, 2, 3, 4] s) []) :=
    performs_loads hrin3 hrin3 (after_write_readingFirst hrin3) (after_write_readingFirst hrin3)
      a.block _ (by decide) (by decide)
  have h₈ : Performs (hardware opResult) 2
      (Having (fun s => ReadingFirst a.block .rin3 c.secondRead 14 s ∧
        Holds a.block [30, 31, 0, 1, 2, 3, 4] s) [])
      [.write 0 c.thirdRead]
      (Having Q []) := by
    refine performs_write (hrin3.and (hholds _)) hstable ?_
    rintro s ⟨⟨h, hloaded⟩, hs⟩
    exact after_thirdRead ⟨h.write_command _, hloaded⟩ (hs.write_zero (by decide) _) hc.thirdRead hQ
  exact h₁.append (h₂.append (h₃.append (h₄.append (h₅.append (h₆.append (h₇.append h₈))))))

/-- The bits of the commands a call with two blocks relies on. -/
structure Commands.SoundTwo (c : Commands) : Prop where
  thirdRead : bit c.thirdRead 1 = true ∧ bit c.thirdRead 5 = false ∧ bit c.thirdRead 6 = false
  fourthRead : bit c.fourthRead 1 = true ∧ bit c.fourthRead 5 = true ∧ bit c.fourthRead 6 = false
  fifthRead : bit c.fifthRead 1 = true ∧ bit c.fifthRead 6 = true ∧ bit c.fifthRead 7 = false

/-- The second state machine reads a part of the second block while the core works. -/
def ReadingSecond (block : Fin 32 → UInt32) (parallel : ParallelState) (c : UInt32) (n : Nat)
    (s : Registers) : Prop :=
  Computing .computeWait parallel c [fun j => block (firstWord j)] s ∧
    Loaded block secondWord n s.block2

/-- The core starts, or the second state machine has begun. -/
def StartingSecond (block : Fin 32 → UInt32) (c : UInt32) (s : Registers) : Prop :=
  (Started c (fun j => block (firstWord j)) s ∨
    Computing .computeWait .rin4 c [fun j => block (firstWord j)] s) ∧
    Loaded block secondWord 5 s.block2

theorem Computing.next_eq
    {parallel : ParallelState} {c : UInt32} {blocks : List Block} {s : Registers}
    (h : Computing .computeWait parallel c blocks s)
    (h1 : bit c 1 = true)
    (h6 : bit c 6 = false) :
    s.next = .computeWait := by
  rw [Registers.next, Registers.block2Ready, h.state, h.parallel, h.command]
  cases parallel <;> simp [nextState, h1, h6]

theorem ReadingSecond.edge_rin4
    {c : UInt32} {s : Registers}
    (h : ReadingSecond block .rin4 c 5 s)
    (h1 : bit c 1 = true)
    (h5 : bit c 5 = false)
    (h6 : bit c 6 = false)
    (i : Bool) :
    ReadingSecond block .rin4 c 5 (s.edge opResult i) := by
  obtain ⟨hc, hloaded⟩ := h
  refine ⟨hc.edge (.inl rfl) (hc.next_eq h1 h6) ?_ i, ?_⟩
  · simp [Registers.nextParallel, hc.parallel, hc.command, h5]
  · show Loaded block secondWord 5 s.nextBlock2
    rw [Registers.nextBlock2, hc.state, hc.parallel]
    exact hloaded.readWords _ _ _ (le_refl 5)

theorem stable_readingSecond
    {c : UInt32}
    (h1 : bit c 1 = true)
    (h5 : bit c 5 = false)
    (h6 : bit c 6 = false) :
    (hardware opResult).Stable (ReadingSecond block .rin4 c 5) :=
  fun _ i h => h.edge_rin4 h1 h5 h6 i

/-- The second state machine begins at the next edge. -/
theorem StartingSecond.edge
    {c : UInt32} {s : Registers}
    (h : StartingSecond block c s)
    (h1 : bit c 1 = true)
    (h5 : bit c 5 = false)
    (h6 : bit c 6 = false)
    (i : Bool) :
    ReadingSecond block .rin4 c 5 (s.edge opResult i) := by
  obtain ⟨hstarted | hc, hloaded⟩ := h
  · refine ⟨?_, ?_⟩
    · have hedge := @Started.edge opResult _ _ _ hstarted i
      rwa [if_pos h1] at hedge
    · show Loaded block secondWord 5 s.nextBlock2
      rw [Registers.nextBlock2, hstarted.state, hstarted.parallel]
      exact hloaded
  · exact ReadingSecond.edge_rin4 ⟨hc, hloaded⟩ h1 h5 h6 i

theorem stable_startingSecond
    {c : UInt32}
    (h1 : bit c 1 = true)
    (h5 : bit c 5 = false)
    (h6 : bit c 6 = false) :
    (hardware opResult).Stable (StartingSecond block c) := by
  intro s i h
  obtain ⟨hc, hloaded⟩ := @StartingSecond.edge opResult _ _ _ h h1 h5 h6 i
  exact ⟨.inr hc, hloaded⟩

theorem Started.write
    {c : UInt32} {block1 : Block} {s : Registers}
    (h : Started c block1 s)
    {i : Fin 8}
    (hi : i ≠ 0)
    (value : UInt32) :
    Started c block1 (s.write i value) :=
  ⟨h.toWorking.write hi value, h.opBlock, h.core⟩

/-- The last words have been read as they are. -/
def ReadingLast (block : Fin 32 → UInt32) (c : UInt32) (s : Registers) : Prop :=
  ReadingSecond block .rin5 c 12 s ∧ readWords s.rin 12 1 4 s.block2 = s.block2

theorem readWords_readWords
    (rin : Fin 8 → UInt32) (lo first count : Nat) (b : Block) :
    readWords rin lo first count (readWords rin lo first count b) =
      readWords rin lo first count b := by
  funext j
  by_cases hj : lo ≤ j.val ∧ j.val < lo + count
  · rw [readWords, if_pos hj, readWords, if_pos hj]
  · rw [readWords, if_neg hj]

theorem ReadingSecond.edge_rin5
    {c : UInt32} {s : Registers}
    (h : ReadingSecond block .rin5 c 12 s)
    (h1 : bit c 1 = true)
    (h6 : bit c 6 = false)
    (i : Bool) :
    ReadingLast block c (s.edge opResult i) := by
  obtain ⟨hc, hloaded⟩ := h
  have hblock2 : s.nextBlock2 = readWords s.rin 12 1 4 s.block2 := by
    rw [Registers.nextBlock2, hc.state, hc.parallel]
  refine ⟨⟨hc.edge (.inl rfl) (hc.next_eq h1 h6) ?_ i, ?_⟩, ?_⟩
  · simp [Registers.nextParallel, hc.parallel, hc.command, h6]
  · show Loaded block secondWord 12 s.nextBlock2
    rw [hblock2]
    exact hloaded.readWords _ _ _ (le_refl 12)
  · show readWords s.rin 12 1 4 s.nextBlock2 = s.nextBlock2
    rw [hblock2, readWords_readWords]

theorem stable_readingLast
    {c : UInt32}
    (h1 : bit c 1 = true)
    (h6 : bit c 6 = false) :
    (hardware opResult).Stable (ReadingLast block c) :=
  fun _ i h => h.1.edge_rin5 h1 h6 i

/-- The next edges read the rest of the second block but for its last words. -/
theorem after_fourthRead
    {c : UInt32} {s : Registers}
    (h : ReadingSecond block .rin4 c 5 s)
    (hs : Holds block [5, 6, 7, 8, 9, 10, 11] s)
    (h1 : bit c 1 = true)
    (h5 : bit c 5 = true)
    (h6 : bit c 6 = false) :
    (hardware opResult).After 2 (ReadingLast block c) s := by
  intro i i'
  obtain ⟨hc, hloaded⟩ := h
  have hrin5 : ReadingSecond block .rin5 c 12 (s.edge opResult i) := by
    refine ⟨hc.edge (.inl rfl) (hc.next_eq h1 h6) ?_ i, ?_⟩
    · simp [Registers.nextParallel, hc.parallel, hc.command, h5]
    · show Loaded block secondWord 12 s.nextBlock2
      rw [Registers.nextBlock2, hc.state, hc.parallel]
      exact hloaded.next hs 0 7 (by decide)
  exact hrin5.edge_rin5 h1 h6 i'

/-- For two blocks: the command was lost, the core works on, or the digest is there. -/
def WaitingTwo (opResult : ShaCore → Digest) (c : UInt32) (blocks : List Block)
    (s : Registers) : Prop :=
  Settled .computeWait c s ∨ Computing .nextWait .none c blocks s ∨
    Holding opResult .wait c blocks s

theorem stable_waitingTwo
    {c : UInt32} {blocks : List Block}
    (h1 : bit c 1 = true)
    (h7 : bit c 7 = false) :
    (hardware opResult).Stable (WaitingTwo opResult c blocks) := by
  rintro s i (hstuck | hc | hholding)
  · exact .inl (hstuck.edge_stuck h1 i)
  · right
    rcases hc.core with hcore | hcore
    · have hnext : s.next = .nextWait := by
        rw [Registers.next, Registers.opResultReady, hc.state, hcore]
        rfl
      refine .inl (hc.edge (.inr rfl) hnext ?_ i)
      simp [Registers.nextParallel, hc.parallel, hc.start]
    · have hnext : s.next = .wait := by
        rw [Registers.next, Registers.opResultReady, hc.state, hcore]
        rfl
      exact .inr (hc.edge_ready (.inr rfl) hcore hnext i)
  · exact .inr (.inr (hholding.edge (.inl rfl) (by simp [nextState, h7]) i))

/-- The last command is sampled by a core that is ready, or it is lost. -/
theorem after_fifthRead
    {c : UInt32} {s : Registers}
    (h : ReadingLast block c s)
    (hs : Holds block [12, 13, 14, 15] s)
    (c₅ : UInt32)
    (h1 : bit c₅ 1 = true)
    (h6 : bit c₅ 6 = true) :
    (hardware opResult).After 2
      (WaitingTwo opResult c₅ [fun j => block (firstWord j), fun j => block (secondWord j)])
      (s.write 0 c₅) := by
  intro i i'
  obtain ⟨⟨hc, hloaded⟩, hlast⟩ := h
  have hblock2 : s.block2 = fun j => block (secondWord j) := by
    have hall := hloaded.next hs 0 4 (by decide)
    rw [hlast] at hall
    exact hall.eq
  have hc' := hc.write_command c₅
  rcases hc'.core with hcore | hcore
  · exact .inl ((hc'.edge_lost hcore h6 i).edge_stuck h1 i')
  · refine .inr (.inl ?_)
    have hhanded := @Computing.edge_handed opResult _ _ _ hc' hcore h1 h6 i
    rw [show (s.write 0 c₅).block2 = s.block2 from rfl, hblock2] at hhanded
    exact hhanded.edge i'

theorem performs_loadSecond
    (a : Arguments) {c : Commands}
    (hc : c.SoundTwo) :
    Performs (hardware opResult) 2
      (Having (StartingSecond a.block c.thirdRead) []) (loadSecond a c)
      (Having (WaitingTwo opResult c.fifthRead
        [fun j => a.block (firstWord j), fun j => a.block (secondWord j)]) []) := by
  obtain ⟨h31, h35, h36⟩ := hc.thirdRead
  obtain ⟨h41, h45, h46⟩ := hc.fourthRead
  obtain ⟨h51, h56, h57⟩ := hc.fifthRead
  have hstarting : (hardware opResult).Stable (StartingSecond a.block c.thirdRead) :=
    stable_startingSecond h31 h35 h36
  have hrin4 : (hardware opResult).Stable (ReadingSecond a.block .rin4 c.thirdRead 5) :=
    stable_readingSecond h31 h35 h36
  have hrin5 : (hardware opResult).Stable (ReadingLast a.block c.fourthRead) :=
    stable_readingLast h41 h46
  have hholds := @stable_holds opResult a.block
  have h₁ : Performs (hardware opResult) 2 (Having (StartingSecond a.block c.thirdRead) [])
      (loads a.block [5, 6, 7, 8, 9, 10, 11])
      (Having (fun s => ReadingSecond a.block .rin4 c.thirdRead 5 s ∧
        Holds a.block [5, 6, 7, 8, 9, 10, 11] s) []) := by
    refine performs_loads hstarting hrin4 ?_ ?_ a.block _ (by decide) (by decide)
    · rintro s i value hi ⟨h, hloaded⟩
      refine hrin4.after_succ 1 fun i' => ?_
      have hwrite : StartingSecond a.block c.thirdRead (s.write i value) :=
        ⟨h.imp (fun h => h.write hi value) fun h => h.write hi value, hloaded⟩
      exact hwrite.edge h31 h35 h36 i'
    · rintro s i value hi ⟨h, hloaded⟩
      exact hrin4.after 2 ⟨h.write hi value, hloaded⟩
  have h₂ : Performs (hardware opResult) 2
      (Having (fun s => ReadingSecond a.block .rin4 c.thirdRead 5 s ∧
        Holds a.block [5, 6, 7, 8, 9, 10, 11] s) [])
      [.write 0 c.fourthRead]
      (Having (ReadingLast a.block c.fourthRead) []) := by
    refine performs_write (hrin4.and (hholds _)) hrin5 ?_
    rintro s ⟨⟨h, hloaded⟩, hs⟩
    exact after_fourthRead ⟨h.write_command _, hloaded⟩ (hs.write_zero (by decide) _) h41 h45 h46
  have h₃ : Performs (hardware opResult) 2 (Having (ReadingLast a.block c.fourthRead) [])
      (loads a.block [12, 13, 14, 15])
      (Having (fun s => ReadingLast a.block c.fourthRead s ∧
        Holds a.block [12, 13, 14, 15] s) []) := by
    have hwrite : ∀ s i value, i ≠ 0 → ReadingLast a.block c.fourthRead s →
        (hardware opResult).After 2 (ReadingLast a.block c.fourthRead) (s.write i value) := by
      rintro s i value hi ⟨⟨h, hloaded⟩, _⟩
      refine hrin5.after_succ 1 fun i' => ?_
      exact ReadingSecond.edge_rin5 ⟨h.write hi value, hloaded⟩ h41 h46 i'
    exact performs_loads hrin5 hrin5 hwrite hwrite a.block _ (by decide) (by decide)
  have h₄ : Performs (hardware opResult) 2
      (Having (fun s => ReadingLast a.block c.fourthRead s ∧ Holds a.block [12, 13, 14, 15] s) [])
      [.write 0 c.fifthRead]
      (Having (WaitingTwo opResult c.fifthRead
        [fun j => a.block (firstWord j), fun j => a.block (secondWord j)]) []) := by
    refine performs_write (hrin5.and (hholds _)) (stable_waitingTwo h51 h57) ?_
    rintro s ⟨h, hs⟩
    exact after_fifthRead h hs c.fifthRead h51 h56
  exact h₁.append (h₂.append (h₃.append h₄))

/-- For one block: the core starts or works, or the digest is there. -/
def WaitingOne (opResult : ShaCore → Digest) (c : UInt32) (block1 : Block) (s : Registers) : Prop :=
  Started c block1 s ∨ Computing .computeWait .none c [block1] s ∨
    Holding opResult .wait c [block1] s

theorem stable_waitingOne
    {c : UInt32} {block1 : Block}
    (h1 : bit c 1 = false)
    (h7 : bit c 7 = false) :
    (hardware opResult).Stable (WaitingOne opResult c block1) := by
  rintro s i (hstarted | hc | hholding)
  · have hedge := @Started.edge opResult _ _ _ hstarted i
    rw [h1] at hedge
    exact .inr (.inl hedge)
  · right
    rcases hc.core with hcore | hcore
    · have hnext : s.next = .computeWait := by
        rw [Registers.next, Registers.opResultReady, hc.state, hcore]
        rfl
      refine .inl (hc.edge (.inl rfl) hnext ?_ i)
      simp [Registers.nextParallel, hc.parallel, hc.start]
    · have hnext : s.next = .wait := by
        rw [Registers.next, Registers.opResultReady, hc.state, hcore, hc.command]
        simp [nextState, h1]
      exact .inr (hc.edge_ready (.inl rfl) hcore hnext i)
  · exact .inr (.inr (hholding.edge (.inl rfl) (by simp [nextState, h7]) i))

/-- The status tells when the digest is there. -/
theorem WaitingOne.holding
    {c : UInt32} {block1 : Block} {s : Registers}
    (h : WaitingOne opResult c block1 s)
    (hstatus : s.status ≠ 0) :
    Holding opResult .wait c [block1] s := by
  rcases h with hstarted | hc | hholding
  · rw [Registers.status, hstarted.state] at hstatus
    exact absurd rfl hstatus
  · rw [Registers.status, hc.state] at hstatus
    exact absurd rfl hstatus
  · exact hholding

theorem WaitingTwo.holding
    {c : UInt32} {blocks : List Block} {s : Registers}
    (h : WaitingTwo opResult c blocks s)
    (hstatus : s.status ≠ 0) :
    Holding opResult .wait c blocks s := by
  rcases h with hstuck | hc | hholding
  · rw [Registers.status, hstuck.state] at hstatus
    exact absurd rfl hstatus
  · rw [Registers.status, hc.state] at hstatus
    exact absurd rfl hstatus
  · exact hholding

theorem stable_holding
    {st : FsmState} {c : UInt32} {blocks : List Block}
    (hst : st = .wait ∨ st = .rout1)
    (hstay : nextState c false false st = st) :
    (hardware opResult).Stable (Holding opResult st c blocks) :=
  fun _ i h => h.edge hst hstay i

/-- The words of a digest, from the lowest bits on. -/
def digestWords (d : Digest) : List UInt32 :=
  List.ofFn d

/-- The last part of a call, from every assertion under which the status announces the digest. -/
theorem performs_readDigest
    {c : Commands}
    (hc : c.Sound)
    {P : Registers → Prop}
    (hP : (hardware opResult).Stable P)
    {c₀ : UInt32} {blocks : List Block}
    (h7 : bit c₀ 7 = false)
    (hholding : ∀ s, P s → s.status ≠ 0 → Holding opResult .wait c₀ blocks s) :
    Performs (hardware opResult) 2 (Having P []) (readDigest c)
      (Having (Settled .idle 0) (digestWords (opResult (.finished blocks)))) := by
  obtain ⟨hf7, hf8⟩ := hc.firstOutputRead
  obtain ⟨hs8, hs9⟩ := hc.secondOutputRead
  obtain ⟨hd9, hd0⟩ := hc.finish
  have hwait : (hardware opResult).Stable (Holding opResult .wait c₀ blocks) :=
    stable_holding (.inl rfl) (by simp [nextState, h7])
  have hrout1 : (hardware opResult).Stable (Holding opResult .rout1 c.firstOutputRead blocks) :=
    stable_holding (.inr rfl) (by simp [nextState, hf8])
  have hrout2 : (hardware opResult).Stable (HoldingLast opResult c.secondOutputRead blocks) :=
    fun s i h => Holding.edge_last h.toSettled h.rbuffer hs9 i
  have hdone : (hardware opResult).Stable (Settled .done c.finish) :=
    fun s i h => h.edge (by decide) (by simp [nextState, hd0]) i
  have h₁ : Performs (hardware opResult) 2 (Having P []) [.poll]
      (Having (Holding opResult .wait c₀ blocks) []) :=
    performs_poll hP hwait hholding
  have h₂ : Performs (hardware opResult) 2 (Having (Holding opResult .wait c₀ blocks) [])
      [.write 0 c.firstOutputRead]
      (Having (Holding opResult .rout1 c.firstOutputRead blocks) []) := by
    refine performs_write hwait hrout1 fun s h => hrout1.after_succ 1 fun i => ?_
    exact (h.write_command _).edge (.inl rfl) (by simp [nextState, hf7]) i
  have hread : ∀ (i : Fin 7) (values : List UInt32),
      Performs (hardware opResult) 2
        (Having (Holding opResult .rout1 c.firstOutputRead blocks) values) [.read i]
        (Having (Holding opResult .rout1 c.firstOutputRead blocks)
          (values ++ [opResult (.finished blocks) i.castSucc])) :=
    fun i _ => performs_read hrout1 fun s h => h.ro i
  have h₃ : Performs (hardware opResult) 2
      (Having (Holding opResult .rout1 c.firstOutputRead blocks)
        ((digestWords (opResult (.finished blocks))).take 7))
      [.write 0 c.secondOutputRead]
      (Having (HoldingLast opResult c.secondOutputRead blocks)
        ((digestWords (opResult (.finished blocks))).take 7)) := by
    refine performs_write hrout1 hrout2 fun s h i i' => ?_
    have hedge : Holding opResult .rout2 c.secondOutputRead blocks
        ((s.write 0 c.secondOutputRead).edge opResult i) :=
      (h.write_command _).edge (.inr rfl) (by simp [nextState, hs8]) i
    exact Holding.edge_last hedge.toSettled hedge.rbuffer hs9 i'
  have h₄ : Performs (hardware opResult) 2
      (Having (HoldingLast opResult c.secondOutputRead blocks)
        ((digestWords (opResult (.finished blocks))).take 7))
      [.read 0]
      (Having (HoldingLast opResult c.secondOutputRead blocks)
        (digestWords (opResult (.finished blocks)))) :=
    performs_read hrout2 fun s h => h.ro
  have h₅ : Performs (hardware opResult) 2
      (Having (HoldingLast opResult c.secondOutputRead blocks)
        (digestWords (opResult (.finished blocks))))
      [.write 0 c.finish]
      (Having (Settled .done c.finish) (digestWords (opResult (.finished blocks)))) := by
    refine performs_write hrout2 hdone fun s h => hdone.after_succ 1 fun i => ?_
    exact (h.toSettled.write_command _).edge (by decide) (by simp [nextState, hd9]) i
  have h₆ : Performs (hardware opResult) 2
      (Having (Settled .done c.finish) (digestWords (opResult (.finished blocks))))
      [.write 0 0x00]
      (Having (Settled .idle 0) (digestWords (opResult (.finished blocks)))) := by
    refine performs_write hdone stable_settled_idle fun s h =>
      stable_settled_idle.after_succ 1 fun i => ?_
    exact (h.write_command 0).edge (by decide) rfl i
  exact h₁.append (h₂.append ((hread 0 _).append ((hread 1 _).append ((hread 2 _).append
    ((hread 3 _).append ((hread 4 _).append ((hread 5 _).append ((hread 6 _).append
    (h₃.append (h₄.append (h₅.append h₆)))))))))))

theorem commands_soundTwo
    {numberBlocks : UInt32}
    (h : numberBlocks ≠ 0) :
    (commands numberBlocks).SoundTwo := by
  rw [commands, if_neg h]
  constructor <;> decide

/-- A call delivers the digest of its blocks and leaves the hardware idle. -/
theorem performs_interface_c
    (opResult : ShaCore → Digest)
    (a : Arguments) :
    Performs (hardware opResult) 2 (Having (Settled .idle 0) []) (interface_c a)
      (Having (Settled .idle 0) (digestWords (opResult (.finished a.blocks)))) := by
  have hc := commands_sound a.numberBlocks
  by_cases h : a.numberBlocks = 0
  · have h31 : bit (commands a.numberBlocks).thirdRead 1 = false := by
      rw [commands, if_pos h]
      decide
    have h37 : bit (commands a.numberBlocks).thirdRead 7 = false := by
      rw [commands, if_pos h]
      decide
    have hwaiting := @stable_waitingOne opResult _ (fun j => a.block (firstWord j)) h31 h37
    have hstart := performs_loadFirst a hc hwaiting fun s hs _ => .inl hs
    have hdigest := performs_readDigest hc hwaiting h37 fun s hs => hs.holding
    rw [interface_c, Arguments.blocks, if_pos h, if_neg (not_not.mpr h), List.nil_append]
    exact hstart.append hdigest
  · have hc' := commands_soundTwo h
    obtain ⟨h31, h35, h36⟩ := hc'.thirdRead
    obtain ⟨h51, _, h57⟩ := hc'.fifthRead
    have hstart := performs_loadFirst a hc (@stable_startingSecond opResult a.block _ h31 h35 h36)
      fun s hs hloaded => ⟨.inl hs, hloaded⟩
    have hdigest := performs_readDigest hc (@stable_waitingTwo opResult _
      [fun j => a.block (firstWord j), fun j => a.block (secondWord j)] h51 h57) h57
      fun s hs => hs.holding
    rw [interface_c, Arguments.blocks, if_neg h, if_pos h]
    exact hstart.append ((performs_loadSecond a hc').append hdigest)

/-- Whenever a call of `interface_c` returns, its output is the digest of its blocks,
most significant word first, as long as the driver leaves two edges between accesses. -/
theorem interface_c_returns_digest
    (opResult : ShaCore → Digest)
    {c : Driving Registers Access UInt32 Arguments}
    (h : Reachable (Fresh (Settled .idle 0)) (Step (hardware opResult) 2 interface_c) c) :
    ∀ r ∈ c.returned, output r.2 = (digestWords (opResult (.finished r.1.blocks))).reverse := by
  intro r hr
  have hvalues := returned_of_reachable stable_settled_idle
    (performs_interface_c opResult) h r hr
  rw [output, hvalues]

/-- Two edges pass, with a core that finishes at once, and an access follows. -/
def serveAccess (opResult : ShaCore → Digest) (c : Driving Registers Access UInt32 Arguments) :
    Driving Registers Access UInt32 Arguments :=
  let s := (c.device.edge opResult true).edge opResult true
  match c.rest with
  | [] => c
  | a :: as =>
      match (hardware opResult).access a s with
      | some r => { c with device := r.1, cycles := 0, rest := as, values := c.values ++ r.2 }
      | none => { c with device := s, cycles := 0 }

theorem reachable_serveAccess
    {c : Driving Registers Access UInt32 Arguments}
    (h : Reachable (Fresh (Settled .idle 0)) (Step (hardware opResult) 2 interface_c) c)
    (n : Nat) :
    Reachable (Fresh (Settled .idle 0)) (Step (hardware opResult) 2 interface_c)
      ((serveAccess opResult)^[n] c) := by
  induction n with
  | zero => exact h
  | succ n ih =>
      rw [Function.iterate_succ_apply']
      have hedges := (ih.next (.edge _ true)).next (.edge _ true)
      rw [serveAccess]
      split
      · exact ih
      · rename_i a as hrest
        have hslack : 2 ≤ ((serveAccess opResult)^[n] c).cycles + 1 + 1 := Nat.le_add_left 2 _
        split
        · rename_i r haccess
          exact hedges.next (.access hrest hslack haccess)
        · rename_i haccess
          exact hedges.next (.again hrest hslack haccess)

/-- Serving the accesses neither ends a call nor starts another. -/
theorem serveAccess_call
    (c : Driving Registers Access UInt32 Arguments) (n : Nat) :
    ((serveAccess opResult)^[n] c).call = c.call ∧
      ((serveAccess opResult)^[n] c).returned = c.returned := by
  induction n with
  | zero => exact ⟨rfl, rfl⟩
  | succ n ih =>
      rw [Function.iterate_succ_apply', serveAccess]
      split
      · exact ih
      · split
        · exact ih
        · exact ih

/-- The registers before the first clock edge. -/
def initialRegisters : Registers where
  rin := fun _ => 0
  state := .idle
  stateParallel := .none
  startParallel := false
  opReset := false
  opInit := false
  opNext := false
  opBlock := fun _ => 0
  block1 := fun _ => 0
  block2 := fun _ => 0
  core := .reset
  ro := fun _ => 0
  rbuffer := 0

/-- The hash after one more block, whose most significant word comes first. -/
def addBlock (s : Sha256.Words) (b : Block) : Sha256.Words :=
  SHA256.updateHash s (Sha256.rounds Sha256.roundConstants (List.ofFn b).reverse s)

/-- A core that computes SHA-256; the lowest bits of its result are the last word. -/
def sha256Core : ShaCore → Digest
  | .finished blocks =>
      let s := blocks.foldl addBlock Sha256.seed
      ![s.h, s.g, s.f, s.e, s.d, s.c, s.b, s.a]
  | _ => fun _ => 0

/-- A padded message of 56 bytes, "abcdbcde...nopq": fourteen words, the bit 1 and the length. -/
def longCall : Arguments where
  block := fun i =>
    if 17 < i.val then 0x61626364 + UInt32.ofNat (31 - i.val) * 0x01010101
    else if i.val = 17 then 0x80000000
    else if i.val = 0 then 448
    else 0
  numberBlocks := 1

theorem digestWords_longCall :
    (digestWords (sha256Core (.finished longCall.blocks))).reverse =
      [0x248d6a61, 0xd20638b8, 0xe5c02693, 0x0c3e6039,
       0xa33ce459, 0x64ff2167, 0xf6ecedd4, 0x19db06c1] := by
  decide +kernel

/-- With a SHA-256 core the call for that message returns its digest. -/
theorem longCall_returns_digest :
    ∃ c : Driving Registers Access UInt32 Arguments,
      Reachable (Fresh (Settled .idle 0)) (Step (hardware sha256Core) 2 interface_c) c ∧
      c.returned.map (fun r => output r.2) =
        [[0x248d6a61, 0xd20638b8, 0xe5c02693, 0x0c3e6039,
          0xa33ce459, 0x64ff2167, 0xf6ecedd4, 0x19db06c1]] := by
  let c : Driving Registers Access UInt32 Arguments :=
    { device := initialRegisters, cycles := 2, call := some longCall, rest := interface_c longCall }
  have hcall : Reachable (Fresh (Settled .idle 0)) (Step (hardware sha256Core) 2 interface_c) c :=
    .next (.start (s := { device := initialRegisters, cycles := 2 })
      ⟨⟨rfl, rfl, rfl, rfl⟩, rfl, rfl, rfl⟩) (.call longCall rfl (le_refl 2))
  have hserved := reachable_serveAccess hcall 60
  have hrest : ((serveAccess sha256Core)^[60] c).rest.isEmpty = true := by
    decide +kernel
  obtain ⟨hcurrent, hreturned⟩ := @serveAccess_call sha256Core c 60
  have hret := hserved.next (.ret hcurrent (List.isEmpty_iff.mp hrest))
  have hdigest := interface_c_returns_digest sha256Core hret
  rw [hreturned] at hret hdigest
  refine ⟨_, hret, ?_⟩
  rw [List.nil_append, List.map_singleton, hdigest _ (by simp), digestWords_longCall]

end Calls

end HardwareData

end CosiCoin
