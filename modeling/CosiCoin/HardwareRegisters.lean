import CosiCoin.BusDrivers
import CosiCoin.HardwareControl

/-!
# COSICOIN: the registers of the hardware hash

All registers of verilog_code/rsa.v, and `interface_c` of lib/interf/interface.c,
which loads a message of one or two blocks, waits for the status and reads the
digest in two parts.  A block of 512 bits is kept as sixteen words, word `i` being
the bits 32 i + 31 to 32 i, and a digest as eight.

The blocks are read from the input registers at every clock edge of a reading
state, and the digest is copied at every edge of a waiting state.  The phases of a
computation are structures of facts about the registers; each has a lemma for the
clock edge and one for the writes of the driver.

The core `sha256_core` is not part of the repository: `opResult` is an arbitrary
function of the blocks it was given since `op_init`.  `resetn` is high and no DMA
error occurs.
-/

namespace CosiCoin

namespace HardwareData

open BusDrivers LabelledRuns
open HardwareControl (FsmState ParallelState)

section Source

/-- A register of 512 bits. -/
abbrev Block := Fin 16 → UInt32

/-- A register of 256 bits. -/
abbrev Digest := Fin 8 → UInt32

/-- The core after a reset, at work on blocks, or with `op_result_ready` high. -/
inductive ShaCore where
  | reset
  | busy (blocks : List Block)
  | finished (blocks : List Block)

/-- The registers of the module; `ro i` is `ro1`, ..., `ro7` for `i` from 0 to 6. -/
structure Registers where
  rin : Fin 8 → UInt32
  state : FsmState
  stateParallel : ParallelState
  startParallel : Bool
  opReset : Bool
  opInit : Bool
  opNext : Bool
  opBlock : Block
  block1 : Block
  block2 : Block
  core : ShaCore
  ro : Fin 7 → UInt32
  rbuffer : UInt32

/-- Bit `i` of a register. -/
def bit (r : UInt32) (i : Nat) : Bool :=
  r.toNat.testBit i

/-- The words `lo`, ..., `lo + count - 1` are read from `rin` number `first` on. -/
def readWords (rin : Fin 8 → UInt32) (lo first count : Nat) (b : Block) : Block :=
  fun j =>
    if lo ≤ j.val ∧ j.val < lo + count then rin (Fin.ofNat 8 (first + (j.val - lo))) else b j

/-- `next_state`, from the command, `op_result_ready` and `block2_ready`. -/
def nextState (command : UInt32) (ready block2Ready : Bool) : FsmState → FsmState
  | .idle => if bit command 0 then .rin1 else .idle
  | .rin1 => if bit command 2 then .rin2 else .rin1
  | .rin2 => if bit command 3 then .rin3 else .rin2
  | .rin3 =>
      if bit command 4 && bit command 1 then .compute
      else if bit command 4 && !bit command 1 then .compute
      else .rin3
  | .compute => .computeWait
  | .computeWait =>
      if ready && bit command 1 && block2Ready then .next
      else if ready && !bit command 1 then .wait
      else .computeWait
  | .next => .nextWait
  | .nextWait => if ready then .wait else .nextWait
  | .wait => if bit command 7 then .rout1 else .wait
  | .rout1 => if bit command 8 then .rout2 else .rout1
  | .rout2 => if bit command 9 then .done else .rout2
  | .done => if !bit command 0 then .idle else .done

namespace Registers

/-- `op_result_ready`. -/
def opResultReady (s : Registers) : Bool :=
  match s.core with
  | .finished _ => true
  | _ => false

/-- `block2_ready`. -/
def block2Ready (s : Registers) : Bool :=
  match s.stateParallel with
  | .rin5 => bit (s.rin 0) 6
  | _ => false

def next (s : Registers) : FsmState :=
  nextState (s.rin 0) s.opResultReady s.block2Ready s.state

/-- `next_state_parallel`. -/
def nextParallel (s : Registers) : ParallelState :=
  match s.stateParallel with
  | .none => if s.startParallel && bit (s.rin 0) 1 then .rin4 else .none
  | .rin4 => if bit (s.rin 0) 5 then .rin5 else .rin4
  | .rin5 => if bit (s.rin 0) 6 then .none else .rin5

/-- The core samples its inputs; while it is busy it may finish at any edge. -/
def nextCore (s : Registers) (finishes : Bool) : ShaCore :=
  if s.opReset then
    match s.core with
    | .reset => if s.opInit then .busy [s.opBlock] else .reset
    | .busy blocks => if finishes then .finished blocks else .busy blocks
    | .finished blocks =>
        if s.opInit then .busy [s.opBlock]
        else if s.opNext then .busy (blocks ++ [s.opBlock])
        else .finished blocks
  else .reset

def nextBlock1 (s : Registers) : Block :=
  match s.state with
  | .rin1 => readWords s.rin 0 1 7 s.block1
  | .rin2 => readWords s.rin 7 1 7 s.block1
  | .rin3 => readWords s.rin 14 1 2 s.block1
  | _ => s.block1

def nextBlock2 (s : Registers) : Block :=
  let block2 :=
    match s.state with
    | .rin3 => readWords s.rin 0 3 5 s.block2
    | _ => s.block2
  match s.stateParallel with
  | .rin4 => readWords s.rin 5 1 7 block2
  | .rin5 => readWords s.rin 12 1 4 block2
  | .none => block2

/-- The control signals of the core keep it out of reset in these states. -/
def working (s : Registers) : Bool :=
  s.state = .compute || s.state = .computeWait || s.state = .next || s.state = .nextWait

def nextOpBlock (s : Registers) : Block :=
  if s.next = .next then s.block2
  else
    match s.state with
    | .compute => s.block1
    | .computeWait => s.block1
    | .next => s.block2
    | .nextWait => s.block2
    | _ => s.opBlock

def nextRo (opResult : ShaCore → Digest) (s : Registers) : Fin 7 → UInt32 :=
  match s.state with
  | .computeWait => fun i => opResult s.core i.castSucc
  | .nextWait => fun i => opResult s.core i.castSucc
  | .rout2 => fun i => if i = 0 then s.rbuffer else s.ro i
  | _ => s.ro

def nextRbuffer (opResult : ShaCore → Digest) (s : Registers) : UInt32 :=
  match s.state with
  | .computeWait => opResult s.core 7
  | .nextWait => opResult s.core 7
  | _ => s.rbuffer

/-- One clock edge: all registers change together. -/
def edge (opResult : ShaCore → Digest) (s : Registers) (finishes : Bool) : Registers where
  rin := s.rin
  state := s.next
  stateParallel := s.nextParallel
  startParallel := s.state = .compute
  opReset := s.working || s.next = .next
  opInit := s.state = .compute
  opNext := s.next = .next
  opBlock := s.nextOpBlock
  block1 := s.nextBlock1
  block2 := s.nextBlock2
  core := s.nextCore finishes
  ro := s.nextRo opResult
  rbuffer := s.nextRbuffer opResult

/-- A write to an input register. -/
def write (s : Registers) (i : Fin 8) (value : UInt32) : Registers :=
  { s with rin := Function.update s.rin i value }

/-- `status`. -/
def status (s : Registers) : UInt32 :=
  (if s.state = .wait then 8 else 0) + (if s.state = .idle then 2 else 0) +
    (if s.state = .done then 1 else 0)

end Registers

/-- The accesses of `interface_c`: a write to `hw_base[i]`, the loop that waits for a
status, a read of `hw_base[i + 1]`. -/
inductive Access where
  | write (i : Fin 8) (value : UInt32)
  | poll
  | read (i : Fin 7)

/-- The hardware on the bus. -/
def hardware (opResult : ShaCore → Digest) : Device Registers Bool Access UInt32 where
  edge := Registers.edge opResult
  access
    | .write i value, s => some (s.write i value, [])
    | .poll, s => if s.status = 0 then none else some (s, [])
    | .read i, s => some (s, [s.ro i])

/-- The values `interface_c` writes to `hw_base[0]`. -/
structure Commands where
  start : UInt32
  firstRead : UInt32
  secondRead : UInt32
  thirdRead : UInt32
  fourthRead : UInt32
  fifthRead : UInt32
  firstOutputRead : UInt32
  secondOutputRead : UInt32
  finish : UInt32

def commands (numberBlocks : UInt32) : Commands :=
  if numberBlocks = 0 then
    { start := 0x1, firstRead := 0x5, secondRead := 0x9, thirdRead := 0x11, fourthRead := 0x0,
      fifthRead := 0x0, firstOutputRead := 0x81, secondOutputRead := 0x101, finish := 0x201 }
  else
    { start := 0x3, firstRead := 0x7, secondRead := 0xb, thirdRead := 0x13, fourthRead := 0x23,
      fifthRead := 0x43, firstOutputRead := 0x83, secondOutputRead := 0x103, finish := 0x203 }

/-- Words of the argument `block` are written to `hw_base[1]`, `hw_base[2]`, .... -/
def loads (block : Fin 32 → UInt32) (words : List (Fin 32)) : List Access :=
  words.mapIdx fun k j => .write (Fin.ofNat 8 (k + 1)) (block j)

/-- The arguments of `interface_c`. -/
structure Arguments where
  block : Fin 32 → UInt32
  numberBlocks : UInt32

/-- The first block is loaded, with the words of the second that fit beside it. -/
def loadFirst (a : Arguments) (c : Commands) : List Access :=
  loads a.block [16, 17, 18, 19, 20, 21, 22] ++
    .write 0 0x00 :: .write 0 c.start :: .write 0 c.firstRead ::
    (loads a.block [23, 24, 25, 26, 27, 28, 29] ++
    .write 0 c.secondRead ::
    (loads a.block [30, 31, 0, 1, 2, 3, 4] ++ [.write 0 c.thirdRead]))

/-- The rest of the second block is loaded. -/
def loadSecond (a : Arguments) (c : Commands) : List Access :=
  loads a.block [5, 6, 7, 8, 9, 10, 11] ++
    .write 0 c.fourthRead ::
    (loads a.block [12, 13, 14, 15] ++ [.write 0 c.fifthRead])

/-- The digest is waited for and read, and the hardware made idle again. -/
def readDigest (c : Commands) : List Access :=
  [.poll, .write 0 c.firstOutputRead,
    .read 0, .read 1, .read 2, .read 3, .read 4, .read 5, .read 6,
    .write 0 c.secondOutputRead, .read 0, .write 0 c.finish, .write 0 0x00]

/-- The accesses of `interface_c`. -/
def interface_c (a : Arguments) : List Access :=
  let c := commands a.numberBlocks
  loadFirst a c ++ ((if a.numberBlocks ≠ 0 then loadSecond a c else []) ++ readDigest c)

/-- The words `output[0]`, ..., `output[7]`, from `out1`, ..., `out8`. -/
def output (values : List UInt32) : List UInt32 :=
  values.reverse

end Source

/-- The transitions of `HardwareControl` are these, at the values of its commands. -/
theorem nextState_control
    (s : HardwareControl.HwState) :
    s.nextState = nextState s.rin0.value s.opResultReady s.block2Ready s.state := by
  rw [HardwareControl.HwState.nextState]
  cases s.state <;> rfl

theorem Registers.write_self
    (s : Registers) (i : Fin 8) (value : UInt32) :
    (s.write i value).rin i = value := by
  show Function.update s.rin i value i = value
  exact Function.update_self _ _ _

section Rules

variable {opResult : ShaCore → Digest}

/-- An assertion about the registers, with the values read so far. -/
def Having (P : Registers → Prop) (values : List UInt32) (s : Registers)
    (vs : List UInt32) : Prop :=
  P s ∧ vs = values

theorem Having.stable
    {P : Registers → Prop}
    (hP : (hardware opResult).Stable P)
    (values vs : List UInt32) :
    (hardware opResult).Stable fun s => Having P values s vs :=
  fun s i h => ⟨hP s i h.1, h.2⟩

variable {P Q : Registers → Prop}
variable {values : List UInt32}

theorem performs_write
    {i : Fin 8} {value : UInt32}
    (hP : (hardware opResult).Stable P)
    (hQ : (hardware opResult).Stable Q)
    (h : ∀ s, P s → (hardware opResult).After 2 Q (s.write i value)) :
    Performs (hardware opResult) 2 (Having P values) [.write i value] (Having Q values) := by
  refine .single (Having.stable hP values) (Having.stable hQ values) ?_
  rintro s vs s' ws ⟨hs, rfl⟩ haccess
  obtain ⟨rfl, rfl⟩ := Prod.mk.inj (Option.some.inj haccess)
  refine (h s hs).mono fun s'' hs'' => ⟨hs'', List.append_nil vs⟩

theorem performs_poll
    (hP : (hardware opResult).Stable P)
    (hQ : (hardware opResult).Stable Q)
    (h : ∀ s, P s → s.status ≠ 0 → Q s) :
    Performs (hardware opResult) 2 (Having P values) [.poll] (Having Q values) := by
  refine .single (Having.stable hP values) (Having.stable hQ values) ?_
  rintro s vs s' ws ⟨hs, rfl⟩ haccess
  by_cases hstatus : s.status = 0
  · simp [hardware, hstatus] at haccess
  · simp only [hardware, hstatus, if_false] at haccess
    obtain ⟨rfl, rfl⟩ := Prod.mk.inj (Option.some.inj haccess)
    refine (Having.stable hQ vs _).after 2 ⟨h s hs hstatus, List.append_nil vs⟩

theorem performs_read
    {i : Fin 7} {value : UInt32}
    (hP : (hardware opResult).Stable P)
    (h : ∀ s, P s → s.ro i = value) :
    Performs (hardware opResult) 2 (Having P values) [.read i]
      (Having P (values ++ [value])) := by
  refine .single (Having.stable hP values) (Having.stable hP _) ?_
  rintro s vs s' ws ⟨hs, rfl⟩ haccess
  obtain ⟨rfl, rfl⟩ := Prod.mk.inj (Option.some.inj haccess)
  exact (Having.stable hP _ _).after 2 ⟨hs, by rw [h s hs]⟩

/-- The input registers hold words of the argument. -/
def Holds (block : Fin 32 → UInt32) (words : List (Fin 32)) (s : Registers) : Prop :=
  ∀ (k : Nat) (h : k < words.length), s.rin (Fin.ofNat 8 (k + 1)) = block words[k]

theorem ofNat_ne_zero
    {k : Nat}
    (h : k < 7) :
    Fin.ofNat 8 (k + 1) ≠ 0 := by
  intro heq
  have := congrArg Fin.val heq
  simp [Fin.ofNat] at this
  omega

theorem ofNat_ne
    {k l : Nat}
    (hk : k < l)
    (hl : l < 7) :
    Fin.ofNat 8 (k + 1) ≠ Fin.ofNat 8 (l + 1) := by
  intro heq
  have := congrArg Fin.val heq
  simp [Fin.ofNat] at this
  omega

theorem Holds.write_zero
    {block : Fin 32 → UInt32} {words : List (Fin 32)} {s : Registers}
    (hlen : words.length ≤ 7)
    (h : Holds block words s)
    (value : UInt32) :
    Holds block words (s.write 0 value) := by
  intro k hk
  rw [← h k hk]
  exact Function.update_of_ne (ofNat_ne_zero (by omega)) _ _

theorem Holds.concat
    {block : Fin 32 → UInt32} {words : List (Fin 32)} {s : Registers} {j : Fin 32}
    (hlen : words.length < 7)
    (h : Holds block words s) :
    Holds block (words ++ [j]) (s.write (Fin.ofNat 8 (words.length + 1)) (block j)) := by
  intro k hk
  rw [List.length_append, List.length_singleton] at hk
  by_cases hkl : k = words.length
  · subst hkl
    rw [List.getElem_concat_length rfl]
    exact Function.update_self _ _ _
  · have hlt : k < words.length := by omega
    rw [List.getElem_append_left hlt, ← h k hlt]
    exact Function.update_of_ne (ofNat_ne hlt hlen) _ _

theorem stable_holds
    (block : Fin 32 → UInt32) (words : List (Fin 32)) :
    (hardware opResult).Stable (Holds block words) :=
  fun _ _ h => h

theorem loads_concat
    (block : Fin 32 → UInt32) (words : List (Fin 32)) (j : Fin 32) :
    loads block (words ++ [j]) =
      loads block words ++ [.write (Fin.ofNat 8 (words.length + 1)) (block j)] := by
  rw [loads, List.mapIdx_concat]
  rfl

/-- Loading words keeps what two edges after a write restore; the first write may
establish it. -/
theorem performs_loads
    {B₀ B : Registers → Prop}
    (hB₀ : (hardware opResult).Stable B₀)
    (hB : (hardware opResult).Stable B)
    (hfirst : ∀ s i value, i ≠ 0 → B₀ s → (hardware opResult).After 2 B (s.write i value))
    (hnext : ∀ s i value, i ≠ 0 → B s → (hardware opResult).After 2 B (s.write i value))
    (block : Fin 32 → UInt32)
    (words : List (Fin 32)) :
    words.length ≤ 7 → words ≠ [] →
    Performs (hardware opResult) 2 (Having B₀ values) (loads block words)
      (Having (fun s => B s ∧ Holds block words s) values) := by
  induction words using List.reverseRecOn with
  | nil =>
      intro _ hne
      exact absurd rfl hne
  | append_singleton words j ih =>
      intro hlen _
      rw [List.length_append, List.length_singleton] at hlen
      have hstable : (hardware opResult).Stable fun s => B s ∧ Holds block (words ++ [j]) s :=
        fun s i h => ⟨hB s i h.1, stable_holds block _ s i h.2⟩
      have hwrite : ∀ s, Holds block words s → (hardware opResult).After 2
          (Holds block (words ++ [j])) (s.write (Fin.ofNat 8 (words.length + 1)) (block j)) :=
        fun s h => (stable_holds block _).after 2 (h.concat (by omega))
      have hne := ofNat_ne_zero (show words.length < 7 by omega)
      rw [loads_concat]
      by_cases hnil : words = []
      · subst hnil
        refine performs_write hB₀ hstable fun s hs => ?_
        exact (hfirst s _ _ hne hs).and (hwrite s fun k hk => absurd hk (Nat.not_lt_zero k))
      · refine (ih (by omega) hnil).append (performs_write ?_ hstable fun s hs => ?_)
        · exact fun s i h => ⟨hB s i h.1, stable_holds block _ s i h.2⟩
        · exact (hnext s _ _ hne hs.1).and (hwrite s hs.2)

end Rules

section Blocks

/-- Word `j` of the first block is `block[16 + j]`. -/
def firstWord (j : Fin 16) : Fin 32 := ⟨16 + j.val, by omega⟩

/-- Word `j` of the second block is `block[j]`. -/
def secondWord (j : Fin 16) : Fin 32 := ⟨j.val, by omega⟩

/-- The first `n` words of a block are loaded. -/
def Loaded (block : Fin 32 → UInt32) (word : Fin 16 → Fin 32) (n : Nat) (b : Block) : Prop :=
  ∀ j : Fin 16, j.val < n → b j = block (word j)

variable {block : Fin 32 → UInt32}
variable {word : Fin 16 → Fin 32}

theorem Loaded.eq
    {b : Block}
    (h : Loaded block word 16 b) :
    b = fun j => block (word j) :=
  funext fun j => h j j.isLt

/-- Reading the next words keeps those before. -/
theorem Loaded.readWords
    {n : Nat} {b : Block}
    (h : Loaded block word n b)
    (rin : Fin 8 → UInt32) {lo : Nat} (first count : Nat)
    (hlo : n ≤ lo) :
    Loaded block word n (readWords rin lo first count b) := by
  intro j hj
  rw [HardwareData.readWords, if_neg (by omega)]
  exact h j hj

/-- The input registers hold the next words. -/
theorem Loaded.next
    {lo : Nat} {b : Block} {words : List (Fin 32)} {s : Registers}
    (h : Loaded block word lo b)
    (hs : Holds block words s)
    (first count : Nat)
    (hwords : ∀ j : Fin 16, lo ≤ j.val → j.val < lo + count →
      words[first + (j.val - lo)]? = some (word j)) :
    Loaded block word (lo + count) (HardwareData.readWords s.rin lo (first + 1) count b) := by
  intro j hj
  by_cases hlo : lo ≤ j.val
  · obtain ⟨hlen, hget⟩ := List.getElem?_eq_some_iff.mp (hwords j hlo hj)
    rw [HardwareData.readWords, if_pos ⟨hlo, hj⟩, Nat.add_right_comm, hs _ hlen, hget]
  · rw [HardwareData.readWords, if_neg (by omega)]
    exact h j (by omega)

end Blocks

section Phases

variable {opResult : ShaCore → Digest}

/-- The second state machine rests, and `rin0` holds a command. -/
structure Settled (st : FsmState) (command : UInt32) (s : Registers) : Prop where
  state : s.state = st
  parallel : s.stateParallel = .none
  command : s.rin 0 = command
  start : s.startParallel = false

/-- The core is kept out of reset; `starting` in the first cycle of `STATE_COMPUTE_WAIT`. -/
structure Working (st : FsmState) (parallel : ParallelState) (command : UInt32) (starting : Bool)
    (s : Registers) : Prop where
  state : s.state = st
  parallel : s.stateParallel = parallel
  command : s.rin 0 = command
  start : s.startParallel = starting
  opReset : s.opReset = true
  opInit : s.opInit = starting

/-- The core is reset. -/
structure Quiet (st : FsmState) (command : UInt32) (s : Registers) : Prop
    extends Settled st command s where
  opReset : s.opReset = false
  core : s.core = .reset

/-- The core is given the first block. -/
structure Started (command : UInt32) (block1 : Block) (s : Registers) : Prop
    extends Working .computeWait .none command true s where
  opBlock : s.opBlock = block1
  core : s.core = .reset

/-- The core computes or has computed the digest of some blocks. -/
structure Computing (st : FsmState) (parallel : ParallelState) (command : UInt32)
    (blocks : List Block) (s : Registers) : Prop
    extends Working st parallel command false s where
  opNext : s.opNext = false
  core : s.core = .busy blocks ∨ s.core = .finished blocks

/-- The core is given the second block. -/
structure Handed (command : UInt32) (blocks : List Block) (block2 : Block) (s : Registers) : Prop
    extends Working .next .none command false s where
  opNext : s.opNext = true
  opBlock : s.opBlock = block2
  core : s.core = .finished blocks

/-- The output registers hold the digest of some blocks. -/
structure Holding (opResult : ShaCore → Digest) (st : FsmState) (command : UInt32)
    (blocks : List Block) (s : Registers) : Prop
    extends Settled st command s where
  ro : ∀ i : Fin 7, s.ro i = opResult (.finished blocks) i.castSucc
  rbuffer : s.rbuffer = opResult (.finished blocks) 7

/-- `ro1` holds the last word of the digest. -/
structure HoldingLast (opResult : ShaCore → Digest) (command : UInt32)
    (blocks : List Block) (s : Registers) : Prop
    extends Settled .rout2 command s where
  ro : s.ro 0 = opResult (.finished blocks) 7
  rbuffer : s.rbuffer = opResult (.finished blocks) 7

variable {st : FsmState}
variable {parallel : ParallelState}
variable {c : UInt32}
variable {blocks : List Block}
variable {s : Registers}

theorem settled_edge
    (hnext : s.next = st)
    (hparallel : s.nextParallel = .none)
    (hcommand : s.rin 0 = c)
    (hcompute : s.state ≠ .compute)
    (i : Bool) :
    Settled st c (s.edge opResult i) :=
  ⟨hnext, hparallel, hcommand, decide_eq_false hcompute⟩

theorem working_edge
    {starting : Bool}
    (hnext : s.next = st)
    (hparallel : s.nextParallel = parallel)
    (hcommand : s.rin 0 = c)
    (hworking : s.working = true)
    (hstarting : decide (s.state = .compute) = starting)
    (i : Bool) :
    Working st parallel c starting (s.edge opResult i) := by
  refine ⟨hnext, hparallel, hcommand, hstarting, ?_, hstarting⟩
  show (s.working || _) = true
  rw [hworking]
  rfl

theorem Settled.nextParallel
    (h : Settled st c s) :
    s.nextParallel = .none := by
  simp [Registers.nextParallel, h.parallel, h.start]

/-- Without a core that is ready the command decides. -/
theorem Settled.edge
    (h : Settled st c s)
    (hst : st ∉ [.compute, .computeWait, .nextWait])
    {st' : FsmState}
    (hnext : nextState c false false st = st')
    (i : Bool) :
    Settled st' c (s.edge opResult i) := by
  refine settled_edge ?_ h.nextParallel h.command ?_ i
  · rw [Registers.next, h.state, h.command, ← hnext]
    cases st <;> first | rfl | exact absurd (by decide) hst
  · rw [h.state]
    rintro rfl
    exact absurd (by decide) hst

theorem Settled.write
    (h : Settled st c s)
    {i : Fin 8}
    (hi : i ≠ 0)
    (value : UInt32) :
    Settled st c (s.write i value) :=
  { h with command := (Function.update_of_ne (Ne.symm hi) _ _).trans h.command }

theorem Settled.write_command
    (h : Settled st c s)
    (value : UInt32) :
    Settled st value (s.write 0 value) :=
  { h with command := s.write_self 0 value }

/-- The reading states keep the core in reset. -/
theorem Quiet.edge
    (h : Quiet st c s)
    (hst : st ∈ [.idle, .rin1, .rin2, .rin3])
    {st' : FsmState}
    (hnext : nextState c false false st = st')
    (i : Bool) :
    Quiet st' c (s.edge opResult i) := by
  simp only [List.mem_cons, List.not_mem_nil, or_false] at hst
  have hsettled : Settled st' c (s.edge opResult i) := by
    refine h.toSettled.edge ?_ hnext i
    rcases hst with rfl | rfl | rfl | rfl <;> decide
  refine ⟨hsettled, ?_, ?_⟩
  · show (s.working || decide ((s.edge opResult i).state = .next)) = false
    rw [hsettled.state, Registers.working, h.state, ← hnext]
    rcases hst with rfl | rfl | rfl | rfl <;> simp only [nextState] <;> split_ifs <;> rfl
  · show s.nextCore i = .reset
    rw [Registers.nextCore, h.opReset]
    rfl

theorem Quiet.write
    (h : Quiet st c s)
    {i : Fin 8}
    (hi : i ≠ 0)
    (value : UInt32) :
    Quiet st c (s.write i value) :=
  ⟨h.toSettled.write hi value, h.opReset, h.core⟩

theorem Quiet.write_command
    (h : Quiet st c s)
    (value : UInt32) :
    Quiet st value (s.write 0 value) :=
  ⟨h.toSettled.write_command value, h.opReset, h.core⟩

/-- The hardware can be used again: the core will be in reset two edges later. -/
theorem Settled.after_idle
    (h : Settled .idle 0 s) :
    (hardware opResult).After 2 (Quiet .idle 0) s := by
  intro i i'
  have h₁ : Settled .idle 0 (s.edge opResult i) := h.edge (by decide) rfl i
  have hreset : (s.edge opResult i).opReset = false := by
    show (s.working || decide ((s.edge opResult i).state = .next)) = false
    rw [h₁.state, Registers.working, h.state]
    rfl
  have h₂ : Settled .idle 0 ((s.edge opResult i).edge opResult i') := h₁.edge (by decide) rfl i'
  refine ⟨h₂, ?_, ?_⟩
  · show ((s.edge opResult i).working ||
      decide (((s.edge opResult i).edge opResult i').state = .next)) = false
    rw [h₂.state, Registers.working, h₁.state]
    rfl
  · show (s.edge opResult i).nextCore i' = .reset
    rw [Registers.nextCore, hreset]
    rfl

/-- In `STATE_COMPUTE` the control signals of the core are raised. -/
theorem Quiet.edge_compute
    (h : Quiet .compute c s)
    (i : Bool) :
    Started c s.block1 (s.edge opResult i) := by
  refine ⟨working_edge ?_ h.toSettled.nextParallel h.command ?_ ?_ i, ?_, ?_⟩
  · rw [Registers.next, h.state]
    rfl
  · rw [Registers.working, h.state]
    rfl
  · rw [h.state]
    rfl
  · show s.nextOpBlock = s.block1
    rw [Registers.nextOpBlock, Registers.next, h.state]
    rfl
  · show s.nextCore i = .reset
    rw [Registers.nextCore, h.opReset]
    rfl

/-- The core samples `op_init` in the first cycle of `STATE_COMPUTE_WAIT`. -/
theorem Started.edge
    {block1 : Block}
    (h : Started c block1 s)
    (i : Bool) :
    Computing .computeWait (if bit c 1 then .rin4 else .none) c [block1] (s.edge opResult i) := by
  have hnext : s.next = .computeWait := by
    rw [Registers.next, Registers.opResultReady, h.state, h.core]
    rfl
  refine ⟨working_edge hnext ?_ h.command ?_ ?_ i, ?_, ?_⟩
  · simp [Registers.nextParallel, h.parallel, h.start, h.command]
  · rw [Registers.working, h.state]
    rfl
  · rw [h.state]
    rfl
  · show decide (s.next = .next) = false
    rw [hnext]
    rfl
  · show s.nextCore i = _ ∨ _
    rw [Registers.nextCore, h.opReset, h.core, h.opInit, h.opBlock]
    exact .inl rfl

theorem Working.write
    {starting : Bool}
    (h : Working st parallel c starting s)
    {i : Fin 8}
    (hi : i ≠ 0)
    (value : UInt32) :
    Working st parallel c starting (s.write i value) :=
  { h with command := (Function.update_of_ne (Ne.symm hi) _ _).trans h.command }

theorem Computing.write
    (h : Computing st parallel c blocks s)
    {i : Fin 8}
    (hi : i ≠ 0)
    (value : UInt32) :
    Computing st parallel c blocks (s.write i value) :=
  ⟨h.toWorking.write hi value, h.opNext, h.core⟩

theorem Computing.write_command
    (h : Computing st parallel c blocks s)
    (value : UInt32) :
    Computing st parallel value blocks (s.write 0 value) :=
  { h with command := s.write_self 0 value }

theorem Computing.nextCore
    (h : Computing st parallel c blocks s)
    (i : Bool) :
    s.nextCore i = .busy blocks ∨ s.nextCore i = .finished blocks := by
  rw [Registers.nextCore, h.opReset, h.opInit, h.opNext]
  rcases h.core with hcore | hcore
  · rw [hcore]
    cases i with
    | false => exact .inl rfl
    | true => exact .inr rfl
  · rw [hcore]
    exact .inr rfl

/-- The core goes on while the state is not left. -/
theorem Computing.edge
    (h : Computing st parallel c blocks s)
    (hst : st = .computeWait ∨ st = .nextWait)
    (hstay : s.next = st)
    {parallel' : ParallelState}
    (hparallel : s.nextParallel = parallel')
    (i : Bool) :
    Computing st parallel' c blocks (s.edge opResult i) := by
  refine ⟨working_edge hstay hparallel h.command ?_ ?_ i, ?_, h.nextCore i⟩
  · rw [Registers.working, h.state]
    rcases hst with rfl | rfl <;> rfl
  · rw [h.state]
    rcases hst with rfl | rfl <;> rfl
  · show decide (s.next = .next) = false
    rw [hstay]
    rcases hst with rfl | rfl <;> rfl

/-- The digest is copied when the core is ready. -/
theorem Computing.edge_ready
    (h : Computing st .none c blocks s)
    (hst : st = .computeWait ∨ st = .nextWait)
    (hcore : s.core = .finished blocks)
    (hnext : s.next = .wait)
    (i : Bool) :
    Holding opResult .wait c blocks (s.edge opResult i) := by
  refine ⟨settled_edge hnext ?_ h.command ?_ i, ?_, ?_⟩
  · simp [Registers.nextParallel, h.parallel, h.start]
  · rw [h.state]
    rcases hst with rfl | rfl <;> decide
  · intro j
    show s.nextRo opResult j = _
    rw [Registers.nextRo, h.state, hcore]
    rcases hst with rfl | rfl <;> rfl
  · show s.nextRbuffer opResult = _
    rw [Registers.nextRbuffer, h.state, hcore]
    rcases hst with rfl | rfl <;> rfl

/-- The last command meets a core that is ready. -/
theorem Computing.edge_handed
    (h : Computing .computeWait .rin5 c blocks s)
    (hcore : s.core = .finished blocks)
    (h1 : bit c 1 = true)
    (h6 : bit c 6 = true)
    (i : Bool) :
    Handed c blocks s.block2 (s.edge opResult i) := by
  have hnext : s.next = .next := by
    rw [Registers.next, Registers.opResultReady, Registers.block2Ready, h.state, h.parallel, hcore,
      h.command]
    simp [nextState, h1, h6]
  refine ⟨working_edge hnext ?_ h.command ?_ ?_ i, ?_, ?_, ?_⟩
  · simp [Registers.nextParallel, h.parallel, h.command, h6]
  · rw [Registers.working, h.state]
    rfl
  · rw [h.state]
    rfl
  · exact decide_eq_true hnext
  · show s.nextOpBlock = s.block2
    rw [Registers.nextOpBlock, if_pos hnext]
  · show s.nextCore i = .finished blocks
    rw [Registers.nextCore, h.opReset, hcore, h.opInit, h.opNext]
    rfl

/-- The core samples `op_next`. -/
theorem Handed.edge
    {block2 : Block}
    (h : Handed c blocks block2 s)
    (i : Bool) :
    Computing .nextWait .none c (blocks ++ [block2]) (s.edge opResult i) := by
  have hnext : s.next = .nextWait := by
    rw [Registers.next, h.state]
    rfl
  refine ⟨working_edge hnext ?_ h.command ?_ ?_ i, ?_, ?_⟩
  · simp [Registers.nextParallel, h.parallel, h.start]
  · rw [Registers.working, h.state]
    rfl
  · rw [h.state]
    rfl
  · show decide (s.next = .next) = false
    rw [hnext]
    rfl
  · show s.nextCore i = _ ∨ _
    rw [Registers.nextCore, h.opReset, h.core, h.opInit, h.opNext, h.opBlock]
    exact .inl rfl

/-- The last command is lost on a core that is not ready. -/
theorem Computing.edge_lost
    (h : Computing .computeWait .rin5 c blocks s)
    (hcore : s.core = .busy blocks)
    (h6 : bit c 6 = true)
    (i : Bool) :
    Settled .computeWait c (s.edge opResult i) := by
  refine settled_edge ?_ ?_ h.command ?_ i
  · rw [Registers.next, Registers.opResultReady, h.state, hcore]
    rfl
  · simp [Registers.nextParallel, h.parallel, h.command, h6]
  · rw [h.state]
    decide

/-- For two blocks `STATE_COMPUTE_WAIT` is not left with the second state machine at rest. -/
theorem Settled.edge_stuck
    (h : Settled .computeWait c s)
    (h1 : bit c 1 = true)
    (i : Bool) :
    Settled .computeWait c (s.edge opResult i) := by
  refine settled_edge ?_ h.nextParallel h.command ?_ i
  · rw [Registers.next, Registers.block2Ready, h.state, h.command, h.parallel]
    simp [nextState, h1]
  · rw [h.state]
    decide

/-- The digest is kept until its last word is asked for. -/
theorem Holding.edge
    (h : Holding opResult st c blocks s)
    (hst : st = .wait ∨ st = .rout1)
    {st' : FsmState}
    (hnext : nextState c false false st = st')
    (i : Bool) :
    Holding opResult st' c blocks (s.edge opResult i) := by
  have hsettled : Settled st' c (s.edge opResult i) := by
    refine h.toSettled.edge ?_ hnext i
    rcases hst with rfl | rfl <;> decide
  refine ⟨hsettled, ?_, ?_⟩
  · intro j
    rw [← h.ro j]
    show s.nextRo opResult j = _
    rw [Registers.nextRo, h.state]
    rcases hst with rfl | rfl <;> rfl
  · rw [← h.rbuffer]
    show s.nextRbuffer opResult = _
    rw [Registers.nextRbuffer, h.state]
    rcases hst with rfl | rfl <;> rfl

theorem Holding.write_command
    (h : Holding opResult st c blocks s)
    (value : UInt32) :
    Holding opResult st value blocks (s.write 0 value) :=
  ⟨h.toSettled.write_command value, h.ro, h.rbuffer⟩

/-- The last word goes to `ro1`. -/
theorem Holding.edge_last
    (h : Settled .rout2 c s)
    (hrbuffer : s.rbuffer = opResult (.finished blocks) 7)
    (h9 : bit c 9 = false)
    (i : Bool) :
    HoldingLast opResult c blocks (s.edge opResult i) := by
  refine ⟨h.edge (by decide) (by simp [nextState, h9]) i, ?_, ?_⟩
  · rw [← hrbuffer]
    show s.nextRo opResult 0 = _
    rw [Registers.nextRo, h.state]
    rfl
  · rw [← hrbuffer]
    show s.nextRbuffer opResult = _
    rw [Registers.nextRbuffer, h.state]

end Phases

end HardwareData

end CosiCoin
