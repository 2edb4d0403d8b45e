import CosiCoin.Sha256Digest
import Mathlib.Tactic

/-!
# COSICOIN: the unrolled compression function of SHA-256

`SHA256::processBlock` of lib/signature/sha256.cc writes its 64 rounds out, eight
at a time.  Instead of moving the eight variables along it renames them from line
to line, it extends the array `words` by eight entries between the groups, it
loads the input in the byte order of the machine and swaps it, and it computes the
majority as `((a | b) & c) | (a & b)`.

* `SHA256.processBlock` follows the source.
* `Standard.block` is the recurrence of the algorithm: 64 equal rounds over the
  schedule `W`, right rotations and the majority as an exclusive or.
* `processBlock_eq_standard`: the two agree; `processBlock_eq_window`: so does the
  form with a sliding window that `Sha256.digest` is built on.
-/

namespace CosiCoin

open Sha256 (Words rotate f1 f2 roundConstants bigEndianWords roundStep nextWord)

namespace SHA256

section Source

/-- A `uint32_t` read from memory; the lowest byte comes first. -/
def loadWord (a b c d : UInt8) : UInt32 :=
  a.toUInt32 ||| (b.toUInt32 <<< 8) ||| (c.toUInt32 <<< 16) ||| (d.toUInt32 <<< 24)

/-- `swap`: the bytes of a word in the opposite order. -/
def swap (x : UInt32) : UInt32 :=
  (x >>> 24) ||| ((x >>> 8) &&& (0x0000FF00 : UInt32)) |||
    ((x <<< 8) &&& (0x00FF0000 : UInt32)) ||| (x <<< 24)

/-- The data as the array `input`. -/
def input : Str → List UInt32
  | a :: b :: c :: d :: rest => loadWord a b c d :: input rest
  | _ => []

/-- Entry `i` of `words`, from the entries before it. -/
def nextEntry (words : List UInt32) (i : Nat) : UInt32 :=
  let w := fun j => words.getD j 0
  w (i - 16) + (rotate (w (i - 15)) 7 ^^^ rotate (w (i - 15)) 18 ^^^ (w (i - 15) >>> 3)) +
    w (i - 7) + (rotate (w (i - 2)) 17 ^^^ rotate (w (i - 2)) 19 ^^^ (w (i - 2) >>> 10))

/-- `n` passes of the loops that extend `words`. -/
def extendWords : Nat → List UInt32 → List UInt32
  | 0, words => words
  | n + 1, words => extendWords n (words ++ [nextEntry words words.length])

/-- The eight rounds from number `i` on, as they are written out. -/
def eightRounds (i : Nat) (words : List UInt32) (m_hash : Words) : Words :=
  let k := fun j => roundConstants.getD (i + j) 0
  let w := fun j => words.getD (i + j) 0
  let ⟨a, b, c, d, e, f, g, h⟩ := m_hash
  let x := h + f1 e f g + k 0 + w 0
  let y := f2 a b c
  let d := d + x
  let h := x + y
  let x := g + f1 d e f + k 1 + w 1
  let y := f2 h a b
  let c := c + x
  let g := x + y
  let x := f + f1 c d e + k 2 + w 2
  let y := f2 g h a
  let b := b + x
  let f := x + y
  let x := e + f1 b c d + k 3 + w 3
  let y := f2 f g h
  let a := a + x
  let e := x + y
  let x := d + f1 a b c + k 4 + w 4
  let y := f2 e f g
  let h := h + x
  let d := x + y
  let x := c + f1 h a b + k 5 + w 5
  let y := f2 d e f
  let g := g + x
  let c := x + y
  let x := b + f1 g h a + k 6 + w 6
  let y := f2 c d e
  let f := f + x
  let b := x + y
  let x := a + f1 f g h + k 7 + w 7
  let y := f2 b c d
  let e := e + x
  let a := x + y
  ⟨a, b, c, d, e, f, g, h⟩

/-- The last lines of `processBlock`. -/
def updateHash (m_hash r : Words) : Words :=
  ⟨m_hash.a + r.a, m_hash.b + r.b, m_hash.c + r.c, m_hash.d + r.d,
   m_hash.e + r.e, m_hash.f + r.f, m_hash.g + r.g, m_hash.h + r.h⟩

/-- `SHA256::processBlock`. -/
def processBlock (m_hash : Words) (data : Str) : Words :=
  let words := (input data).map swap
  let r := eightRounds 0 words m_hash
  let r := eightRounds 8 words r
  let words := extendWords 8 words
  let r := eightRounds 16 words r
  let words := extendWords 8 words
  let r := eightRounds 24 words r
  let words := extendWords 8 words
  let r := eightRounds 32 words r
  let words := extendWords 8 words
  let r := eightRounds 40 words r
  let words := extendWords 8 words
  let r := eightRounds 48 words r
  let words := extendWords 8 words
  let r := eightRounds 56 words r
  updateHash m_hash r

end Source

end SHA256

namespace Standard

/-- Rotation to the right. -/
def ROTR (n : Nat) (x : UInt32) : UInt32 :=
  ⟨x.toBitVec.rotateRight n⟩

def Ch (x y z : UInt32) : UInt32 :=
  (x &&& y) ^^^ (~~~x &&& z)

def Maj (x y z : UInt32) : UInt32 :=
  (x &&& y) ^^^ (x &&& z) ^^^ (y &&& z)

def bigSigma0 (x : UInt32) : UInt32 :=
  ROTR 2 x ^^^ ROTR 13 x ^^^ ROTR 22 x

def bigSigma1 (x : UInt32) : UInt32 :=
  ROTR 6 x ^^^ ROTR 11 x ^^^ ROTR 25 x

def smallSigma0 (x : UInt32) : UInt32 :=
  ROTR 7 x ^^^ ROTR 18 x ^^^ (x >>> 3)

def smallSigma1 (x : UInt32) : UInt32 :=
  ROTR 17 x ^^^ ROTR 19 x ^^^ (x >>> 10)

/-- The message schedule of a block of sixteen words. -/
def W (M : Nat → UInt32) (t : Nat) : UInt32 :=
  if t < 16 then
    M t
  else
    smallSigma1 (W M (t - 2)) + W M (t - 7) + smallSigma0 (W M (t - 15)) + W M (t - 16)
termination_by t

/-- Round `t` on the eight working variables. -/
def round (M : Nat → UInt32) (s : Words) (t : Nat) : Words :=
  let T1 := s.h + bigSigma1 s.e + Ch s.e s.f s.g + roundConstants.getD t 0 + W M t
  let T2 := bigSigma0 s.a + Maj s.a s.b s.c
  ⟨T1 + T2, s.a, s.b, s.c, s.d + T1, s.e, s.f, s.g⟩

/-- The next hash value from a block of 64 bytes. -/
def block (H : Words) (data : Str) : Words :=
  SHA256.updateHash H
    ((List.range 64).foldl (round fun t => (bigEndianWords data).getD t 0) H)

end Standard

namespace SHA256

open Standard

section Functions

theorem swap_loadWord
    (a b c d : UInt8) :
    swap (loadWord a b c d) =
      (a.toUInt32 <<< 24) ||| (b.toUInt32 <<< 16) ||| (c.toUInt32 <<< 8) ||| d.toUInt32 := by
  apply UInt32.toBitVec_inj.mp
  apply BitVec.eq_of_getLsbD_eq
  intro i hi
  simp only [swap, loadWord, UInt32.toBitVec_or, UInt32.toBitVec_and, UInt32.toBitVec_shiftLeft,
    UInt32.toBitVec_shiftRight, BitVec.getLsbD_or, BitVec.getLsbD_and]
  -- bit `i` of either side is a bit of one of the four bytes
  interval_cases i <;> simp

theorem map_swap_input
    (data : Str) :
    (input data).map swap = bigEndianWords data := by
  fun_induction input data with
  | case1 a b c d rest ih =>
      rw [List.map_cons, ih, swap_loadWord, bigEndianWords]
  | case2 data h =>
      rw [bigEndianWords]
      · rfl
      · exact h

/-- The majority written with two disjunctions. -/
theorem majority_eq
    (a b c : UInt32) :
    ((a ||| b) &&& c) ||| (a &&& b) = Maj a b c := by
  apply UInt32.toBitVec_inj.mp
  apply BitVec.eq_of_getLsbD_eq
  intro i hi
  simp only [Maj, UInt32.toBitVec_or, UInt32.toBitVec_and, UInt32.toBitVec_xor,
    BitVec.getLsbD_or, BitVec.getLsbD_and, BitVec.getLsbD_xor]
  cases a.toBitVec.getLsbD i <;> cases b.toBitVec.getLsbD i <;>
    cases c.toBitVec.getLsbD i <;> rfl

theorem bigSigma0_eq
    (x : UInt32) :
    rotate x 2 ^^^ rotate x 13 ^^^ rotate x 22 = bigSigma0 x := by
  rfl

theorem bigSigma1_eq
    (x : UInt32) :
    rotate x 6 ^^^ rotate x 11 ^^^ rotate x 25 = bigSigma1 x := by
  rfl

theorem smallSigma0_eq
    (x : UInt32) :
    rotate x 7 ^^^ rotate x 18 ^^^ (x >>> 3) = smallSigma0 x := by
  rfl

theorem smallSigma1_eq
    (x : UInt32) :
    rotate x 17 ^^^ rotate x 19 ^^^ (x >>> 10) = smallSigma1 x := by
  rfl

theorem f1_eq
    (e f g : UInt32) :
    f1 e f g = bigSigma1 e + Ch e f g := by
  rw [f1, bigSigma1_eq, Ch]

theorem f2_eq
    (a b c : UInt32) :
    f2 a b c = bigSigma0 a + Maj a b c := by
  rw [f2, bigSigma0_eq, majority_eq]

/-- One round of the source is one round of the recurrence. -/
theorem roundStep_eq_round
    (M : Nat → UInt32) (s : Words) (t : Nat) :
    roundStep (roundConstants.getD t 0) (W M t) s = round M s t := by
  rw [roundStep, Standard.round, f1_eq, f2_eq, ← UInt32.add_assoc s.h]

end Functions

section Schedule

variable (M : Nat → UInt32)

/-- The first `n` words of the schedule. -/
def schedule (n : Nat) : List UInt32 :=
  (List.range n).map (W M)

theorem W_of_lt
    {t : Nat}
    (ht : t < 16) :
    W M t = M t := by
  rw [W, if_pos ht]

theorem getD_schedule
    {n t : Nat}
    (ht : t < n) :
    (schedule M n).getD t 0 = W M t := by
  simp [schedule, List.getD, ht]

/-- The sum in the loop is the recurrence of the schedule. -/
theorem nextEntry_schedule
    {n : Nat}
    (hn : 16 ≤ n) :
    nextEntry (schedule M n) n = W M n := by
  have h16 := getD_schedule M (show n - 16 < n by omega)
  have h15 := getD_schedule M (show n - 15 < n by omega)
  have h7 := getD_schedule M (show n - 7 < n by omega)
  have h2 := getD_schedule M (show n - 2 < n by omega)
  rw [W, if_neg (Nat.not_lt.mpr hn)]
  simp only [nextEntry, h16, h15, h7, h2, smallSigma0_eq, smallSigma1_eq]
  ac_rfl

theorem extendWords_schedule
    (k : Nat) :
    ∀ {n : Nat}, 16 ≤ n → extendWords k (schedule M n) = schedule M (n + k) := by
  induction k with
  | zero =>
      intro n _
      rfl
  | succ k ih =>
      intro n hn
      have hlen : (schedule M n).length = n := by
        simp [schedule]
      have hsnoc : schedule M n ++ [W M n] = schedule M (n + 1) := by
        rw [schedule, schedule, List.range_succ, List.map_append]
        rfl
      rw [extendWords, hlen, nextEntry_schedule M hn, hsnoc, ih (Nat.le_add_right_of_le hn),
        Nat.add_right_comm, Nat.add_assoc]

/-- Eight unrolled rounds are eight rounds of the recurrence. -/
theorem eightRounds_schedule
    {i n : Nat}
    (hi : i + 8 ≤ n)
    (s : Words) :
    eightRounds i (schedule M n) s = (List.range' i 8).foldl (round M) s := by
  have hfold : eightRounds i (schedule M n) s =
      (List.range' i 8).foldl
        (fun s t => roundStep (roundConstants.getD t 0) ((schedule M n).getD t 0) s) s := by
    rfl
  rw [hfold]
  apply List.foldl_ext
  intro s' t ht
  rw [List.mem_range'_1] at ht
  rw [getD_schedule M (by omega), roundStep_eq_round]

/-- The window of sixteen words that starts at word `t`. -/
def window (t : Nat) : List UInt32 :=
  (List.range' t 16).map (W M)

theorem getD_window
    {t j : Nat}
    (hj : j < 16) :
    (window M t).getD j 0 = W M (t + j) := by
  simp [window, List.getD, hj]

theorem nextWord_window
    (t : Nat) :
    nextWord (window M t) = W M (t + 16) := by
  have h1 : t + 16 - 15 = t + 1 := by omega
  have h9 : t + 16 - 7 = t + 9 := by omega
  have h14 : t + 16 - 2 = t + 14 := by omega
  rw [W, if_neg (by omega), h1, h9, h14, Nat.add_sub_cancel]
  simp only [nextWord, getD_window, Nat.reduceLT, smallSigma0_eq, smallSigma1_eq, Nat.add_zero]
  ac_rfl

theorem window_succ
    (t : Nat) :
    (window M t).drop 1 ++ [nextWord (window M t)] = window M (t + 1) := by
  rw [nextWord_window]
  rfl

/-- The rounds with a sliding window are the rounds of the recurrence. -/
theorem rounds_window
    (k : Nat) :
    ∀ {t : Nat} (s : Words), t + k = 64 →
      Sha256.rounds (roundConstants.drop t) (window M t) s =
        (List.range' t k).foldl (round M) s := by
  induction k with
  | zero =>
      intro t s ht
      obtain rfl : t = 64 := ht
      rfl
  | succ k ih =>
      intro t s ht
      have hlen : t < roundConstants.length := by
        rw [show roundConstants.length = 64 from rfl]
        omega
      have hget : roundConstants.getD t 0 = roundConstants[t] := by
        rw [List.getD, List.getElem?_eq_getElem hlen, Option.getD_some]
      rw [List.drop_eq_getElem_cons hlen, Sha256.rounds, window_succ,
        getD_window M (Nat.zero_lt_succ 15), ← hget, Nat.add_zero t, roundStep_eq_round,
        ih _ (by omega), List.range'_succ, List.foldl_cons]

end Schedule

section Blocks

theorem length_bigEndianWords
    (data : Str) :
    (bigEndianWords data).length = data.length / 4 := by
  fun_induction bigEndianWords data with
  | case1 a b c d rest ih =>
      simp only [List.length_cons, ih]
      omega
  | case2 data h =>
      rcases data with _ | ⟨a, _ | ⟨b, _ | ⟨c, _ | ⟨d, rest⟩⟩⟩⟩
      · rfl
      · simp
      · simp
      · simp
      · exact absurd rfl (h a b c d rest)

/-- The sixteen words of a block are the start of its schedule. -/
theorem bigEndianWords_eq_schedule
    {data : Str}
    (hdata : data.length = 64) :
    bigEndianWords data = schedule (fun t => (bigEndianWords data).getD t 0) 16 := by
  have hlen : (bigEndianWords data).length = 16 := by
    rw [length_bigEndianWords, hdata]
  apply List.ext_getElem
  · rw [hlen]
    simp [schedule]
  · intro t h _
    rw [hlen] at h
    simp [schedule, W_of_lt _ h, List.getD, hlen, h]

/-- The unrolled function computes the recurrence. -/
theorem processBlock_eq_standard
    (m_hash : Words)
    {data : Str}
    (hdata : data.length = 64) :
    processBlock m_hash data = Standard.block m_hash data := by
  have hrange : List.range 64 =
      List.range' 0 8 ++ List.range' 8 8 ++ List.range' 16 8 ++ List.range' 24 8 ++
        List.range' 32 8 ++ List.range' 40 8 ++ List.range' 48 8 ++ List.range' 56 8 := by
    rfl
  have h16 := bigEndianWords_eq_schedule hdata
  simp only [processBlock, Standard.block, map_swap_input]
  generalize (fun t => (bigEndianWords data).getD t 0) = M at h16 ⊢
  rw [h16, hrange]
  simp only [extendWords_schedule, Nat.reduceAdd, Nat.reduceLeDiff, eightRounds_schedule,
    List.foldl_append]

/-- So does the form with a sliding window. -/
theorem window_eq_standard
    (m_hash : Words)
    {data : Str}
    (hdata : data.length = 64) :
    Sha256.processBlock m_hash data = Standard.block m_hash data := by
  have h16 := bigEndianWords_eq_schedule hdata
  simp only [Sha256.processBlock, Standard.block, updateHash]
  generalize (fun t => (bigEndianWords data).getD t 0) = M at h16 ⊢
  have hwindow : schedule M 16 = window M 0 := by
    rfl
  have hrounds := rounds_window M 64 m_hash (Nat.zero_add 64)
  rw [List.drop_zero] at hrounds
  rw [h16, hwindow, hrounds, List.range_eq_range']

theorem processBlock_eq_window
    (m_hash : Words)
    {data : Str}
    (hdata : data.length = 64) :
    processBlock m_hash data = Sha256.processBlock m_hash data := by
  rw [processBlock_eq_standard m_hash hdata, window_eq_standard m_hash hdata]

end Blocks

end SHA256
end CosiCoin
