import CosiCoin.ObjectRefinement
import CosiCoin.BlockStreaming
import CosiCoin.Sha256Compression

/-!
# COSICOIN: the streaming interface of SHA-256

The class `SHA256` of lib/signature/sha256.cc takes its data in pieces.  `add`
keeps what does not fill a block in `m_buffer`; `getHash` appends the padding in
place, compresses one or two blocks and puts the old `m_hash` back, so that more
data can be added afterwards.

* A store outside an array of 64 bytes is undefined (`store`); `m_buffer` and
  `extra` are never initialised, so their first contents are arbitrary.
* `Holds data s`: the object `s` stands for `data`.
* `streaming_refines`: after any sequence of calls the answers are the digests of
  the data added since the last reset, and no call is undefined.
-/

namespace CosiCoin

open Sha256 (Words)

/-- The members of the class. -/
structure SHA256 where
  m_numBytes : UInt64
  m_bufferSize : Nat
  m_buffer : Vector UInt8 64
  m_hash : Words

namespace SHA256

section Source

/-- A store into an array of 64 bytes. -/
def store (block : Vector UInt8 64) (i : Nat) (c : UInt8) : Option (Vector UInt8 64) :=
  if h : i < 64 then some (block.set i c h) else none

/-- Stores at `i`, `i + 1` and so on. -/
def storeAll : Str → Nat → Vector UInt8 64 → Option (Vector UInt8 64)
  | [], _, block => some block
  | c :: cs, i, block => (store block i c).bind (storeAll cs (i + 1))

/-- `SHA256::reset`. -/
def reset (s : SHA256) : SHA256 :=
  { s with m_numBytes := 0, m_bufferSize := 0, m_hash := Sha256.seed }

/-- The first loop of `add`; the rest of the data is returned. -/
def fillBuffer : Str → SHA256 → Option (SHA256 × Str)
  | [], s => some (s, [])
  | c :: current, s =>
      if s.m_bufferSize < 64 then
        (store s.m_buffer s.m_bufferSize c).bind fun block =>
          fillBuffer current { s with m_buffer := block, m_bufferSize := s.m_bufferSize + 1 }
      else
        some (s, c :: current)

/-- The branch of `add` for a full buffer. -/
def flushBuffer (s : SHA256) : SHA256 :=
  if s.m_bufferSize = 64 then
    { s with
      m_hash := processBlock s.m_hash s.m_buffer.toList
      m_numBytes := s.m_numBytes + 64
      m_bufferSize := 0 }
  else
    s

/-- The loop of `add` over the full blocks of the data. -/
def fullBlocks (current : Str) (s : SHA256) : SHA256 × Str :=
  if 64 ≤ current.length then
    fullBlocks (current.drop 64)
      { s with
        m_hash := processBlock s.m_hash (current.take 64)
        m_numBytes := s.m_numBytes + 64 }
  else
    (s, current)
termination_by current.length
decreasing_by
  rw [List.length_drop]
  omega

/-- The last loop of `add`. -/
def keepBytes : Str → SHA256 → Option SHA256
  | [], s => some s
  | c :: current, s =>
      (store s.m_buffer s.m_bufferSize c).bind fun block =>
        keepBytes current { s with m_buffer := block, m_bufferSize := s.m_bufferSize + 1 }

/-- `SHA256::add`. -/
def add (s : SHA256) (data : Str) : Option SHA256 :=
  (if s.m_bufferSize > 0 then fillBuffer data s else some (s, data)).bind fun r =>
    let s := flushBuffer r.1
    if r.2.length = 0 then
      some s
    else
      let r := fullBlocks r.2 s
      keepBytes r.2 r.1

/-- The eight bytes of the message length. -/
def lengthBytes (msgBits : UInt64) : Str :=
  [((msgBits >>> 56) &&& 0xFF).toUInt8, ((msgBits >>> 48) &&& 0xFF).toUInt8,
   ((msgBits >>> 40) &&& 0xFF).toUInt8, ((msgBits >>> 32) &&& 0xFF).toUInt8,
   ((msgBits >>> 24) &&& 0xFF).toUInt8, ((msgBits >>> 16) &&& 0xFF).toUInt8,
   ((msgBits >>> 8) &&& 0xFF).toUInt8, (msgBits &&& 0xFF).toUInt8]

/-- `paddedLength` in bytes. -/
def paddedLength (m_bufferSize : Nat) : Nat :=
  let paddedLength := m_bufferSize * 8 + 1
  let lower11Bits := paddedLength &&& 511
  if lower11Bits ≤ 448 then
    (paddedLength + (448 - lower11Bits)) / 8
  else
    (paddedLength + (512 + 448 - lower11Bits)) / 8

/-- The padding in `m_buffer` and in the block `extra`. -/
def padBuffer (s : SHA256) (extra : Vector UInt8 64) :
    Option (Vector UInt8 64 × Vector UInt8 64) := do
  let length := paddedLength s.m_bufferSize
  let m_buffer ←
    if s.m_bufferSize < 64 then store s.m_buffer s.m_bufferSize 128 else some s.m_buffer
  let extra ← if s.m_bufferSize < 64 then some extra else store extra 0 128
  let i := s.m_bufferSize + 1
  let m_buffer ← storeAll (List.replicate (64 - i) 0) i m_buffer
  let i := max i 64
  let extra ← storeAll (List.replicate (length - i) 0) (i - 64) extra
  let msgBits := 8 * (s.m_numBytes + UInt64.ofNat s.m_bufferSize)
  if length < 64 then
    let m_buffer ← storeAll (lengthBytes msgBits) length m_buffer
    some (m_buffer, extra)
  else
    let extra ← storeAll (lengthBytes msgBits) (length - 64) extra
    some (m_buffer, extra)

/-- `SHA256::processBuffer`; `extra` holds what was on the stack. -/
def processBuffer (s : SHA256) (extra : Vector UInt8 64) : Option SHA256 :=
  (padBuffer s extra).map fun blocks =>
    let s := { s with
      m_buffer := blocks.1
      m_hash := processBlock s.m_hash blocks.1.toList }
    if paddedLength s.m_bufferSize > 64 then
      { s with m_hash := processBlock s.m_hash blocks.2.toList }
    else
      s

/-- The four bytes of a word of `m_hash`. -/
def wordBytes (w : UInt32) : Str :=
  [((w >>> 24) &&& 0xFF).toUInt8, ((w >>> 16) &&& 0xFF).toUInt8,
   ((w >>> 8) &&& 0xFF).toUInt8, (w &&& 0xFF).toUInt8]

def hashBytes (h : Words) : Str :=
  wordBytes h.a ++ wordBytes h.b ++ wordBytes h.c ++ wordBytes h.d ++
    wordBytes h.e ++ wordBytes h.f ++ wordBytes h.g ++ wordBytes h.h

/-- `SHA256::getHash` into a buffer of 32 bytes. -/
def getHashBytes (s : SHA256) (extra : Vector UInt8 64) : Option (SHA256 × Str) :=
  (processBuffer s extra).map fun s' => ({ s' with m_hash := s.m_hash }, hashBytes s'.m_hash)

/-- The two characters of a byte. -/
def dec2hex (c : UInt8) : Str :=
  [Sha256.hexDigit ((c >>> 4) &&& 15).toNat, Sha256.hexDigit (c &&& 15).toNat]

/-- `SHA256::getHash` as text. -/
def getHash (s : SHA256) (extra : Vector UInt8 64) : Option (SHA256 × Str) :=
  (getHashBytes s extra).map fun r => (r.1, r.2.flatMap dec2hex)

/-- The calls of the public interface, with the contents of `extra`. -/
inductive Call where
  | reset
  | add (data : Str)
  | getHash (extra : Vector UInt8 64)
  | getHashBytes (extra : Vector UInt8 64)
  | operator (text : Str) (extra : Vector UInt8 64)

/-- One call; the answer of a call without a result is empty. -/
def call (s : SHA256) : Call → Option (SHA256 × Str)
  | .reset => some (s.reset, [])
  | .add data => (s.add data).map fun s' => (s', [])
  | .getHash extra => s.getHash extra
  | .getHashBytes extra => s.getHashBytes extra
  | .operator text extra => (s.reset.add text).bind fun s' => s'.getHash extra

end Source

section Specification

/-- The words of the digest of `data`. -/
def digestWords (data : Str) : Words :=
  Sha256.processBlocks ((Sha256.padded data).length / 64) (Sha256.padded data) Sha256.seed

/-- A call on an object that is the data added since the last reset. -/
def specCall (data : Str) : Call → Str × Str
  | .reset => ([], [])
  | .add more => (data ++ more, [])
  | .getHash _ => (data, Sha256.digest data)
  | .getHashBytes _ => (data, hashBytes (digestWords data))
  | .operator text _ => (text, Sha256.digest text)

end Specification

section Stores

theorem store_of_lt
    {block : Vector UInt8 64} {i : Nat}
    (hi : i < 64)
    (c : UInt8) :
    ∃ block', store block i c = some block' ∧
      block'.toList.take (i + 1) = block.toList.take i ++ [c] := by
  have hlen : i < block.toList.length := by
    rw [Vector.length_toList]
    exact hi
  refine ⟨block.set i c hi, ?_, ?_⟩
  · rw [store, dif_pos hi]
  · rw [Vector.toList_set, List.take_succ_eq_append_getElem (by rw [List.length_set]; exact hlen),
      List.take_set_of_le (Nat.le_refl i), List.getElem_set_self]

/-- Stores in a row are in bounds and keep what is before them. -/
theorem storeAll_of_le
    (cs : Str) :
    ∀ {block : Vector UInt8 64} {i : Nat}, i + cs.length ≤ 64 →
      ∃ block', storeAll cs i block = some block' ∧
        block'.toList.take (i + cs.length) = block.toList.take i ++ cs := by
  induction cs with
  | nil =>
      intro block i _
      refine ⟨block, rfl, ?_⟩
      rw [List.append_nil]
      rfl
  | cons c cs ih =>
      intro block i hi
      rw [List.length_cons] at hi
      obtain ⟨block₁, hfirst, htake₁⟩ := store_of_lt (show i < 64 by omega) c
      obtain ⟨block₂, hrest, htake₂⟩ := @ih block₁ (i + 1) (by omega)
      refine ⟨block₂, ?_, ?_⟩
      · rw [storeAll, hfirst, Option.bind_some, hrest]
      · rw [List.length_cons, ← Nat.add_assoc, Nat.add_right_comm, htake₂, htake₁,
          List.append_assoc, List.singleton_append]

theorem take_all
    (block : Vector UInt8 64) :
    block.toList.take 64 = block.toList :=
  List.take_of_length_le (Nat.le_of_eq Vector.length_toList)

end Stores

section Buffer

/-- The bytes of `m_buffer` in use. -/
def live (s : SHA256) : Str :=
  s.m_buffer.toList.take s.m_bufferSize

/-- The object stands for the data; its buffer may be full. -/
structure Keeps (data : Str) (s : SHA256) : Prop where
  size : s.m_bufferSize ≤ 64
  numBytes : s.m_numBytes + UInt64.ofNat s.m_bufferSize = UInt64.ofNat data.length
  represents : BlockStreaming.Represents 64 processBlock Sha256.seed data s.live s.m_hash

/-- The object stands for the data between two calls. -/
structure Holds (data : Str) (s : SHA256) : Prop extends Keeps data s where
  notFull : s.m_bufferSize < 64

theorem length_live
    {s : SHA256}
    (h : s.m_bufferSize ≤ 64) :
    s.live.length = s.m_bufferSize := by
  rw [live, List.length_take, Vector.length_toList, Nat.min_eq_left h]

theorem holds_reset
    (s : SHA256) :
    Holds [] s.reset where
  size := Nat.zero_le 64
  numBytes := rfl
  represents := BlockStreaming.represents_nil
  notFull := Nat.zero_lt_succ 63

/-- One byte stored behind the bytes in use. -/
theorem Keeps.push
    {data : Str} {s : SHA256}
    (h : Keeps data s)
    (hsize : s.m_bufferSize < 64)
    (c : UInt8) :
    ∃ block, store s.m_buffer s.m_bufferSize c = some block ∧
      Keeps (data ++ [c])
        { s with m_buffer := block, m_bufferSize := s.m_bufferSize + 1 } := by
  obtain ⟨block, hstore, htake⟩ := store_of_lt hsize c
  refine ⟨block, hstore, ?_, ?_, ?_⟩
  · exact hsize
  · rw [List.length_append, UInt64.ofNat_add, UInt64.ofNat_add, ← h.numBytes, UInt64.add_assoc]
    rfl
  · have happend := h.represents.append [c]
    rw [live, ← htake] at happend
    exact happend

theorem Keeps.fillBuffer
    (current : Str) :
    ∀ {data : Str} {s : SHA256}, Keeps data s →
      ∃ s' rest, SHA256.fillBuffer current s = some (s', rest) ∧
        ∃ taken, current = taken ++ rest ∧ Keeps (data ++ taken) s' ∧
          (rest ≠ [] → s'.m_bufferSize = 64) := by
  induction current with
  | nil =>
      intro data s h
      refine ⟨s, [], rfl, [], rfl, ?_, ?_⟩
      · rw [List.append_nil]
        exact h
      · intro hne
        exact absurd rfl hne
  | cons c current ih =>
      intro data s h
      by_cases hsize : s.m_bufferSize < 64
      · obtain ⟨block, hstore, hpush⟩ := h.push hsize c
        obtain ⟨s', rest, hfill, taken, hcurrent, hkeeps, hfull⟩ := ih hpush
        refine ⟨s', rest, ?_, c :: taken, ?_, ?_, hfull⟩
        · rw [SHA256.fillBuffer, if_pos hsize, hstore, Option.bind_some, hfill]
        · rw [hcurrent, List.cons_append]
        · rw [← List.singleton_append, ← List.append_assoc]
          exact hkeeps
      · refine ⟨s, c :: current, ?_, [], rfl, ?_, ?_⟩
        · rw [SHA256.fillBuffer, if_neg hsize]
        · rw [List.append_nil]
          exact h
        · intro _
          exact Nat.le_antisymm h.size (Nat.not_lt.mp hsize)

/-- A full buffer is compressed, another one is left as it is. -/
theorem Keeps.flushBuffer
    {data : Str} {s : SHA256}
    (h : Keeps data s) :
    Holds data s.flushBuffer ∧ (s.m_bufferSize = 64 → s.flushBuffer.m_bufferSize = 0) := by
  by_cases hfull : s.m_bufferSize = 64
  · have hlive : s.live = s.m_buffer.toList := by
      rw [live, hfull, take_all]
    have hflush := h.represents.flush ((length_live h.size).trans hfull)
    have hnum := h.numBytes
    rw [SHA256.flushBuffer, if_pos hfull]
    rw [hfull] at hnum
    rw [hlive] at hflush
    refine ⟨⟨⟨Nat.zero_le 64, ?_, hflush⟩, Nat.zero_lt_succ 63⟩, fun _ => rfl⟩
    rw [← hnum]
    exact UInt64.add_zero _
  · rw [SHA256.flushBuffer, if_neg hfull]
    exact ⟨⟨h, Nat.lt_of_le_of_ne h.size hfull⟩, fun h64 => absurd h64 hfull⟩

/-- The full blocks of the data, compressed with an empty buffer. -/
theorem Holds.fullBlocks
    (current : Str)
    {data : Str} {s : SHA256}
    (h : Holds data s)
    (hempty : s.m_bufferSize = 0) :
    ∃ s' rest taken, SHA256.fullBlocks current s = (s', rest) ∧ current = taken ++ rest ∧
      Holds (data ++ taken) s' ∧ s'.m_bufferSize = 0 ∧ rest.length < 64 := by
  fun_induction SHA256.fullBlocks current s generalizing data with
  | case1 current s hlen ih =>
      have hlive : s.live = [] := by
        rw [live, hempty, List.take_zero]
      have htake : (current.take 64).length = 64 := by
        rw [List.length_take, Nat.min_eq_left hlen]
      have hrep := h.represents
      rw [hlive] at hrep
      have hblock := hrep.block htake
      obtain ⟨s', rest, taken, hloop, hcurrent, hholds, hsize, hrest⟩ :=
        @ih (data ++ current.take 64)
          { size := h.size
            numBytes := by
              rw [List.length_append, htake, UInt64.ofNat_add, ← h.numBytes, hempty]
              rw [UInt64.add_assoc, UInt64.add_assoc, UInt64.add_comm (UInt64.ofNat 0)]
              rfl
            represents := by
              rw [live, hempty, List.take_zero]
              exact hblock
            notFull := h.notFull }
          hempty
      refine ⟨s', rest, current.take 64 ++ taken, hloop, ?_, ?_, hsize, hrest⟩
      · rw [List.append_assoc, ← hcurrent, List.take_append_drop]
      · rw [← List.append_assoc]
        exact hholds
  | case2 current s hlen =>
      refine ⟨s, current, [], rfl, rfl, ?_, hempty, Nat.lt_of_not_le hlen⟩
      rw [List.append_nil]
      exact h

theorem Holds.keepBytes
    (current : Str) :
    ∀ {data : Str} {s : SHA256}, Holds data s → s.m_bufferSize + current.length < 64 →
      ∃ s', SHA256.keepBytes current s = some s' ∧ Holds (data ++ current) s' := by
  induction current with
  | nil =>
      intro data s h _
      refine ⟨s, rfl, ?_⟩
      rw [List.append_nil]
      exact h
  | cons c current ih =>
      intro data s h hlen
      rw [List.length_cons] at hlen
      obtain ⟨block, hstore, hpush⟩ := h.push h.notFull c
      obtain ⟨s', hkeep, hholds⟩ :=
        ih ⟨hpush, (by omega : s.m_bufferSize + 1 < 64)⟩
          (by omega : s.m_bufferSize + 1 + current.length < 64)
      refine ⟨s', ?_, ?_⟩
      · rw [SHA256.keepBytes, hstore, Option.bind_some, hkeep]
      · rw [← List.singleton_append, ← List.append_assoc]
        exact hholds

/-- The data before the full blocks: what fills up a partly filled buffer. -/
theorem Holds.fill
    {data : Str} {s : SHA256}
    (h : Holds data s)
    (more : Str) :
    ∃ s' rest taken,
      (if s.m_bufferSize > 0 then SHA256.fillBuffer more s else some (s, more)) =
        some (s', rest) ∧
      more = taken ++ rest ∧ Keeps (data ++ taken) s' ∧
      (rest ≠ [] → s'.flushBuffer.m_bufferSize = 0) := by
  by_cases hsize : s.m_bufferSize > 0
  · obtain ⟨s', rest, hfill, taken, hmore, hkeeps, hfull⟩ := h.toKeeps.fillBuffer more
    refine ⟨s', rest, taken, ?_, hmore, hkeeps, ?_⟩
    · rw [if_pos hsize, hfill]
    · intro hne
      exact hkeeps.flushBuffer.2 (hfull hne)
  · have hzero : s.m_bufferSize = 0 := Nat.eq_zero_of_not_pos hsize
    refine ⟨s, more, [], ?_, rfl, ?_, ?_⟩
    · rw [if_neg hsize]
    · rw [List.append_nil]
      exact h.toKeeps
    · intro _
      rw [SHA256.flushBuffer, if_neg (by omega), hzero]

/-- `add` appends its data. -/
theorem Holds.add
    {data : Str} {s : SHA256}
    (h : Holds data s)
    (more : Str) :
    ∃ s', s.add more = some s' ∧ Holds (data ++ more) s' := by
  obtain ⟨s₁, rest, taken, hfill, rfl, hkeeps, hflushed⟩ := h.fill more
  have hholds := hkeeps.flushBuffer.1
  by_cases hrest : rest = []
  · subst hrest
    refine ⟨s₁.flushBuffer, ?_, ?_⟩
    · rw [SHA256.add, hfill]
      rfl
    · rw [List.append_nil]
      exact hholds
  · obtain ⟨s₂, tail, full, hloop, rfl, hholds₂, hsize, htail⟩ :=
      hholds.fullBlocks rest (hflushed hrest)
    obtain ⟨s₃, hkeep, hholds₃⟩ := hholds₂.keepBytes tail (by omega)
    refine ⟨s₃, ?_, ?_⟩
    · have hlen : (full ++ tail).length ≠ 0 := by
        intro h0
        exact hrest (List.eq_nil_of_length_eq_zero h0)
      rw [SHA256.add, hfill, Option.bind_some]
      simp only [if_neg hlen, hloop, hkeep]
    · rw [List.append_assoc, List.append_assoc] at hholds₃
      exact hholds₃

end Buffer

section Padding

/-- The bytes appended behind a buffer with `n` bytes in use. -/
def bufferPadding (n : Nat) (msgBits : UInt64) : Str :=
  128 :: (List.replicate (if n ≤ 55 then 55 - n else 119 - n) 0 ++ lengthBytes msgBits)

/-- One block takes up to 55 bytes, two blocks take the rest. -/
theorem paddedLength_eq
    {n : Nat}
    (hn : n < 64) :
    paddedLength n = if n ≤ 55 then 56 else 120 := by
  have hand : (n * 8 + 1) &&& 511 = n * 8 + 1 := by
    rw [show 511 = 2 ^ 9 - 1 from rfl, Nat.and_two_pow_sub_one_eq_mod]
    omega
  simp only [paddedLength, hand]
  split_ifs <;> omega

theorem length_lengthBytes
    (msgBits : UInt64) :
    (lengthBytes msgBits).length = 8 :=
  rfl

/-- The first part of the padding: the bit 1 and zeros up to the end of `m_buffer`. -/
theorem storeMarker
    (s : SHA256)
    (hsize : s.m_bufferSize < 64) :
    ∃ block₁ block₂, store s.m_buffer s.m_bufferSize 128 = some block₁ ∧
      storeAll (List.replicate (64 - (s.m_bufferSize + 1)) 0) (s.m_bufferSize + 1) block₁ =
        some block₂ ∧
      block₂.toList = s.live ++ 128 :: List.replicate (63 - s.m_bufferSize) 0 := by
  obtain ⟨block₁, hstore, htake₁⟩ := store_of_lt hsize 128
  have hlen : s.m_bufferSize + 1 + (List.replicate (64 - (s.m_bufferSize + 1)) (0 : UInt8)).length =
      64 := by
    rw [List.length_replicate]
    omega
  obtain ⟨block₂, hzeros, htake₂⟩ := storeAll_of_le _ (Nat.le_of_eq hlen)
  refine ⟨block₁, block₂, hstore, hzeros, ?_⟩
  rw [hlen, take_all, htake₁, List.append_assoc, List.singleton_append] at htake₂
  have hsub : 64 - (s.m_bufferSize + 1) = 63 - s.m_bufferSize := by omega
  rw [htake₂, hsub]
  rfl

/-- The length, stored in the last eight bytes of a block. -/
theorem storeLength
    (block : Vector UInt8 64)
    (msgBits : UInt64) :
    ∃ block', storeAll (lengthBytes msgBits) 56 block = some block' ∧
      block'.toList = block.toList.take 56 ++ lengthBytes msgBits := by
  obtain ⟨block', hstore, htake⟩ :=
    storeAll_of_le (lengthBytes msgBits) (Nat.le_of_eq (rfl : 56 + 8 = 64))
  refine ⟨block', hstore, ?_⟩
  rw [← htake, length_lengthBytes, take_all]

/-- The padding is stored in bounds and follows the bytes in use. -/
theorem padBuffer_eq
    (s : SHA256)
    (extra : Vector UInt8 64)
    (hsize : s.m_bufferSize < 64) :
    ∃ m_buffer' extra', padBuffer s extra = some (m_buffer', extra') ∧
      m_buffer'.toList.take s.m_bufferSize = s.live ∧
      (if s.m_bufferSize ≤ 55 then m_buffer'.toList else m_buffer'.toList ++ extra'.toList) =
        s.live ++ bufferPadding s.m_bufferSize
          (8 * (s.m_numBytes + UInt64.ofNat s.m_bufferSize)) := by
  obtain ⟨block₁, block₂, hmarker, hzeros, hblock₂⟩ := storeMarker s hsize
  have hlive := length_live (Nat.le_of_lt hsize)
  have hmax : max (s.m_bufferSize + 1) 64 = 64 := by omega
  generalize hbits : 8 * (s.m_numBytes + UInt64.ofNat s.m_bufferSize) = msgBits
  by_cases h55 : s.m_bufferSize ≤ 55
  · -- marker, zeros and length all fit into `m_buffer`
    obtain ⟨block₃, hlength, hblock₃⟩ := storeLength block₂ msgBits
    have hsplit : 63 - s.m_bufferSize = (55 - s.m_bufferSize) + 8 := by omega
    have htake : block₂.toList.take 56 =
        s.live ++ 128 :: List.replicate (55 - s.m_bufferSize) 0 := by
      rw [hblock₂, hsplit, List.replicate_add, ← List.cons_append, ← List.append_assoc]
      apply List.take_left'
      rw [List.length_append, List.length_cons, List.length_replicate, hlive]
      omega
    refine ⟨block₃, extra, ?_, ?_, ?_⟩
    · have hnone : storeAll (List.replicate (56 - 64) 0) (64 - 64) extra = some extra := rfl
      simp only [padBuffer, paddedLength_eq hsize, if_pos hsize, if_pos h55, hmarker, hzeros,
        hmax, hnone, hbits, Option.bind_eq_bind, Option.bind_some, Nat.reduceLT, if_true,
        hlength]
    · rw [hblock₃, htake, List.append_assoc]
      exact List.take_left' hlive
    · rw [if_pos h55, hblock₃, htake, bufferPadding, if_pos h55, List.append_assoc,
        List.cons_append]
  · -- the length goes into `extra`, after 56 zeros
    obtain ⟨extra₁, hextra, htake₁⟩ :=
      @storeAll_of_le (List.replicate 56 0) extra 0 (by rw [List.length_replicate]; omega)
    obtain ⟨extra₂, hlength, hextra₂⟩ := storeLength extra₁ msgBits
    rw [List.length_replicate, List.take_zero, List.nil_append, Nat.zero_add] at htake₁
    have hsplit : 119 - s.m_bufferSize = (63 - s.m_bufferSize) + 56 := by omega
    refine ⟨block₂, extra₂, ?_, ?_, ?_⟩
    · simp only [padBuffer, paddedLength_eq hsize, if_pos hsize, if_neg h55, hmarker, hzeros,
        hmax, Nat.reduceSub, hextra, hbits, Option.bind_eq_bind, Option.bind_some, Nat.reduceLT,
        if_false, hlength]
    · rw [hblock₂]
      exact List.take_left' hlive
    · rw [if_neg h55, hblock₂, hextra₂, htake₁, bufferPadding, if_neg h55, hsplit,
        List.replicate_add]
      simp

/-- `processBuffer` compresses the bytes in use and their padding. -/
theorem processBuffer_eq
    (s : SHA256)
    (extra : Vector UInt8 64)
    (hsize : s.m_bufferSize < 64) :
    ∃ s', processBuffer s extra = some s' ∧ s'.m_numBytes = s.m_numBytes ∧
      s'.m_bufferSize = s.m_bufferSize ∧ s'.live = s.live ∧
      s'.m_hash = BlockStreaming.feed 64 processBlock (if s.m_bufferSize ≤ 55 then 1 else 2)
        (s.live ++ bufferPadding s.m_bufferSize
          (8 * (s.m_numBytes + UInt64.ofNat s.m_bufferSize))) s.m_hash := by
  obtain ⟨block, extra', hpad, hlive, hblocks⟩ := padBuffer_eq s extra hsize
  rw [← hblocks]
  by_cases h55 : s.m_bufferSize ≤ 55
  · refine ⟨{ s with m_buffer := block, m_hash := processBlock s.m_hash block.toList },
      ?_, rfl, rfl, hlive, ?_⟩
    · simp only [processBuffer, hpad, Option.map_some, paddedLength_eq hsize, if_pos h55]
      rfl
    · rw [if_pos h55, if_pos h55, BlockStreaming.feed, BlockStreaming.feed, take_all]
  · refine ⟨{ s with
      m_buffer := block
      m_hash := processBlock (processBlock s.m_hash block.toList) extra'.toList },
      ?_, rfl, rfl, hlive, ?_⟩
    · simp only [processBuffer, hpad, Option.map_some, paddedLength_eq hsize, if_neg h55]
      rfl
    · have htake : (block.toList ++ extra'.toList).take 64 = block.toList :=
        List.take_left' Vector.length_toList
      have hdrop : (block.toList ++ extra'.toList).drop 64 = extra'.toList :=
        List.drop_left' Vector.length_toList
      rw [if_neg h55, if_neg h55, BlockStreaming.feed, BlockStreaming.feed, BlockStreaming.feed,
        htake, hdrop, take_all]

end Padding

section Digests

/-- A byte of a 64-bit word, as a quotient. -/
theorem byte_of_UInt64
    (x k : UInt64) :
    ((x >>> k) &&& 0xFF).toUInt8 = UInt8.ofNat (x.toNat / 2 ^ (k.toNat % 64)) := by
  apply UInt8.toNat_inj.mp
  have hmask : ∀ m : Nat, m &&& 255 = m % 256 := fun m => Nat.and_two_pow_sub_one_eq_mod m 8
  simp [hmask, Nat.shiftRight_eq_div_pow]

theorem ofNat_eq_of_mod_eq
    {m n : Nat}
    (h : m % 256 = n % 256) :
    UInt8.ofNat m = UInt8.ofNat n := by
  apply UInt8.toNat_inj.mp
  rw [UInt8.toNat_ofNat', UInt8.toNat_ofNat']
  exact h

/-- The stored length is the length in bits, modulo 2^64. -/
theorem lengthBytes_eq
    (n : Nat) :
    lengthBytes (8 * UInt64.ofNat n) =
      (List.range 8).map fun i => UInt8.ofNat (8 * n / 256 ^ (7 - i)) := by
  have hbits : (8 * UInt64.ofNat n).toNat = 8 * n % 2 ^ 64 := by
    simp [UInt64.toNat_mul]
  have hlast : ((8 * UInt64.ofNat n) &&& 0xFF).toUInt8 =
      (((8 * UInt64.ofNat n) >>> 0) &&& 0xFF).toUInt8 := by
    rw [UInt64.shiftRight_zero]
  have hrange : List.range 8 = [0, 1, 2, 3, 4, 5, 6, 7] := rfl
  rw [lengthBytes, hlast, hrange]
  simp only [byte_of_UInt64, hbits, List.map_cons, List.map_nil, List.cons.injEq, and_true]
  refine ⟨?_, ?_, ?_, ?_, ?_, ?_, ?_, ?_⟩
  all_goals
    apply ofNat_eq_of_mod_eq
    simp only [UInt64.reduceToNat, Nat.reduceMod, Nat.reducePow, Nat.reduceSub]
    omega

/-- The padded message is the message and the padding of its last part. -/
theorem padded_eq_bufferPadding
    (data : Str) :
    Sha256.padded data =
      data ++ bufferPadding (data.length % 64) (8 * UInt64.ofNat data.length) := by
  rw [Sha256.padded, bufferPadding, lengthBytes_eq, List.append_assoc, List.append_assoc]
  rfl

theorem length_bufferPadding
    {n : Nat}
    (hn : n < 64)
    (msgBits : UInt64) :
    n + (bufferPadding n msgBits).length = 64 * if n ≤ 55 then 1 else 2 := by
  rw [bufferPadding, List.length_cons, List.length_append, List.length_replicate,
    length_lengthBytes]
  split_ifs <;> omega

theorem processBlocks_succ
    (k : Nat) (data : Str) (s : Words) :
    Sha256.processBlocks (k + 1) data s =
      Sha256.processBlocks k (data.drop 64) (Sha256.processBlock s (data.take 64)) := by
  -- unfolding by name keeps the rounds of the block closed
  delta Sha256.processBlocks
  rfl

theorem processBlocks_eq_feed
    (k : Nat) :
    ∀ (data : Str) (s : Words),
      Sha256.processBlocks k data s = BlockStreaming.feed 64 Sha256.processBlock k data s := by
  induction k with
  | zero =>
      intro data s
      rfl
  | succ k ih =>
      intro data s
      rw [processBlocks_succ, BlockStreaming.feed, ih]

/-- The model of the digest compresses with the function of the source. -/
theorem digestWords_eq_feed
    (data : Str) :
    digestWords data =
      BlockStreaming.feed 64 processBlock ((Sha256.padded data).length / 64)
        (Sha256.padded data) Sha256.seed := by
  have hlen : (Sha256.padded data).length = 64 * ((Sha256.padded data).length / 64) := by
    have hpadded := Sha256.length_padded data
    omega
  have hblock : ∀ (s : Words) (block : Str), block.length = 64 →
      Sha256.processBlock s block = processBlock s block :=
    fun s block hblock => (processBlock_eq_window s hblock).symm
  rw [digestWords, processBlocks_eq_feed]
  exact BlockStreaming.feed_congr hblock _ _ hlen

/-- The words `processBuffer` leaves are those of the digest. -/
theorem Holds.processBuffer
    {data : Str} {s : SHA256}
    (h : Holds data s)
    (extra : Vector UInt8 64) :
    ∃ s', SHA256.processBuffer s extra = some s' ∧ s'.m_hash = digestWords data ∧
      Holds data { s' with m_hash := s.m_hash } := by
  obtain ⟨s', hbuffer, hnum, hsize, hlive, hhash⟩ := processBuffer_eq s extra h.notFull
  have hlen := length_live h.size
  have hmod : data.length % 64 = s.m_bufferSize := by
    rw [h.represents.length_mod (by rw [hlen]; exact h.notFull), hlen]
  have hpad : (s.live ++ bufferPadding s.m_bufferSize (8 * UInt64.ofNat data.length)).length =
      64 * if s.m_bufferSize ≤ 55 then 1 else 2 := by
    rw [List.length_append, hlen]
    exact length_bufferPadding h.notFull _
  refine ⟨s', hbuffer, ?_, ?_⟩
  · rw [hhash, h.numBytes, digestWords_eq_feed, padded_eq_bufferPadding, hmod]
    exact (h.represents.finish (Nat.zero_lt_succ 63) hpad).symm
  · refine ⟨⟨?_, ?_, ?_⟩, ?_⟩
    · exact hsize ▸ h.size
    · rw [hnum, hsize]
      exact h.numBytes
    · have hrep := h.represents
      rw [← hlive] at hrep
      exact hrep
    · exact hsize ▸ h.notFull

theorem byte_of_UInt32
    (w k : UInt32) :
    ((w >>> k) &&& 0xFF).toUInt8 = UInt8.ofNat (w.toNat / 2 ^ (k.toNat % 32)) := by
  apply UInt8.toNat_inj.mp
  have hmask : ∀ m : Nat, m &&& 255 = m % 256 := fun m => Nat.and_two_pow_sub_one_eq_mod m 8
  simp [hmask, Nat.shiftRight_eq_div_pow]

theorem dec2hex_ofNat
    (m : Nat) :
    dec2hex (UInt8.ofNat m) = [Sha256.hexDigit (m / 16 % 16), Sha256.hexDigit (m % 16)] := by
  have hmask : ∀ m : Nat, m &&& 15 = m % 16 := fun m => Nat.and_two_pow_sub_one_eq_mod m 4
  have hhigh : ((UInt8.ofNat m >>> 4) &&& 15).toNat = m / 16 % 16 := by
    simp [hmask, Nat.shiftRight_eq_div_pow]
    omega
  have hlow : (UInt8.ofNat m &&& 15).toNat = m % 16 := by
    simp [hmask]
  rw [dec2hex, hhigh, hlow]

/-- The bytes of a word, written out, are its eight digits. -/
theorem dec2hex_wordBytes
    (w : UInt32) :
    (wordBytes w).flatMap dec2hex = Sha256.hexWord w := by
  have hlast : (w &&& 0xFF).toUInt8 = ((w >>> 0) &&& 0xFF).toUInt8 := by
    rw [UInt32.shiftRight_zero]
  have hrange : List.range 8 = [0, 1, 2, 3, 4, 5, 6, 7] := rfl
  rw [wordBytes, hlast, Sha256.hexWord, hrange]
  simp only [byte_of_UInt32, UInt32.reduceToNat, Nat.reduceMod, Nat.reducePow, Nat.reduceSub,
    List.flatMap_cons, List.flatMap_nil, dec2hex_ofNat, Nat.div_div_eq_div_mul, Nat.reduceMul,
    List.map_cons, List.map_nil, List.cons_append, List.nil_append, List.append_nil, Nat.div_one]

theorem digest_eq_hashBytes
    (data : Str) :
    (hashBytes (digestWords data)).flatMap dec2hex = Sha256.digest data := by
  simp only [hashBytes, List.flatMap_append, dec2hex_wordBytes]
  rfl

end Digests

section Calls

theorem Holds.getHashBytes
    {data : Str} {s : SHA256}
    (h : Holds data s)
    (extra : Vector UInt8 64) :
    ∃ s', SHA256.getHashBytes s extra = some (s', hashBytes (digestWords data)) ∧
      Holds data s' := by
  obtain ⟨s', hbuffer, hhash, hholds⟩ := h.processBuffer extra
  refine ⟨{ s' with m_hash := s.m_hash }, ?_, hholds⟩
  rw [SHA256.getHashBytes, hbuffer, Option.map_some, hhash]

theorem Holds.getHash
    {data : Str} {s : SHA256}
    (h : Holds data s)
    (extra : Vector UInt8 64) :
    ∃ s', SHA256.getHash s extra = some (s', Sha256.digest data) ∧ Holds data s' := by
  obtain ⟨s', hbytes, hholds⟩ := h.getHashBytes extra
  refine ⟨s', ?_, hholds⟩
  rw [SHA256.getHash, hbytes, Option.map_some, digest_eq_hashBytes]

/-- Every call keeps the data the object stands for as specified. -/
theorem refines_specCall :
    ObjectRefinement.Refines (fun s data => Holds data s) SHA256.call specCall := by
  intro s data call h
  cases call with
  | reset =>
      exact ⟨s.reset, rfl, holds_reset s⟩
  | add more =>
      obtain ⟨s', hadd, hholds⟩ := h.add more
      refine ⟨s', ?_, hholds⟩
      rw [SHA256.call, hadd]
      rfl
  | getHash extra =>
      exact h.getHash extra
  | getHashBytes extra =>
      exact h.getHashBytes extra
  | operator text extra =>
      obtain ⟨s₁, hadd, hholds⟩ := (holds_reset s).add text
      obtain ⟨s₂, hhash, hholds₂⟩ := hholds.getHash extra
      refine ⟨s₂, ?_, hholds₂⟩
      rw [SHA256.call, hadd, Option.bind_some, hhash]
      rfl

/-- Whatever the memory of a new object holds, every sequence of calls is defined,
and each digest is that of the data added since the last reset. -/
theorem streaming_refines
    (memory : SHA256)
    (calls : List Call) :
    ObjectRefinement.answers SHA256.call memory.reset calls =
      some (ObjectRefinement.specAnswers specCall [] calls) :=
  refines_specCall.answers calls (holds_reset memory)

/-- The digest of a text, from the recurrence of the algorithm. -/
def standardDigest (text : Str) : Words :=
  BlockStreaming.feed 64 Standard.block ((Sha256.padded text).length / 64)
    (Sha256.padded text) Sha256.seed

theorem digestWords_eq_standard
    (text : Str) :
    digestWords text = standardDigest text := by
  have hlen : (Sha256.padded text).length = 64 * ((Sha256.padded text).length / 64) := by
    have hpadded := Sha256.length_padded text
    omega
  have hblock : ∀ (s : Words) (block : Str), block.length = 64 →
      processBlock s block = Standard.block s block :=
    fun s block hblock => processBlock_eq_standard s hblock
  rw [digestWords_eq_feed]
  exact BlockStreaming.feed_congr hblock _ _ hlen

/-- One call on any object, in whatever state earlier calls left it, writes out the
words that the recurrence gives for the padded text. -/
theorem operator_computes_standard
    (s : SHA256)
    (text : Str)
    (extra : Vector UInt8 64) :
    ∃ s', SHA256.call s (.operator text extra) =
      some (s', (hashBytes (standardDigest text)).flatMap dec2hex) := by
  obtain ⟨s₁, hadd, hholds⟩ := (holds_reset s).add text
  obtain ⟨s₂, hhash, _⟩ := hholds.getHash extra
  refine ⟨s₂, ?_⟩
  rw [← digestWords_eq_standard, digest_eq_hashBytes, SHA256.call, hadd, Option.bind_some, hhash,
    List.nil_append]

end Calls

end SHA256
end CosiCoin
