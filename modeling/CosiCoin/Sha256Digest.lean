import CosiCoin.PlatformLibraries

/-!
# COSICOIN: the SHA-256 digest

The class of lib/signature/sha256.cc.  `processBlock` consumes 64 bytes; the
message schedule is kept as the window of its last sixteen words, so that one
pass over the round constants runs the eight unrolled rounds of the source.
`add` and `processBuffer` together append the padding and feed the blocks.

The definition is executable.  It is the `hash` of the reference platform, on
which the concrete runs of the development are evaluated.
-/

namespace CosiCoin
namespace Sha256

/-- Right rotation of a 32-bit word. -/
def rotate (a c : UInt32) : UInt32 :=
  (a >>> c) ||| (a <<< (32 - c))

/-- The mix function of `e`, `f`, `g`. -/
def f1 (e f g : UInt32) : UInt32 :=
  (rotate e 6 ^^^ rotate e 11 ^^^ rotate e 25) + ((e &&& f) ^^^ (~~~e &&& g))

/-- The mix function of `a`, `b`, `c`. -/
def f2 (a b c : UInt32) : UInt32 :=
  (rotate a 2 ^^^ rotate a 13 ^^^ rotate a 22) + (((a ||| b) &&& c) ||| (a &&& b))

/-- The constants of the 64 rounds, in the order of the source. -/
def roundConstants : List UInt32 :=
  [0x428a2f98, 0x71374491, 0xb5c0fbcf, 0xe9b5dba5,
   0x3956c25b, 0x59f111f1, 0x923f82a4, 0xab1c5ed5,
   0xd807aa98, 0x12835b01, 0x243185be, 0x550c7dc3,
   0x72be5d74, 0x80deb1fe, 0x9bdc06a7, 0xc19bf174,
   0xe49b69c1, 0xefbe4786, 0x0fc19dc6, 0x240ca1cc,
   0x2de92c6f, 0x4a7484aa, 0x5cb0a9dc, 0x76f988da,
   0x983e5152, 0xa831c66d, 0xb00327c8, 0xbf597fc7,
   0xc6e00bf3, 0xd5a79147, 0x06ca6351, 0x14292967,
   0x27b70a85, 0x2e1b2138, 0x4d2c6dfc, 0x53380d13,
   0x650a7354, 0x766a0abb, 0x81c2c92e, 0x92722c85,
   0xa2bfe8a1, 0xa81a664b, 0xc24b8b70, 0xc76c51a3,
   0xd192e819, 0xd6990624, 0xf40e3585, 0x106aa070,
   0x19a4c116, 0x1e376c08, 0x2748774c, 0x34b0bcb5,
   0x391c0cb3, 0x4ed8aa4a, 0x5b9cca4f, 0x682e6ff3,
   0x748f82ee, 0x78a5636f, 0x84c87814, 0x8cc70208,
   0x90befffa, 0xa4506ceb, 0xbef9a3f7, 0xc67178f2]

/-- The eight words of `m_hash`. -/
structure Words where
  (a b c d e f g h : UInt32)

/-- The seed stored by `reset`. -/
def seed : Words :=
  ⟨0x6a09e667, 0xbb67ae85, 0x3c6ef372, 0xa54ff53a,
   0x510e527f, 0x9b05688c, 0x1f83d9ab, 0x5be0cd19⟩

/-- The next word of the schedule, from the window of the last sixteen. -/
def nextWord (w : List UInt32) : UInt32 :=
  let w15 := w.getD 1 0
  let w2 := w.getD 14 0
  w.getD 0 0 + (rotate w15 7 ^^^ rotate w15 18 ^^^ (w15 >>> 3)) + w.getD 9 0 +
    (rotate w2 17 ^^^ rotate w2 19 ^^^ (w2 >>> 10))

/-- One round with constant `k` and schedule word `w`. -/
def roundStep (k w : UInt32) (s : Words) : Words :=
  let x := s.h + f1 s.e s.f s.g + k + w
  let y := f2 s.a s.b s.c
  ⟨x + y, s.a, s.b, s.c, s.d + x, s.e, s.f, s.g⟩

/-- The rounds of one block, with the schedule window moving along. -/
def rounds : List UInt32 → List UInt32 → Words → Words
  | [], _, s => s
  | k :: ks, ws, s =>
      rounds ks (ws.drop 1 ++ [nextWord ws]) (roundStep k (ws.getD 0 0) s)

/-- The big-endian words of a byte sequence. -/
def bigEndianWords : Str → List UInt32
  | a :: b :: c :: d :: rest =>
      ((a.toUInt32 <<< 24) ||| (b.toUInt32 <<< 16) |||
        (c.toUInt32 <<< 8) ||| d.toUInt32) :: bigEndianWords rest
  | _ => []

/-- Process 64 bytes. -/
def processBlock (s : Words) (data : Str) : Words :=
  let r := rounds roundConstants (bigEndianWords data) s
  ⟨s.a + r.a, s.b + r.b, s.c + r.c, s.d + r.d,
   s.e + r.e, s.f + r.f, s.g + r.g, s.h + r.h⟩

/-- The message with the bit 1, the zero bits and the 64-bit length appended. -/
def padded (data : Str) : Str :=
  let numBytes := data.length
  let zeros :=
    if numBytes % 64 ≤ 55 then 55 - numBytes % 64 else 119 - numBytes % 64
  data ++ [128] ++ List.replicate zeros 0 ++
    (List.range 8).map fun i => UInt8.ofNat (8 * numBytes / 256 ^ (7 - i))

theorem length_padded
    (data : Str) :
    (padded data).length = 64 * ((data.length + 8) / 64 + 1) := by
  unfold padded
  simp only [List.length_append, List.length_replicate, List.length_map, List.length_range,
    List.length_singleton]
  split
  · omega
  · omega

/-- Process `k` blocks of 64 bytes from the front of the data. -/
def processBlocks : Nat → Str → Words → Words
  | 0, _, s => s
  | k + 1, data, s => processBlocks k (data.drop 64) (processBlock s (data.take 64))

/-- The table dec2hex. -/
def hexDigit (n : Nat) : UInt8 :=
  UInt8.ofNat (if n < 10 then 48 + n else 87 + n)

/-- The eight hexadecimal characters of a word, most significant first. -/
def hexWord (w : UInt32) : Str :=
  (List.range 8).map fun i => hexDigit (w.toNat / 16 ^ (7 - i) % 16)

/-- `SHA256::operator()`: the digest as 64 hexadecimal characters. -/
def digest (data : Str) : Str :=
  let message := padded data
  let s := processBlocks (message.length / 64) message seed
  hexWord s.a ++ hexWord s.b ++ hexWord s.c ++ hexWord s.d ++
    hexWord s.e ++ hexWord s.f ++ hexWord s.g ++ hexWord s.h

theorem isHexDigit_hexDigit
    {n : Nat}
    (hn : n < 16) :
    isHexDigit (hexDigit n) = true := by
  revert n
  decide

theorem isHexDigit_of_mem_hexWord
    {w : UInt32} {c : UInt8}
    (hc : c ∈ hexWord w) :
    isHexDigit c = true := by
  simp only [hexWord, List.mem_map] at hc
  obtain ⟨i, _, rfl⟩ := hc
  exact isHexDigit_hexDigit (Nat.mod_lt _ (by decide))

@[simp] theorem length_hexWord
    (w : UInt32) :
    (hexWord w).length = 8 := by
  simp [hexWord]

/-- The digest is always 64 hexadecimal characters. -/
theorem isHexDigest_digest
    (data : Str) :
    IsHexDigest (digest data) := by
  constructor
  · simp [digest]
  · intro c hc
    simp only [digest, List.mem_append] at hc
    rcases hc with ((((((hc | hc) | hc) | hc) | hc) | hc) | hc) | hc
    all_goals exact isHexDigit_of_mem_hexWord hc

end Sha256
end CosiCoin
