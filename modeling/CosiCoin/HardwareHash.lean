import CosiCoin.Sha256Digest
import Mathlib.Tactic

/-!
# COSICOIN: preparing and reading back a hardware hash

`Wrapper::calculate_hash` of lib/interf: the message is padded as a text of the
characters 0 and 1, cut into pieces of eight characters, and each piece is read
as a decimal number into one of 32 words for the core.  `interface_c` gives the
core the upper 16 words as the first block and then the lower ones.  The eight
words the core returns are written byte by byte into a C string.

* A piece of eight characters stands for one byte and is not read in base 2, so
  the words are never those of the padded message (`hardware_input_never_matches`).
* `calculate_hash_c` stores the measured time through a pointer that is never set.
  The C string ends at the first zero byte, so a result is recovered exactly if the
  store happens to do no harm and no byte before the last one is zero
  (`calculateHash_keeps_digest_iff`).

The core itself is a parameter, and so is what the unset pointer holds.
-/

namespace CosiCoin

namespace HardwareHash

section Preparation

/-- `std::bitset<8>(c).to_string()`, the most significant bit first. -/
def binaryByte (c : UInt8) : Str :=
  (List.range 8).map fun i => if c.toNat.testBit (7 - i) then 49 else 48

/-- `Wrapper::charToBinaryString`. -/
def charToBinaryString (input : Str) : Str :=
  input.flatMap binaryByte

/-- `Wrapper::padding`; a loop to a negative bound appends no zeros. -/
def padding (input : Str) : Str :=
  let binString := charToBinaryString input
  let len := binString.length
  let strLen := charToBinaryString (decimal len)
  if len < 448 then
    binString ++ [49] ++ List.replicate (512 - len - strLen.length - 1) 48 ++ strLen
  else
    binString ++ [49] ++ List.replicate (512 + 512 - len - strLen.length - 1) 48 ++ strLen

/-- `isspace` in the C locale. -/
def isSpace (c : UInt8) : Bool :=
  c == 32 || (9 ≤ c && c ≤ 13)

/-- The decimal digits at the front of a text, after the value read so far. -/
def readDigits : Nat → Str → Nat
  | value, [] => value
  | value, c :: rest =>
      if 48 ≤ c && c ≤ 57 then readDigits (10 * value + (c.toNat - 48)) rest else value

/-- `strtoul` in base 10, cut to 32 bits; eight characters are always in range. -/
def strtoul (s : Str) : UInt32 :=
  match s.dropWhile isSpace with
  | 45 :: digits => - UInt32.ofNat (readDigits 0 digits)
  | 43 :: digits => UInt32.ofNat (readDigits 0 digits)
  | digits => UInt32.ofNat (readDigits 0 digits)

/-- The loop of `stringToUint32Array`, left where the text ends. -/
def fillArray (inputString : Str) : List Nat → List UInt32 → List UInt32
  | [], outputArray => outputArray
  | i :: is, outputArray =>
      if 8 * i ≥ inputString.length then
        outputArray
      else
        fillArray inputString is
          (outputArray.set (31 - i) (strtoul ((inputString.drop (8 * i)).take 8)))

/-- `stringToUint32Array`. -/
def stringToUint32Array (inputString : Str) : List UInt32 :=
  fillArray inputString (List.range 32) (List.replicate 32 0)

/-- The words `interface_c` writes to the registers 1 to 7, one list for each command. -/
def interfaceInput (block : List UInt32) (numberBlocks : UInt32) : List (List UInt32) :=
  let words := fun first n => (block.drop first).take n
  [words 16 7, words 23 7, words 30 2 ++ words 0 5] ++
    if numberBlocks ≠ 0 then [words 5 7, words 12 4] else []

/-- The number of blocks `calculate_hash` announces, 0 for one and 1 for two. -/
def numberBlocks (input : Str) : UInt32 :=
  if UInt32.ofNat (input.length * 8) < 448 then 0 else 1

/-- The array holds the words of the padded message, the first one at the end. -/
structure MatchesPadding (message : Str) : Prop where
  words : ∀ (i : Nat) (w : UInt32),
    (Sha256.bigEndianWords (Sha256.padded message))[i]? = some w →
      (stringToUint32Array (padding message))[31 - i]? = some w
  blocks : (Sha256.padded message).length = 64 * ((numberBlocks message).toNat + 1)

end Preparation

section Pieces

theorem length_binaryByte
    (c : UInt8) :
    (binaryByte c).length = 8 := by
  simp [binaryByte]

/-- Piece `j` of the text stands for byte `j` of the message. -/
theorem piece_charToBinaryString
    (message tail : Str) :
    ∀ {j : Nat} {c : UInt8}, message[j]? = some c →
      ((charToBinaryString message ++ tail).drop (8 * j)).take 8 = binaryByte c := by
  induction message with
  | nil =>
      intro j c h
      simp at h
  | cons a message ih =>
      intro j c h
      have hcons : charToBinaryString (a :: message) ++ tail =
          binaryByte a ++ (charToBinaryString message ++ tail) := by
        simp [charToBinaryString]
      rw [hcons]
      cases j with
      | zero =>
          cases h
          exact List.take_left' (length_binaryByte a)
      | succ j =>
          have hskip : 8 * (j + 1) = (binaryByte a).length + 8 * j := by
            rw [length_binaryByte]
            omega
          rw [hskip, ← List.drop_drop, List.drop_left]
          exact ih (by simpa using h)

theorem length_charToBinaryString
    (message : Str) :
    (charToBinaryString message).length = 8 * message.length := by
  induction message with
  | nil =>
      rfl
  | cons a message ih =>
      have hcons : charToBinaryString (a :: message) =
          binaryByte a ++ charToBinaryString message := rfl
      rw [hcons, List.length_append, length_binaryByte, ih, List.length_cons]
      omega

/-- The padded text starts with the bits of the message and a 1. -/
theorem padding_eq
    (message : Str) :
    ∃ tail, padding message = charToBinaryString message ++ (49 :: tail) := by
  unfold padding
  dsimp only
  split
  · exact ⟨_, by rw [List.append_assoc, List.append_assoc]; rfl⟩
  · exact ⟨_, by rw [List.append_assoc, List.append_assoc]; rfl⟩

/-- The loop writes piece `i` to place `31 - i` and leaves the other places alone. -/
theorem getElem?_fillArray
    (inputString : Str) (n : Nat) :
    ∀ {k : Nat} {outputArray : List UInt32} {i : Nat},
      outputArray.length = 32 → k + n ≤ 32 → i < k + n → 8 * i < inputString.length →
      (fillArray inputString (List.range' k n) outputArray)[31 - i]? =
        if k ≤ i then some (strtoul ((inputString.drop (8 * i)).take 8))
        else outputArray[31 - i]? := by
  induction n with
  | zero =>
      intro k outputArray i _ _ hi _
      rw [if_neg (by omega)]
      rfl
  | succ n ih =>
      intro k outputArray i hlen hn hi htext
      rw [List.range'_succ, fillArray]
      by_cases hbreak : 8 * k ≥ inputString.length
      · rw [if_pos hbreak, if_neg (by omega)]
      · rw [if_neg hbreak, ih (by rw [List.length_set]; exact hlen) (by omega) (by omega) htext]
        rcases Nat.lt_trichotomy i k with hlt | rfl | hgt
        · rw [if_neg (by omega), if_neg (by omega), List.getElem?_set_ne (by omega)]
        · rw [if_neg (by omega), if_pos (Nat.le_refl i), List.getElem?_set_self (by omega)]
        · rw [if_pos (by omega), if_pos (by omega)]

/-- What the array holds for a piece inside the text. -/
theorem getElem?_stringToUint32Array
    {inputString : Str} {i : Nat}
    (hi : i < 32)
    (htext : 8 * i < inputString.length) :
    (stringToUint32Array inputString)[31 - i]? =
      some (strtoul ((inputString.drop (8 * i)).take 8)) := by
  rw [stringToUint32Array, List.range_eq_range',
    getElem?_fillArray inputString 32 (List.length_replicate) (by omega) (by omega) htext,
    if_pos (Nat.zero_le i)]

end Pieces

section Mismatch

/-- Each byte of a big-endian word is at most the word, at its place. -/
theorem byte_le_word
    (a b c d : UInt8) :
    let w := (a.toUInt32 <<< 24) ||| (b.toUInt32 <<< 16) ||| (c.toUInt32 <<< 8) ||| d.toUInt32
    a.toNat * 2 ^ 24 ≤ w.toNat ∧ b.toNat ≤ w.toNat ∧ c.toNat ≤ w.toNat ∧ d.toNat ≤ w.toNat := by
  intro w
  have hw : w.toNat =
      ((a.toNat * 2 ^ 24 ||| b.toNat * 2 ^ 16) ||| c.toNat * 2 ^ 8) ||| d.toNat := by
    have ha := a.toNat_lt
    have hb := b.toNat_lt
    have hc := c.toNat_lt
    simp [w, Nat.shiftLeft_eq]
    rw [Nat.mod_eq_of_lt (by omega), Nat.mod_eq_of_lt (by omega), Nat.mod_eq_of_lt (by omega)]
  have hab : ∀ x y z t : Nat, x ≤ ((x ||| y) ||| z) ||| t ∧ y ≤ ((x ||| y) ||| z) ||| t := by
    intro x y z t
    have hout : x ||| y ≤ ((x ||| y) ||| z) ||| t := Nat.left_le_or.trans Nat.left_le_or
    exact ⟨Nat.left_le_or.trans hout, Nat.right_le_or.trans hout⟩
  have hcd : ∀ x z t : Nat, z ≤ (x ||| z) ||| t ∧ t ≤ (x ||| z) ||| t := by
    intro x z t
    exact ⟨Nat.right_le_or.trans Nat.left_le_or, Nat.right_le_or⟩
  have h₁ := hab (a.toNat * 2 ^ 24) (b.toNat * 2 ^ 16) (c.toNat * 2 ^ 8) d.toNat
  have h₂ := hcd (a.toNat * 2 ^ 24 ||| b.toNat * 2 ^ 16) (c.toNat * 2 ^ 8) d.toNat
  rw [← hw] at h₁ h₂
  exact ⟨h₁.1, (Nat.le_mul_of_pos_right _ (by decide)).trans h₁.2,
    (Nat.le_mul_of_pos_right _ (by decide)).trans h₂.1, h₂.2⟩

/-- Word `i` is at least each of the bytes it is made of, the first of them at its place. -/
theorem getElem?_bigEndianWords
    (i : Nat) :
    ∀ {l : Str}, 4 * i + 3 < l.length →
      ∃ w, (Sha256.bigEndianWords l)[i]? = some w ∧
        (∀ c, l[4 * i]? = some c → c.toNat * 2 ^ 24 ≤ w.toNat) ∧
        ∀ j c, j / 4 = i → l[j]? = some c → c.toNat ≤ w.toNat := by
  induction i with
  | zero =>
      intro l hl
      match l, hl with
      | a :: b :: c :: d :: rest, _ =>
          have hle := byte_le_word a b c d
          refine ⟨_, rfl, ?_, ?_⟩
          · intro x hx
            cases hx
            exact hle.1
          · intro j x hj hx
            have hj' : j < 4 := by omega
            match j, hj' with
            | 0, _ => cases hx; omega
            | 1, _ => cases hx; exact hle.2.1
            | 2, _ => cases hx; exact hle.2.2.1
            | 3, _ => cases hx; exact hle.2.2.2
  | succ i ih =>
      intro l hl
      match l, hl with
      | a :: b :: c :: d :: rest, hl =>
          simp only [List.length_cons] at hl
          obtain ⟨w, hw, hfirst, hbytes⟩ := @ih rest (by omega)
          refine ⟨w, hw, ?_, ?_⟩
          · intro x hx
            exact hfirst x hx
          · intro j x hj hx
            obtain ⟨k, rfl⟩ : ∃ k, j = k + 4 := ⟨j - 4, by omega⟩
            exact hbytes k x (by omega) hx

/-- The padded message begins with the message and a byte 128. -/
theorem padded_eq
    (message : Str) :
    ∃ tail, Sha256.padded message = message ++ 128 :: tail := by
  exact ⟨_, by unfold Sha256.padded; rw [List.append_assoc, List.append_assoc]; rfl⟩

/-- Eight characters 0 or 1 read as a decimal number stay below 2 ^ 24. -/
theorem strtoul_binaryByte_lt
    (c : UInt8) :
    (strtoul (binaryByte c)).toNat < 2 ^ 24 := by
  have hall : ∀ n : Fin 256, (strtoul (binaryByte (UInt8.ofNat n))).toNat < 2 ^ 24 := by
    decide +kernel
  have hc := hall ⟨c.toNat, c.toNat_lt⟩
  rwa [UInt8.ofNat_toNat] at hc

/-- Where the array matches, one byte of the message is read for a whole padded word. -/
theorem MatchesPadding.word
    {message : Str} {i : Nat} {c : UInt8}
    (hmatch : MatchesPadding message)
    (hshort : message.length ≤ 119)
    (hi : 4 * i ≤ message.length)
    (hc : message[i]? = some c) :
    (∀ x, (Sha256.padded message)[4 * i]? = some x →
        x.toNat * 2 ^ 24 ≤ (strtoul (binaryByte c)).toNat) ∧
      ∀ j x, j / 4 = i → (Sha256.padded message)[j]? = some x →
        x.toNat ≤ (strtoul (binaryByte c)).toNat := by
  have hlen : i < message.length := (List.getElem?_eq_some_iff.mp hc).1
  have hroom : 4 * i + 3 < (Sha256.padded message).length := by
    rw [Sha256.length_padded]
    omega
  obtain ⟨w, hw, hfirst, hbytes⟩ := getElem?_bigEndianWords i hroom
  obtain ⟨tail, htail⟩ := padding_eq message
  have hplace := hmatch.words i w hw
  have htext : 8 * i < (padding message).length := by
    rw [htail, List.length_append, length_charToBinaryString]
    omega
  rw [getElem?_stringToUint32Array (by omega) htext, htail,
    piece_charToBinaryString message _ hc] at hplace
  cases hplace
  exact ⟨hfirst, hbytes⟩

/-- The empty message is padded to a word 0x80000000, the text is read as ten million. -/
theorem not_matchesPadding_nil :
    ¬ MatchesPadding [] := by
  intro hmatch
  have hplace := hmatch.words 0 0x80000000 (by decide)
  obtain ⟨tail, htail⟩ := padding_eq []
  have htext : 8 * 0 < (padding []).length := by
    rw [htail]
    exact Nat.zero_lt_succ _
  have hpiece : ((padding []).drop (8 * 0)).take 8 = binaryByte 128 := by
    rfl
  rw [getElem?_stringToUint32Array (by decide) htext, hpiece] at hplace
  exact absurd hplace (by decide)

/-- In a matching array the bytes of the message, and the one after it, would all be zero. -/
theorem MatchesPadding.zero
    {message : Str}
    (hmatch : MatchesPadding message)
    (hshort : message.length ≤ 119)
    (hne : message ≠ [])
    (j : Nat) :
    ∀ x, j ≤ message.length → (Sha256.padded message)[j]? = some x → x = 0 := by
  obtain ⟨tail, htail⟩ := padded_eq message
  have hpos : 0 < message.length := List.length_pos_iff.mpr hne
  -- byte `j` lies in word `j / 4`, which is read from byte `j / 4` of the message
  induction j using Nat.strong_induction_on with
  | _ j ih =>
      intro x hj hx
      obtain ⟨c, hc⟩ : ∃ c, message[j / 4]? = some c :=
        ⟨_, List.getElem?_eq_getElem (show j / 4 < message.length by omega)⟩
      have hword := hmatch.word hshort (by omega) hc
      cases j with
      | zero =>
          have hx' := hword.1 x hx
          have hsmall := strtoul_binaryByte_lt c
          apply UInt8.toNat_inj.mp
          show x.toNat = 0
          omega
      | succ j =>
          have hcpad : (Sha256.padded message)[(j + 1) / 4]? = some c := by
            rw [htail, List.getElem?_append_left (by omega)]
            exact hc
          have hczero : c = 0 := ih _ (by omega) c (by omega) hcpad
          have hx' := hword.2 (j + 1) x rfl hx
          have hread : (strtoul (binaryByte 0)).toNat = 0 := by decide
          rw [hczero, hread] at hx'
          exact UInt8.toNat_inj.mp (Nat.le_zero.mp hx')

/-- No message of at most 119 bytes reaches the core padded as SHA-256 asks for. -/
theorem hardware_input_never_matches
    (message : Str)
    (hshort : message.length ≤ 119) :
    ¬ MatchesPadding message := by
  intro hmatch
  by_cases hne : message = []
  · subst hne
    exact not_matchesPadding_nil hmatch
  · obtain ⟨tail, htail⟩ := padded_eq message
    have hmark : (Sha256.padded message)[message.length]? = some 128 := by
      rw [htail, List.getElem?_append_right (Nat.le_refl _), Nat.sub_self]
      rfl
    have hzero := hmatch.zero hshort hne message.length 128 (Nat.le_refl _) hmark
    exact absurd hzero (by decide)

/-- The message abc does not match. -/
theorem abc_does_not_match :
    ¬ MatchesPadding [97, 98, 99] := by
  exact hardware_input_never_matches [97, 98, 99] (by decide)

/-- For abc the first word should be 0x61626380; the text 01100001 is read as 1100001. -/
theorem abc_is_read_in_decimal :
    ¬ ∀ message : Str, message.length ≤ 119 → MatchesPadding message := by
  intro h
  have hmatch := h [97, 98, 99] (by decide)
  have hword := (@MatchesPadding.word _ 0 97 hmatch (by decide) (by decide) rfl).1 97 rfl
  exact absurd hword (by decide)

end Mismatch

section Result

/-- The words read from the output registers. -/
structure CoreResult where
  out1 : UInt32
  out2 : UInt32
  out3 : UInt32
  out4 : UInt32
  out5 : UInt32
  out6 : UInt32
  out7 : UInt32
  out8 : UInt32
deriving DecidableEq

/-- The array `interface_c` leaves the words in, the last one first. -/
def interfaceOutput (r : CoreResult) : List UInt32 :=
  [r.out8, r.out7, r.out6, r.out5, r.out4, r.out3, r.out2, r.out1]

/-- The inner loop of `uint32ArrayToString`, the least significant byte first. -/
def elementBytes : Nat → UInt32 → Str
  | 0, _ => []
  | k + 1, element => (element &&& 0xFF).toUInt8 :: elementBytes k (element >>> 8)

/-- `uint32ArrayToString`, the contents of the buffer with the final zero. -/
def uint32ArrayToString (inputArray : List UInt32) : Str :=
  ((List.range 8).flatMap fun i => elementBytes 4 (inputArray.getD (7 - i) 0)) ++ [0]

/-- `std::string` of a C string. -/
def cString (buffer : Str) : Str :=
  buffer.takeWhile fun c => c ≠ 0

/-- The result of the core for a message, in the registers as `interface_c` finds it. -/
def coreResult (core : List (List UInt32) → UInt32 → CoreResult) (inputHash : Str) : CoreResult :=
  let block := stringToUint32Array (padding inputHash)
  core (interfaceInput block (numberBlocks inputHash)) (numberBlocks inputHash)

/-- Where the address lies that `elapsed_time` happens to hold; the pointer is never set. -/
inductive UnsetPointer where
  | invalid
  | unused
  | inResult (word : Fin 8)
deriving DecidableEq

/--
`*elapsed_time = …`: a fault, a store to memory nobody reads any more, or one over
two words of `resultArray` (behind its last word the second one is such memory).
-/
def storeTime (elapsedTime : UnsetPointer) (time : UInt32 × UInt32)
    (resultArray : List UInt32) : Except String (List UInt32) :=
  match elapsedTime with
  | .invalid => .error "store through a pointer that is not set"
  | .unused => .ok resultArray
  | .inResult word => .ok ((resultArray.set word time.1).set (word + 1) time.2)

/--
`Wrapper::calculate_hash` with the core that is given the words and the block
count; `time` are the two words of the measured time.
-/
def calculateHash (elapsedTime : UnsetPointer) (time : UInt32 × UInt32)
    (core : List (List UInt32) → UInt32 → CoreResult) (inputHash : Str) : Except String Str := do
  let resultArray ← storeTime elapsedTime time (interfaceOutput (coreResult core inputHash))
  return cString (uint32ArrayToString resultArray)

/--
A string is returned, and no other result of the core gives it when the store goes
to the same place.
-/
def KeepsDigest (elapsedTime : UnsetPointer) (time : UInt32 × UInt32) (inputHash : Str)
    (r : CoreResult) : Prop :=
  ∃ s, calculateHash elapsedTime time (fun _ _ => r) inputHash = .ok s ∧
    ∀ r' : CoreResult, calculateHash elapsedTime time (fun _ _ => r') inputHash = .ok s → r' = r

/-- The words of a result in the order they are written. -/
def CoreResult.words (r : CoreResult) : List UInt32 :=
  [r.out1, r.out2, r.out3, r.out4, r.out5, r.out6, r.out7, r.out8]

/-- The 32 bytes written for a result. -/
def CoreResult.bytes (r : CoreResult) : Str :=
  r.words.flatMap (elementBytes 4)

end Result

section Recovery

/-- The first bytes written are those of the value modulo a power of 256. -/
theorem elementBytes_eq_iff
    (k : Nat) :
    ∀ {e e' : UInt32}, elementBytes k e = elementBytes k e' ↔
      e.toNat % 256 ^ k = e'.toNat % 256 ^ k := by
  induction k with
  | zero =>
      intro e e'
      simp [elementBytes, Nat.mod_one]
  | succ k ih =>
      intro e e'
      have hbyte : ∀ x : UInt32, (x &&& 0xFF).toUInt8.toNat = x.toNat % 256 := by
        intro x
        simp
        rw [Nat.and_two_pow_sub_one_eq_mod _ 8]
        omega
      have hnext : ∀ x : UInt32, (x >>> 8).toNat = x.toNat / 256 := by
        intro x
        simp [Nat.shiftRight_eq_div_pow]
      rw [elementBytes, elementBytes, List.cons_eq_cons, ih, ← UInt8.toNat_inj, hbyte, hbyte,
        hnext, hnext, Nat.pow_succ', Nat.mod_mul, Nat.mod_mul]
      constructor
      · rintro ⟨hlow, hhigh⟩
        rw [hlow, hhigh]
      · intro h
        omega

theorem length_elementBytes
    (k : Nat) (e : UInt32) :
    (elementBytes k e).length = k := by
  induction k generalizing e with
  | zero =>
      rfl
  | succ k ih =>
      rw [elementBytes, List.length_cons, ih]

theorem take_elementBytes
    (k : Nat) (e : UInt32) :
    (elementBytes (k + 1) e).take k = elementBytes k e := by
  induction k generalizing e with
  | zero =>
      rfl
  | succ k ih =>
      rw [elementBytes, List.take_succ_cons, ih, elementBytes]

/-- A word is determined by its four bytes. -/
theorem elementBytes_four_inj
    {e e' : UInt32}
    (h : elementBytes 4 e = elementBytes 4 e') :
    e = e' := by
  have hmod := (elementBytes_eq_iff 4).mp h
  have he := e.toNat_lt
  have he' := e'.toNat_lt
  apply UInt32.toNat_inj.mp
  omega

/-- Words are determined by the bytes written for them. -/
theorem flatMap_elementBytes_inj
    (ws : List UInt32) :
    ∀ {ws' : List UInt32}, ws.length = ws'.length →
      ws.flatMap (elementBytes 4) = ws'.flatMap (elementBytes 4) → ws = ws' := by
  induction ws with
  | nil =>
      intro ws' hlen _
      exact (List.length_eq_zero_iff.mp hlen.symm).symm
  | cons w ws ih =>
      intro ws' hlen h
      obtain ⟨w', ws', rfl⟩ := List.exists_cons_of_length_eq_add_one hlen.symm
      rw [List.flatMap_cons, List.flatMap_cons] at h
      have hsplit := List.append_inj h (by rw [length_elementBytes, length_elementBytes])
      rw [elementBytes_four_inj hsplit.1, ih (Nat.succ_inj.mp hlen) hsplit.2]

/-- A result is determined by its bytes. -/
theorem bytes_inj
    {r r' : CoreResult}
    (h : r.bytes = r'.bytes) :
    r = r' := by
  have hwords : r.words = r'.words := flatMap_elementBytes_inj r.words rfl h
  obtain ⟨o1, o2, o3, o4, o5, o6, o7, o8⟩ := r
  cases r'
  cases hwords
  rfl

theorem length_bytes
    (r : CoreResult) :
    r.bytes.length = 32 := by
  simp [CoreResult.bytes, CoreResult.words, length_elementBytes]

/-- After a store that does no harm the returned string is the bytes up to the first zero. -/
theorem calculateHash_unused
    (time : UInt32 × UInt32)
    (core : List (List UInt32) → UInt32 → CoreResult) (inputHash : Str) :
    calculateHash .unused time core inputHash =
      .ok (cString (coreResult core inputHash).bytes) := by
  have hbuffer : calculateHash .unused time core inputHash =
      .ok (cString ((coreResult core inputHash).bytes ++ [0])) := rfl
  rw [hbuffer, cString, List.takeWhile_append]
  split
  · rename_i hall
    rw [cString, (List.takeWhile_prefix _).eq_of_length hall]
    simp
  · rfl

/-- A C string without zeros before its last byte determines bytes of its length. -/
theorem eq_of_cString_eq
    (l : Str) :
    ∀ {l' : Str} {n : Nat}, l.length = n + 1 → l'.length = n + 1 → (∀ c ∈ l.take n, c ≠ 0) →
      cString l' = cString l → l' = l := by
  induction l with
  | nil =>
      intro l' n hl
      simp at hl
  | cons a l ih =>
      intro l' n hl hl' hzero h
      obtain ⟨a', l', rfl⟩ := List.exists_cons_of_length_eq_add_one hl'
      cases n with
      | zero =>
          have hnil : l = [] := List.length_eq_zero_iff.mp (by simpa using hl)
          have hnil' : l' = [] := List.length_eq_zero_iff.mp (by simpa using hl')
          subst hnil hnil'
          by_cases ha : a = 0
          · by_cases ha' : a' = 0
            · rw [ha, ha']
            · simp [cString, ha, ha'] at h
          · by_cases ha' : a' = 0
            · simp [cString, ha, ha'] at h
            · simpa [cString, ha, ha'] using h
      | succ n =>
          have ha : a ≠ 0 := hzero a (by simp)
          have ha' : a' ≠ 0 := by
            rintro rfl
            simp [cString, ha] at h
          simp only [cString, List.takeWhile_cons, ne_eq, ha, ha', not_false_eq_true,
            decide_true, if_true, List.cons.injEq] at h
          rw [h.1, ih (by simpa using hl) (by simpa using hl')
            (fun c hc => hzero c (by simp [hc])) h.2]

/-- Bytes after a zero do not appear in the C string. -/
theorem cString_eq_of_take_eq
    {l l' : Str} {n : Nat}
    (htake : l'.take n = l.take n)
    (hzero : ∃ c ∈ l.take n, c = 0) :
    cString l' = cString l := by
  have hcut : ∀ xs ys : Str, (∃ c ∈ xs, c = 0) → cString (xs ++ ys) = cString xs := by
    intro xs ys hxs
    rw [cString, List.takeWhile_append, if_neg]
    · rfl
    · intro hlen
      obtain ⟨c, hc, hc0⟩ := hxs
      rw [← (List.takeWhile_prefix _).eq_of_length hlen] at hc
      have hne := List.all_eq_true.mp (List.all_takeWhile) c hc
      simp [hc0] at hne
  calc cString l' = cString (l'.take n ++ l'.drop n) := by rw [List.take_append_drop]
    _ = cString (l'.take n) := hcut _ _ (by rw [htake]; exact hzero)
    _ = cString (l.take n) := by rw [htake]
    _ = cString (l.take n ++ l.drop n) := (hcut _ _ hzero).symm
    _ = cString l := by rw [List.take_append_drop]

/-- The result whose very last byte is one larger. -/
def CoreResult.bumped (r : CoreResult) : CoreResult :=
  { r with out8 := UInt32.ofNat (r.out8.toNat + 2 ^ 24) }

theorem toNat_bumped
    (r : CoreResult) :
    r.bumped.out8.toNat = (r.out8.toNat + 2 ^ 24) % 2 ^ 32 := by
  exact UInt32.toNat_ofNat'

theorem bumped_ne
    (r : CoreResult) :
    r.bumped ≠ r := by
  intro h
  have hlast := toNat_bumped r
  have hlt := r.out8.toNat_lt
  rw [h] at hlast
  omega

/-- Only the last of the 32 bytes changes. -/
theorem take_bytes_bumped
    (r : CoreResult) :
    r.bumped.bytes.take 31 = r.bytes.take 31 := by
  have hfront : ((r.words.take 7).flatMap (elementBytes 4)).length = 28 := by
    simp [CoreResult.words, length_elementBytes]
  have htake : ∀ e : UInt32,
      ((r.words.take 7).flatMap (elementBytes 4) ++ elementBytes 4 e).take 31 =
        (r.words.take 7).flatMap (elementBytes 4) ++ elementBytes 3 e := by
    intro e
    have hlen : 31 = ((r.words.take 7).flatMap (elementBytes 4)).length + 3 := by
      rw [hfront]
    rw [hlen, List.take_length_add_append, take_elementBytes]
  have hthree : elementBytes 3 r.bumped.out8 = elementBytes 3 r.out8 := by
    rw [elementBytes_eq_iff, toNat_bumped]
    omega
  have hsplit : r.bytes =
      (r.words.take 7).flatMap (elementBytes 4) ++ elementBytes 4 r.out8 := by
    simp [CoreResult.bytes, CoreResult.words]
  have hsplit' : r.bumped.bytes =
      (r.words.take 7).flatMap (elementBytes 4) ++ elementBytes 4 r.bumped.out8 := by
    simp [CoreResult.bytes, CoreResult.words, CoreResult.bumped]
  rw [hsplit, hsplit', htake, htake, hthree]

/-- Every word of the array can be changed on its own. -/
theorem exists_interfaceOutput_set
    (r : CoreResult) (word : Fin 8) :
    ∃ r' : CoreResult, r' ≠ r ∧
      ∀ w, (interfaceOutput r').set word w = (interfaceOutput r).set word w := by
  obtain ⟨o1, o2, o3, o4, o5, o6, o7, o8⟩ := r
  have hne : ∀ w : UInt32, w + 1 ≠ w := by
    intro w hw
    have hnat := congrArg UInt32.toNat hw
    rw [UInt32.toNat_add] at hnat
    have hlt := w.toNat_lt
    have hone : (1 : UInt32).toNat = 1 := rfl
    omega
  match word with
  | 0 => exact ⟨⟨o1, o2, o3, o4, o5, o6, o7, o8 + 1⟩, by simp [hne], fun _ => rfl⟩
  | 1 => exact ⟨⟨o1, o2, o3, o4, o5, o6, o7 + 1, o8⟩, by simp [hne], fun _ => rfl⟩
  | 2 => exact ⟨⟨o1, o2, o3, o4, o5, o6 + 1, o7, o8⟩, by simp [hne], fun _ => rfl⟩
  | 3 => exact ⟨⟨o1, o2, o3, o4, o5 + 1, o6, o7, o8⟩, by simp [hne], fun _ => rfl⟩
  | 4 => exact ⟨⟨o1, o2, o3, o4 + 1, o5, o6, o7, o8⟩, by simp [hne], fun _ => rfl⟩
  | 5 => exact ⟨⟨o1, o2, o3 + 1, o4, o5, o6, o7, o8⟩, by simp [hne], fun _ => rfl⟩
  | 6 => exact ⟨⟨o1, o2 + 1, o3, o4, o5, o6, o7, o8⟩, by simp [hne], fun _ => rfl⟩
  | 7 => exact ⟨⟨o1 + 1, o2, o3, o4, o5, o6, o7, o8⟩, by simp [hne], fun _ => rfl⟩

/-- A store over a word of the array loses this word. -/
theorem not_keepsDigest_inResult
    (word : Fin 8) (time : UInt32 × UInt32) (inputHash : Str) (r : CoreResult) :
    ¬ KeepsDigest (.inResult word) time inputHash r := by
  rintro ⟨s, hs, hrecover⟩
  obtain ⟨r', hne, hset⟩ := exists_interfaceOutput_set r word
  refine hne (hrecover r' ?_)
  rw [← hs]
  simp only [calculateHash, storeTime, coreResult, hset]

/-- After a store that does no harm the bytes have to be without zeros, the last one apart. -/
theorem keepsDigest_unused_iff
    (time : UInt32 × UInt32) (inputHash : Str) (r : CoreResult) :
    KeepsDigest .unused time inputHash r ↔ ∀ c ∈ r.bytes.take 31, c ≠ 0 := by
  simp only [KeepsDigest, calculateHash_unused, coreResult]
  constructor
  · rintro ⟨s, hs, hrecover⟩ c hc hc0
    refine bumped_ne r (hrecover r.bumped ?_)
    rw [← hs, cString_eq_of_take_eq (take_bytes_bumped r) ⟨c, hc, hc0⟩]
  · intro hzero
    refine ⟨_, rfl, fun r' h => ?_⟩
    exact bytes_inj (eq_of_cString_eq r.bytes (length_bytes r) (length_bytes r') hzero
      (Except.ok.inj h))

/--
A result can be recovered from the returned string exactly if the unset pointer
happens to hold an address of memory that nobody reads and none of the first 31
bytes written is zero.
-/
theorem calculateHash_keeps_digest_iff
    (elapsedTime : UnsetPointer) (time : UInt32 × UInt32)
    (inputHash : Str) (r : CoreResult) :
    KeepsDigest elapsedTime time inputHash r ↔
      elapsedTime = .unused ∧ ∀ c ∈ r.bytes.take 31, c ≠ 0 := by
  cases elapsedTime with
  | invalid =>
      refine ⟨?_, fun h => absurd h.1 (by decide)⟩
      rintro ⟨s, hs, _⟩
      cases hs
  | unused =>
      rw [keepsDigest_unused_iff]
      exact ⟨fun h => ⟨rfl, h⟩, fun h => h.2⟩
  | inResult word =>
      refine ⟨fun h => absurd h (not_keepsDigest_inResult word time inputHash r), fun h => ?_⟩
      cases h.1

/-- Two results that begin with a zero byte give the empty string, even if the store does no harm. -/
theorem two_results_one_string :
    ¬ ∀ (elapsedTime : UnsetPointer) (time : UInt32 × UInt32) (inputHash : Str)
      (r r' : CoreResult), r ≠ r' →
      calculateHash elapsedTime time (fun _ _ => r) inputHash ≠
        calculateHash elapsedTime time (fun _ _ => r') inputHash := by
  intro h
  refine h .unused (0, 0) [] ⟨0, 0, 0, 0, 0, 0, 0, 0⟩ ⟨0, 0, 0, 0, 0, 0, 0, 1⟩ (by decide) ?_
  rw [calculateHash_unused, calculateHash_unused, coreResult, coreResult]
  decide

end Recovery

end HardwareHash

end CosiCoin
