import CosiCoin.BlockRestoration
import CosiCoin.PrintableBlocks
import CosiCoin.SignatureMeaning

/-!
# COSICOIN: bit sets, bytes and signatures as text

`bitset_to_string` packs 256 bits into 32 bytes, least significant bit first, and
`string_to_bitset` takes them out again.  The loop of the first is followed here
bit by bit, as that of the second is in the module on the meaning of signatures,
and agrees with the closed form used in the model.

`signature_to_json` writes the bits of each string as a text of their own, the
highest bit first, and `json_to_string` reads these texts.  An empty signature
is written as null, whose loop has no elements.
-/

namespace CosiCoin

section Packing

/-- The inner loop of `bitset_to_string`, for `n` of the eight bits from `i` on. -/
def packBits (bits : Nat → Bool) (i n : Nat) : UInt8 :=
  (List.range n).foldl (fun byte j => byte ||| UInt8.ofNat ((bits (i + j)).toNat <<< j)) 0

/-- The outer loop of `bitset_to_string`, over the positions of the bytes. -/
def packBytes (bits : Nat → Bool) : Str :=
  (List.range (keyLen / 8)).foldl (fun str k => str ++ [packBits bits (8 * k) 8]) []

/-- The bit added in one turn of the inner loop. -/
theorem testBit_shifted_bit
    (b : Bool)
    {n : Nat}
    (hn : n < 8)
    (j : Nat) :
    (UInt8.ofNat (b.toNat <<< n)).toNat.testBit j = (decide (j = n) && b) := by
  have hlt : b.toNat <<< n < 2 ^ 8 := by
    have hpow : 2 ^ n < 2 ^ 8 := Nat.pow_lt_pow_right (by decide) hn
    cases b with
    | false => simp
    | true => simpa [Nat.shiftLeft_eq] using hpow
  rw [UInt8.toNat_ofNat_of_lt' hlt]
  cases b with
  | false => simp
  | true =>
      rw [Bool.toNat_true, Nat.shiftLeft_eq, Nat.one_mul, Nat.testBit_two_pow, Bool.and_true]
      exact decide_eq_decide.mpr eq_comm

/-- After `n` turns the byte has the first `n` bits. -/
theorem testBit_packBits
    (bits : Nat → Bool)
    (i : Nat)
    {n : Nat}
    (hn : n ≤ 8)
    (j : Nat) :
    (packBits bits i n).toNat.testBit j = (decide (j < n) && bits (i + j)) := by
  induction n with
  | zero => simp [packBits]
  | succ n ih =>
      have hstep : packBits bits i (n + 1) =
          packBits bits i n ||| UInt8.ofNat ((bits (i + n)).toNat <<< n) := by
        rw [packBits, List.range_succ, List.foldl_append]
        rfl
      rw [hstep, UInt8.toNat_or, Nat.testBit_or, ih (by omega), testBit_shifted_bit _ hn]
      by_cases hj : j = n
      · subst hj
        simp
      · have hlt : j < n + 1 ↔ j < n := by omega
        simp [hj, hlt]

/-- The loops compute the closed form. -/
theorem packBytes_eq
    (bits : Nat → Bool) :
    packBytes bits = bitsetToString bits := by
  have hbyte : ∀ k, packBits bits (8 * k) 8 =
      UInt8.ofNat (Nat.ofBits fun j : Fin 8 => bits (8 * k + j)) := by
    intro k
    apply byte_eq_of_bits
    intro j hj
    rw [testBit_packBits bits _ (Nat.le_refl 8),
      UInt8.toNat_ofNat_of_lt' (Nat.ofBits_lt_two_pow _), Nat.testBit_ofBits_lt _ _ hj]
    simp [hj]
  rw [packBytes, List.foldl_append_eq_append, List.nil_append, ← List.flatMap_def,
    ← List.map_eq_flatMap]
  exact List.map_congr_left fun k _ => hbyte k

end Packing

section Inverses

theorem length_bitsetToString
    (bits : Nat → Bool) :
    (bitsetToString bits).length = keyLen / 8 := by
  rw [bitsetToString, List.length_map, List.length_range]

/-- The bits of a packed bit set. -/
theorem stringToBitset_bitsetToString
    (bits : Nat → Bool)
    {i : Nat}
    (hi : i < keyLen) :
    stringToBitset (bitsetToString bits) i = bits i := by
  have hk : i / 8 < keyLen / 8 := by
    unfold keyLen at hi ⊢
    omega
  have hj : i % 8 < 8 := Nat.mod_lt _ (by decide)
  have hbyte : (bitsetToString bits).getD (i / 8) 0 =
      UInt8.ofNat (Nat.ofBits fun j : Fin 8 => bits (8 * (i / 8) + j)) := by
    simp [bitsetToString, hk]
  rw [stringToBitset, hbyte, UInt8.toNat_ofNat_of_lt' (Nat.ofBits_lt_two_pow _),
    Nat.testBit_ofBits_lt _ _ hj, Nat.div_add_mod]

theorem pad_of_length_le
    {s : Str}
    (h : s.length ≤ keyLen / 8) :
    pad s = s ++ List.replicate (keyLen / 8 - s.length) 0 := by
  apply List.ext_getElem
  · rw [pad, List.length_map, List.length_range, List.length_append, List.length_replicate]
    omega
  · intro i hi hi'
    by_cases hs : i < s.length
    · simp [pad, hs]
    · simp [pad, List.getElem_append, hs]

end Inverses

section Signatures

variable [P : Platform]

/-- The strings `KeyGen` makes of the random bit sets it reads. -/
def drawOfBits (random : Nat → (Nat → Bool) × (Nat → Bool)) : Draw :=
  fun i => (bitsetToString (random i).1, bitsetToString (random i).2)

/-- Every string of a signature is one of the drawn strings. -/
theorem length_of_mem_sign_keyGen
    (m : Str)
    (random : Nat → (Nat → Bool) × (Nat → Bool)) :
    ∀ s ∈ sign m (keyGen (drawOfBits random)).privateKey, s.length = keyLen / 8 := by
  intro s hs
  rw [sign, if_pos (keyGen_wellFormed _).1] at hs
  obtain ⟨i, hi, rfl⟩ := List.mem_map.mp hs
  rw [keyGen_privateKey_entry _ (List.mem_range.mp hi)]
  split_ifs <;> exact length_bitsetToString _

variable [LawfulPlatform P] [UnicodeJson P]

/-- A list of strings of 32 bytes is written and read back. -/
theorem exists_signatureToJson
    {l : List Str}
    (h : ∀ s ∈ l, s.length = keyLen / 8) :
    ∃ text, signatureToJson l = .ok text ∧ jsonToString text = .ok l := by
  obtain ⟨text, htext, _⟩ := signatureToJson_utf8 fun s hs => Nat.le_of_eq (h s hs)
  refine ⟨text, htext, ?_⟩
  have hpad : l.map pad = l :=
    map_eq_self_iff.mpr fun s hs => (pad_eq_self_iff s).mpr (h s hs)
  rw [jsonToString_signatureToJson htext, hpad]

/--
Bit sets of 256 bits and strings of 32 bytes are translated into each other
without loss, shorter strings are filled up with zero bytes, and a list of
strings of 32 bytes comes back from its text, in particular every signature made
with a generated key.
-/
theorem bit_and_byte_codecs_are_inverse :
    (∀ bits : Nat → Bool, (packBytes bits).length = keyLen / 8 ∧
      ∀ i < keyLen, writeBytes (fun _ => false) 0 (packBytes bits) i = bits i) ∧
    (∀ s : Str, s.length = keyLen / 8 →
      packBytes (writeBytes (fun _ => false) 0 s) = s) ∧
    (∀ s : Str, s.length < keyLen / 8 →
      packBytes (writeBytes (fun _ => false) 0 s) =
        s ++ List.replicate (keyLen / 8 - s.length) 0) ∧
    (∀ l : List Str, (∀ s ∈ l, s.length = keyLen / 8) →
      ∃ text, signatureToJson l = .ok text ∧ jsonToString text = .ok l) ∧
    ∀ (m : Str) (random : Nat → (Nat → Bool) × (Nat → Bool)),
      let sig := sign m (keyGen (drawOfBits random)).privateKey
      sig.length = keyLen ∧
        ∃ text, signatureToJson sig = .ok text ∧ jsonToString text = .ok sig := by
  have hloop : ∀ s : Str, writeBytes (fun _ => false) 0 s = stringToBitset s :=
    fun s => funext (writeBytes_zero s)
  have hpad : ∀ s : Str, packBytes (writeBytes (fun _ => false) 0 s) = pad s := by
    intro s
    rw [hloop, packBytes_eq, bitsetToString_stringToBitset]
  refine ⟨?_, ?_, ?_, fun l => exists_signatureToJson, ?_⟩
  · intro bits
    rw [packBytes_eq, hloop]
    exact ⟨length_bitsetToString bits, fun i hi => stringToBitset_bitsetToString bits hi⟩
  · intro s hs
    rw [hpad]
    exact (pad_eq_self_iff s).mpr hs
  · intro s hs
    rw [hpad]
    exact pad_of_length_le (Nat.le_of_lt hs)
  · intro m random
    exact ⟨sign_length (keyGen_wellFormed _).1 m,
      exists_signatureToJson (length_of_mem_sign_keyGen m random)⟩

end Signatures

/-- A short string, the empty signature and a signature of one string. -/
theorem codecs_of_short_lists :
    letI := textPlatform
    packBytes (writeBytes (fun _ => false) 0 [7, 1]) = [7, 1] ++ List.replicate 30 0 ∧
      (∃ text, signatureToJson [] = .ok text ∧ jsonToString text = .ok []) ∧
      ∃ text, signatureToJson [equalBytes 5] = .ok text ∧
        jsonToString text = .ok [equalBytes 5] := by
  let _ := textPlatform
  obtain ⟨_, _, hshort, hlists, _⟩ := bit_and_byte_codecs_are_inverse
  refine ⟨hshort [7, 1] (by decide), hlists [] nofun, hlists [equalBytes 5] ?_⟩
  intro s hs
  rw [List.mem_singleton.mp hs]
  rfl

end CosiCoin
