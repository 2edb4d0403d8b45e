import CosiCoin.BlockText
import CosiCoin.ReferencePlatform

/-!
# COSICOIN: what a signature covers

`Sign` and `Verify` read the message through `string_to_bitset`.  The loop of
that function is followed here bit by bit and agrees with the closed form used
in the model.  Two messages select the same entries of a key exactly when their
first 32 bytes, padded with zero bytes, agree; if the two public entries of
each position differ, this is also exactly when a signature of the one verifies
as a signature of the other.
-/

namespace CosiCoin

section BitLoop

/-- The inner loop of `string_to_bitset`: eight bits of one byte from `index` on. -/
def writeByte (bits : Nat → Bool) (index : Nat) (byte : UInt8) : Nat → Bool :=
  (List.range 8).foldl
    (fun bits j => Function.update bits (index + j) ((byte.toNat >>> j) &&& 1 == 1)) bits

/-- The outer loop of `string_to_bitset`, over the characters of the string. -/
def writeBytes (bits : Nat → Bool) (index : Nat) : Str → Nat → Bool
  | [] => bits
  | c :: s => writeBytes (writeByte bits index c) (index + 8) s

/-- Writing the first `n` bits of a byte changes those `n` positions only. -/
theorem foldl_update_bits
    (bits : Nat → Bool)
    (index : Nat)
    (g : Nat → Bool)
    (n i : Nat) :
    (List.range n).foldl (fun b j => Function.update b (index + j) (g j)) bits i =
      if index ≤ i ∧ i < index + n then g (i - index) else bits i := by
  induction n with
  | zero =>
      have hnot : ¬ (index ≤ i ∧ i < index + 0) := by omega
      rw [if_neg hnot]
      rfl
  | succ n ih =>
      rw [List.range_succ, List.foldl_append]
      simp only [List.foldl_cons, List.foldl_nil, Function.update_apply]
      by_cases hi : i = index + n
      · have hin : index ≤ i ∧ i < index + (n + 1) := by omega
        have hsub : i - index = n := by omega
        rw [if_pos hi, if_pos hin, hsub]
      · have hiff : (index ≤ i ∧ i < index + n) ↔ (index ≤ i ∧ i < index + (n + 1)) := by
          omega
        rw [if_neg hi, ih]
        simp only [hiff]

theorem writeByte_apply
    (bits : Nat → Bool)
    (index : Nat)
    (byte : UInt8)
    (i : Nat) :
    writeByte bits index byte i =
      if index ≤ i ∧ i < index + 8 then byte.toNat.testBit (i - index) else bits i := by
  rw [writeByte, foldl_update_bits bits index fun j => (byte.toNat >>> j) &&& 1 == 1]
  have hbit : ((byte.toNat >>> (i - index)) &&& 1 == 1) = byte.toNat.testBit (i - index) := by
    rw [Nat.testBit, Nat.and_comm]
    have hmod : 1 &&& byte.toNat >>> (i - index) = (byte.toNat >>> (i - index)) % 2 := by
      rw [Nat.and_comm, Nat.and_one_is_mod]
    rcases Nat.mod_two_eq_zero_or_one (byte.toNat >>> (i - index)) with h | h
    · rw [hmod, h]
      rfl
    · rw [hmod, h]
      rfl
  rw [hbit]

/--
The loop leaves the positions before `index` as they were and writes the bits
of the string from there on.
-/
theorem writeBytes_apply
    (s : Str)
    (bits : Nat → Bool)
    (index i : Nat) :
    writeBytes bits index s i =
      if index ≤ i ∧ i < index + 8 * s.length then stringToBitset s (i - index)
      else bits i := by
  induction s generalizing bits index with
  | nil =>
      have hnot : ¬ (index ≤ i ∧ i < index + 8 * ([] : Str).length) := by
        rw [List.length_nil]
        omega
      rw [if_neg hnot]
      rfl
  | cons c s ih =>
      rw [writeBytes, ih, writeByte_apply, List.length_cons]
      by_cases hlow : index ≤ i ∧ i < index + 8
      · -- a position of the first byte
        have hrest : ¬ (index + 8 ≤ i ∧ i < index + 8 + 8 * s.length) := by omega
        have hall : index ≤ i ∧ i < index + 8 * (s.length + 1) := by omega
        have hdiv : (i - index) / 8 = 0 := by omega
        have hmod : (i - index) % 8 = i - index := by omega
        rw [if_neg hrest, if_pos hlow, if_pos hall, stringToBitset, hdiv, hmod]
        rfl
      · by_cases hrest : index + 8 ≤ i ∧ i < index + 8 + 8 * s.length
        · have hall : index ≤ i ∧ i < index + 8 * (s.length + 1) := by omega
          have hdiv : (i - index) / 8 = (i - (index + 8)) / 8 + 1 := by omega
          have hmod : (i - index) % 8 = (i - (index + 8)) % 8 := by omega
          rw [if_pos hrest, if_pos hall, stringToBitset, stringToBitset, hdiv, hmod,
            List.getD_cons_succ]
        · have hall : ¬ (index ≤ i ∧ i < index + 8 * (s.length + 1)) := by omega
          rw [if_neg hrest, if_neg hlow, if_neg hall]

/-- From the all-zero bitset the loop produces the bits of the string. -/
theorem writeBytes_zero
    (s : Str)
    (i : Nat) :
    writeBytes (fun _ => false) 0 s i = stringToBitset s i := by
  rw [writeBytes_apply]
  by_cases hi : 0 ≤ i ∧ i < 0 + 8 * s.length
  · rw [if_pos hi, Nat.sub_zero]
  · have hlen : s.length ≤ i / 8 := by omega
    have hbyte : s.getD (i / 8) 0 = 0 := by simp [hlen]
    rw [if_neg hi, stringToBitset, hbyte]
    simp

end BitLoop

section Prefix

/-- A byte is determined by its eight bits. -/
theorem byte_eq_of_bits
    {a b : UInt8}
    (h : ∀ j < 8, a.toNat.testBit j = b.toNat.testBit j) :
    a = b := by
  apply UInt8.toNat_inj.mp
  apply Nat.eq_of_testBit_eq
  intro j
  by_cases hj : j < 8
  · exact h j hj
  · have hpow : (2 : Nat) ^ 8 ≤ 2 ^ j := Nat.pow_le_pow_right (by decide) (by omega)
    have ha : a.toNat < 2 ^ j := Nat.lt_of_lt_of_le a.toNat_lt hpow
    have hb : b.toNat < 2 ^ j := Nat.lt_of_lt_of_le b.toNat_lt hpow
    rw [Nat.testBit_lt_two_pow ha, Nat.testBit_lt_two_pow hb]

/-- Inside a key, the bits of the cropped message are those of the message. -/
theorem stringToBitset_crop
    (m : Str)
    {i : Nat}
    (hi : i < keyLen) :
    stringToBitset (crop m) i = stringToBitset m i := by
  have hlt : i / 8 < keyLen / 8 := by
    unfold keyLen at hi ⊢
    omega
  have hbyte : (crop m).getD (i / 8) 0 = m.getD (i / 8) 0 := by
    simp [crop, List.getD_eq_getElem?_getD, hlt]
  rw [stringToBitset, hbyte, stringToBitset]

/-- Two messages select the same bits exactly when their padded prefixes agree. -/
theorem bits_eq_iff_pad
    (m m' : Str) :
    (∀ i < keyLen, stringToBitset (crop m) i = stringToBitset (crop m') i) ↔
      pad m = pad m' := by
  constructor
  · intro hbits
    apply List.map_congr_left
    intro k hk
    rw [List.mem_range] at hk
    apply byte_eq_of_bits
    intro j hj
    have hpos : 8 * k + j < keyLen := by
      unfold keyLen at hk ⊢
      omega
    have hbit := hbits (8 * k + j) hpos
    rw [stringToBitset_crop m hpos, stringToBitset_crop m' hpos] at hbit
    have hdiv : (8 * k + j) / 8 = k := by omega
    have hmod : (8 * k + j) % 8 = j := by omega
    simpa only [stringToBitset, hdiv, hmod] using hbit
  · intro hpad i hi
    have hlt : i / 8 < keyLen / 8 := by
      unfold keyLen at hi ⊢
      omega
    have hbyte : m.getD (i / 8) 0 = m'.getD (i / 8) 0 :=
      List.map_inj_left.mp hpad (i / 8) (List.mem_range.mpr hlt)
    rw [stringToBitset_crop m hi, stringToBitset_crop m' hi, stringToBitset, hbyte, stringToBitset]

end Prefix

section Keys

/-- The two entries of every position differ. -/
def SigKey.Separated (k : SigKey) : Prop :=
  ∀ i < keyLen, k.entry false i ≠ k.entry true i

instance (k : SigKey) : Decidable k.Separated :=
  inferInstanceAs (Decidable (∀ i < keyLen, _))

theorem SigKey.Separated.entry_inj
    {k : SigKey}
    (hk : k.Separated)
    {i : Nat}
    (hi : i < keyLen)
    {bit bit' : Bool}
    (h : k.entry bit i = k.entry bit' i) :
    bit = bit' := by
  cases bit with
  | false =>
      cases bit' with
      | false => rfl
      | true => exact absurd h (hk i hi)
  | true =>
      cases bit' with
      | false => exact absurd h.symm (hk i hi)
      | true => rfl

theorem sign_eq_nil_iff
    (m : Str)
    (k : SigKey) :
    sign m k = [] ↔ ¬ k.FullLength := by
  by_cases hk : k.FullLength
  · have hlen := sign_length hk m
    have hne : sign m k ≠ [] := by
      intro hnil
      rw [hnil] at hlen
      exact absurd hlen (by decide)
    simp [hk, hne]
  · simp [sign, hk]

end Keys

section Meaning

variable [Platform]

theorem verify_eq_neg_one_iff
    (m : Str)
    (sig : List Str)
    (k : SigKey) :
    verify m sig k = -1 ↔ ¬ (k.FullLength ∧ sig.length = keyLen) := by
  unfold verify
  split_ifs with hlen hall
  · simp [hlen]
  · simp [hlen]
  · simp [hlen]

/-- A signature of `m` verifies as one of `m'` exactly when both select the same entries. -/
theorem verify_sign_eq_one_iff
    {s : Signature}
    (hs : s.WellFormed)
    (hsep : s.publicKey.Separated)
    (m m' : Str) :
    verify m' (sign m s.privateKey) s.publicKey = 1 ↔ pad m = pad m' := by
  rw [← bits_eq_iff_pad]
  constructor
  · intro h i hi
    have hentry := entry_eq_hash_of_verify h hi
    rw [sign_getD hs.1 m hi, ← hs.hash_entry hi] at hentry
    exact (hsep.entry_inj hi hentry).symm
  · intro hbits
    have hsame : sign m s.privateKey = sign m' s.privateKey := by
      rw [sign, sign, if_pos hs.1, if_pos hs.1]
      apply List.map_congr_left
      intro i hi
      rw [hbits i (List.mem_range.mp hi)]
    rw [hsame]
    exact verify_sign hs m'

/--
A signature covers the first 32 bytes of a message, padded with zero bytes, and
nothing else.
-/
theorem signature_covers_padded_prefix :
    (∀ s : Signature, s.WellFormed → s.publicKey.Separated → ∀ m m' : Str,
      verify m' (sign m s.privateKey) s.publicKey =
        if pad m = pad m' then 1 else 0) ∧
    (∀ (m : Str) (sig : List Str) (k : SigKey),
      verify m sig k = -1 ↔
        sig.length ≠ keyLen ∨ k.S0.length ≠ keyLen ∨ k.S1.length ≠ keyLen) ∧
    (∀ (m : Str) (k : SigKey),
      sign m k = [] ↔ k.S0.length ≠ keyLen ∨ k.S1.length ≠ keyLen) := by
  refine ⟨?_, ?_, ?_⟩
  · intro s hs hsep m m'
    have hone := verify_sign_eq_one_iff hs hsep m m'
    split_ifs with hpad
    · exact hone.mpr hpad
    · have hne : verify m' (sign m s.privateKey) s.publicKey ≠ 1 := fun h => hpad (hone.mp h)
      unfold verify at hne ⊢
      rw [if_pos ⟨hs.publicKey_fullLength, sign_length hs.1 m⟩] at hne ⊢
      split_ifs at hne ⊢ with hall
      · exact absurd rfl hne
      · rfl
  · intro m sig k
    rw [verify_eq_neg_one_iff, SigKey.FullLength]
    omega
  · intro m k
    rw [sign_eq_nil_iff, SigKey.FullLength]
    omega

/-- A pair drawn with two secrets whose hashes differ has separated entries. -/
theorem keyGen_publicKey_separated
    {a b : Str}
    (hne : hash a ≠ hash b) :
    (keyGen fun _ => (a, b)).publicKey.Separated := by
  intro i hi
  rw [(keyGen_wellFormed _).hash_entry hi, (keyGen_wellFormed _).hash_entry hi,
    keyGen_privateKey_entry _ hi, keyGen_privateKey_entry _ hi]
  exact hne

end Meaning

/--
A signature of the single byte 7 also verifies for the bytes 7 and 0, and does
not verify for the byte 8.
-/
theorem signature_covers_byte_seven :
    letI := referencePlatform
    let pair := keyGen fun _ => (equalBytes 1, equalBytes 2)
    verify [7, 0] (sign [7] pair.privateKey) pair.publicKey = 1 ∧
      verify [8] (sign [7] pair.privateKey) pair.publicKey = 0 := by
  let _ := referencePlatform
  have hne : hash (equalBytes 1) ≠ hash (equalBytes 2) := by
    show Sha256.digest (equalBytes 1) ≠ Sha256.digest (equalBytes 2)
    decide +kernel
  have hmeaning := signature_covers_padded_prefix.1 _
    (keyGen_wellFormed fun _ => (equalBytes 1, equalBytes 2)) (keyGen_publicKey_separated hne)
  refine ⟨?_, ?_⟩
  · exact (hmeaning [7] [7, 0]).trans (if_pos (by decide))
  · exact (hmeaning [7] [8]).trans (if_neg (by decide))

end CosiCoin
