import CosiCoin.PlatformLibraries

/-!
# COSICOIN: one-time signatures

The functions of lib/signature/hash.cc.  A key has two halves of 256 strings.
A message is cropped to 32 bytes and read as 256 bits; the signature reveals,
for each bit, the string of the half that the bit selects, and verification
hashes every revealed string.

`KeyGen` reads its random strings from the system; here they are an argument,
one pair of strings for each of the 256 positions.  A pair of keys produced by
`KeyGen` is well formed by construction, and `verify_sign` is the only fact
about signatures that the protocol proofs use.
-/

namespace CosiCoin

/-- The number of positions of a key, `KEY_LEN_`. -/
def keyLen : Nat := 256

/-- One key: the strings for the bit 0 and those for the bit 1. -/
structure SigKey where
  S0 : List Str := []
  S1 : List Str := []
deriving DecidableEq

namespace SigKey

/-- Both halves have `KEY_LEN_` entries. -/
def FullLength (k : SigKey) : Prop :=
  k.S0.length = keyLen ∧ k.S1.length = keyLen

instance (k : SigKey) : Decidable k.FullLength :=
  inferInstanceAs (Decidable (_ ∧ _))

/-- The entry of position `i` for the given bit. -/
def entry (k : SigKey) (bit : Bool) (i : Nat) : Str :=
  if bit then k.S1.getD i [] else k.S0.getD i []

theorem FullLength.ne_nil
    {k : SigKey}
    (h : k.FullLength) :
    k.S0 ≠ [] ∧ k.S1 ≠ [] := by
  obtain ⟨h0, h1⟩ := h
  have hpos : 0 < keyLen := by decide
  refine ⟨List.ne_nil_of_length_pos ?_, List.ne_nil_of_length_pos ?_⟩
  · omega
  · omega

end SigKey

/--
The bits of a string, least significant bit of each byte first; positions
beyond the string are zero.
-/
def stringToBitset (s : Str) (i : Nat) : Bool :=
  (s.getD (i / 8) 0).toNat.testBit (i % 8)

/-- Crop a message to `KEY_LEN_ / 8` bytes. -/
def crop (m : Str) : Str :=
  m.take (keyLen / 8)

/-- `signature::Sign`: empty when a half of the key has the wrong length. -/
def sign (m : Str) (privateKey : SigKey) : List Str :=
  if privateKey.FullLength then
    (List.range keyLen).map fun i =>
      privateKey.entry (stringToBitset (crop m) i) i
  else
    []

theorem sign_length
    {k : SigKey}
    (hk : k.FullLength)
    (m : Str) :
    (sign m k).length = keyLen := by
  simp [sign, hk]

theorem sign_getD
    {k : SigKey}
    (hk : k.FullLength)
    (m : Str)
    {i : Nat}
    (hi : i < keyLen) :
    (sign m k).getD i [] = k.entry (stringToBitset (crop m) i) i := by
  simp [sign, hk, hi]

/-- The key pair held by a `signature::Signature` object. -/
structure Signature where
  publicKey : SigKey := {}
  privateKey : SigKey := {}
deriving DecidableEq

/-- The random strings of one `KeyGen` call, a pair for each position. -/
abbrev Draw := Nat → Str × Str

section Verify

variable [Platform]

/--
`signature::Verify`: `-1` when the key or the signature has the wrong length,
otherwise `1` or `0`.
-/
def verify (m : Str) (sig : List Str) (publicKey : SigKey) : Int :=
  if publicKey.FullLength ∧ sig.length = keyLen then
    if (List.range keyLen).all fun i =>
        publicKey.entry (stringToBitset (crop m) i) i == hash (sig.getD i [])
    then 1 else 0
  else
    -1

/-- `Signature::KeyGen`. -/
def keyGen (draw : Draw) : Signature where
  privateKey :=
    { S0 := (List.range keyLen).map fun i => (draw i).1
      S1 := (List.range keyLen).map fun i => (draw i).2 }
  publicKey :=
    { S0 := (List.range keyLen).map fun i => hash (draw i).1
      S1 := (List.range keyLen).map fun i => hash (draw i).2 }

/-- The public key belongs to the private key, and both have full length. -/
def Signature.WellFormed (s : Signature) : Prop :=
  s.privateKey.FullLength ∧
    s.publicKey = { S0 := s.privateKey.S0.map hash, S1 := s.privateKey.S1.map hash }

theorem keyGen_wellFormed
    (draw : Draw) :
    (keyGen draw).WellFormed := by
  refine ⟨⟨?_, ?_⟩, ?_⟩
  · simp [keyGen]
  · simp [keyGen]
  · simp [keyGen, Function.comp_def]

/-- The private entries of a generated key are the drawn strings. -/
theorem keyGen_privateKey_entry
    (draw : Draw)
    {i : Nat}
    (hi : i < keyLen)
    (bit : Bool) :
    (keyGen draw).privateKey.entry bit i = if bit then (draw i).2 else (draw i).1 := by
  cases bit <;> simp [keyGen, SigKey.entry, hi]

theorem Signature.WellFormed.publicKey_fullLength
    {s : Signature}
    (hs : s.WellFormed) :
    s.publicKey.FullLength := by
  obtain ⟨⟨h0, h1⟩, hpub⟩ := hs
  rw [hpub]
  exact ⟨by simpa using h0, by simpa using h1⟩

/-- Hashing a private entry gives the public entry of the same position. -/
theorem Signature.WellFormed.hash_entry
    {s : Signature}
    (hs : s.WellFormed)
    {i : Nat}
    (hi : i < keyLen)
    (bit : Bool) :
    s.publicKey.entry bit i = hash (s.privateKey.entry bit i) := by
  obtain ⟨⟨h0, h1⟩, hpub⟩ := hs
  rw [hpub]
  cases bit with
  | false =>
      have hi0 : i < s.privateKey.S0.length := by omega
      simp [SigKey.entry, hi0]
  | true =>
      have hi1 : i < s.privateKey.S1.length := by omega
      simp [SigKey.entry, hi1]

/-- A signature verifies under the public key of the pair that made it. -/
theorem verify_sign
    {s : Signature}
    (hs : s.WellFormed)
    (m : Str) :
    verify m (sign m s.privateKey) s.publicKey = 1 := by
  have hpub := hs.publicKey_fullLength
  have hlen := sign_length hs.1 m
  have hall :
      ((List.range keyLen).all fun i =>
        s.publicKey.entry (stringToBitset (crop m) i) i ==
          hash ((sign m s.privateKey).getD i [])) = true := by
    rw [List.all_eq_true]
    intro i hi
    have hi' : i < keyLen := List.mem_range.mp hi
    rw [beq_iff_eq, hs.hash_entry hi', sign_getD hs.1 m hi']
  simp only [verify, hpub, hlen, hall, and_self, if_true]

/-- Only keys and signatures of full length are compared. -/
theorem length_of_verify
    {m : Str} {sig : List Str} {k : SigKey}
    (h : verify m sig k = 1) :
    k.FullLength ∧ sig.length = keyLen := by
  unfold verify at h
  split_ifs at h with hlen hall
  · exact hlen
  · exact absurd h (by decide)

/-- What a successful verification has compared. -/
theorem entry_eq_hash_of_verify
    {m : Str} {sig : List Str} {k : SigKey}
    (h : verify m sig k = 1)
    {i : Nat}
    (hi : i < keyLen) :
    k.entry (stringToBitset (crop m) i) i = hash (sig.getD i []) := by
  unfold verify at h
  split_ifs at h with hlen hall
  · exact beq_iff_eq.mp (List.all_eq_true.mp hall i (List.mem_range.mpr hi))
  · exact absurd h (by decide)

/-- A string of `KEY_LEN_ / 8` equal bytes. -/
def equalBytes (k : UInt8) : Str :=
  List.replicate (keyLen / 8) k

/-- A key pair with the same secret at every position. -/
def uniformKey (k : UInt8) : Signature :=
  keyGen fun _ => (equalBytes k, equalBytes k)

theorem uniformKey_wellFormed
    (k : UInt8) :
    (uniformKey k).WellFormed :=
  keyGen_wellFormed _

theorem uniformKey_privateKey_entry
    (k : UInt8)
    {i : Nat}
    (hi : i < keyLen)
    (bit : Bool) :
    (uniformKey k).privateKey.entry bit i = equalBytes k := by
  rw [uniformKey, keyGen_privateKey_entry _ hi]
  simp

/-- A signature under one uniform key does not verify under another. -/
theorem verify_sign_uniformKey_ne
    (m : Str)
    {k k' : UInt8}
    (hne : hash (equalBytes k) ≠ hash (equalBytes k')) :
    verify m (sign m (uniformKey k').privateKey) (uniformKey k).publicKey ≠ 1 := by
  intro h
  have hpos : 0 < keyLen := by decide
  have hzero := entry_eq_hash_of_verify h hpos
  rw [(uniformKey_wellFormed k).hash_entry hpos, uniformKey_privateKey_entry k hpos,
    sign_getD (uniformKey_wellFormed k').1 _ hpos,
    uniformKey_privateKey_entry k' hpos] at hzero
  exact hne hzero

end Verify

section Text

/-- The elements `j[0], ..., j[KEY_LEN_ - 1]` of an array, each read as a string. -/
def firstStrings : Nat → List Json → Except String (List Str)
  | 0, _ => .ok []
  | k + 1, .str s :: rest => (firstStrings k rest).map (s :: ·)
  | _ + 1, _ => .error "type must be string"

/-- The value of a member, `j.at(name)`. -/
def Json.at (j : Json) (name : Str) : Except String Json :=
  match j with
  | .obj members =>
      match members.find? fun m => m.1 == name with
      | some m => .ok m.2
      | none => .error "key not found"
  | _ => .error "cannot use at()"

/-- `j.size()`. -/
def Json.size : Json → Nat
  | .null => 0
  | .arr elements => elements.length
  | .obj members => members.length
  | _ => 1

/-- The elements of an array, for element access by position. -/
def Json.elements : Json → Except String (List Json)
  | .arr elements => .ok elements
  | .null => .ok []
  | _ => .error "cannot use operator[] with a numeric argument"

theorem firstStrings_map_str
    (l : List Str) :
    firstStrings l.length (l.map .str) = .ok l := by
  induction l with
  | nil => rfl
  | cons s l ih =>
      simp [firstStrings, ih, Except.map]

theorem length_of_firstStrings :
    ∀ {k : Nat} {e : List Json} {l : List Str},
      firstStrings k e = .ok l → l.length = k
  | 0, _, l, h => by
      simp only [firstStrings, Except.ok.injEq] at h
      subst h
      rfl
  | k + 1, .str s :: rest, l, h => by
      simp only [firstStrings] at h
      cases ht : firstStrings k rest with
      | error e =>
          simp [ht, Except.map] at h
      | ok t =>
          simp only [ht, Except.map, Except.ok.injEq] at h
          subst h
          simp [length_of_firstStrings ht]
  | _ + 1, [], _, h => by simp [firstStrings] at h
  | _ + 1, .null :: _, _, h => by simp [firstStrings] at h
  | _ + 1, .bool _ :: _, _, h => by simp [firstStrings] at h
  | _ + 1, .num _ :: _, _, h => by simp [firstStrings] at h
  | _ + 1, .arr _ :: _, _, h => by simp [firstStrings] at h
  | _ + 1, .obj _ :: _, _, h => by simp [firstStrings] at h

variable [P : Platform]

/-- `SigKey_to_string`. -/
def sigKeyToString (k : SigKey) : Except String Str :=
  if k.FullLength then
    dump (keyDocument k.S0 k.S1)
  else
    .error s!"Cannot convert SigKey to string, invalid signature key length (S0: {k.S0.length}, S1: {k.S1.length})"

/--
`SigKey_from_string`.  The length test of the source names S0 twice; the
entries of S1 beyond the last one read as null, which is not a string.
-/
def sigKeyFromString (text : Str) : Except String SigKey := do
  let j ← parse text
  let s0 ← j.at nameS0
  if s0.size ≠ keyLen then
    throw "Cannot convert string to SigKey, invalid signature key length (S0: 0, S1: 0)"
  let s1 ← j.at nameS1
  let e0 ← s0.elements
  let e1 ← s1.elements
  let S0 ← firstStrings keyLen e0
  let S1 ← firstStrings keyLen e1
  return { S0 := S0, S1 := S1 }

theorem fullLength_of_sigKeyToString
    {k : SigKey} {text : Str}
    (h : sigKeyToString k = .ok text) :
    k.FullLength := by
  unfold sigKeyToString at h
  split_ifs at h with hk
  exact hk

/-- Decoding the text of a key gives the key back. -/
theorem sigKeyFromString_toString
    [LawfulPlatform P]
    {k : SigKey} {text : Str}
    (h : sigKeyToString k = .ok text) :
    sigKeyFromString text = .ok k := by
  have hk := fullLength_of_sigKeyToString h
  obtain ⟨h0, h1⟩ := hk
  have hdump : dump (keyDocument k.S0 k.S1) = .ok text := by
    simpa [sigKeyToString, SigKey.FullLength, h0, h1] using h
  have hparse := LawfulPlatform.parse_dump hdump
  have hf0 : firstStrings keyLen (k.S0.map .str) = .ok k.S0 := by
    rw [← h0]
    exact firstStrings_map_str k.S0
  have hf1 : firstStrings keyLen (k.S1.map .str) = .ok k.S1 := by
    rw [← h1]
    exact firstStrings_map_str k.S1
  have hname : (nameS0 == nameS1) = false := by decide
  simp [sigKeyFromString, hparse, keyDocument, Json.at, Json.size, Json.elements, h0,
    hname, hf0, hf1, pure, Except.pure, bind, Except.bind]

/-- The public key of a drawn pair can be written. -/
theorem sigKeyToString_keyGen
    [LawfulPlatform P]
    (draw : Draw) :
    ∃ text, sigKeyToString (keyGen draw).publicKey = .ok text := by
  have hfull := (keyGen_wellFormed draw).publicKey_fullLength
  have hne : ∀ l : List Str, l.length = keyLen → l ≠ [] := by
    rintro l hl rfl
    exact absurd hl (by decide)
  have hhex : ∀ g : Nat → Str, ∀ s ∈ (List.range keyLen).map (fun i => hash (g i)),
      IsHexDigest s := by
    intro g s hs
    obtain ⟨i, _, rfl⟩ := List.mem_map.mp hs
    exact LawfulPlatform.hash_hex _
  obtain ⟨text, htext⟩ := LawfulPlatform.dump_keyDocument (P := P)
    (hhex fun i => (draw i).1) (hhex fun i => (draw i).2)
    (hne _ hfull.1) (hne _ hfull.2)
  exact ⟨text, by rw [sigKeyToString, if_pos hfull]; exact htext⟩

end Text

end CosiCoin
