import CosiCoin.PrintableBlocks

/-!
# COSICOIN: the strings that are hashed and signed

`Transaction::getDigest` hashes the decimal numerals of a transaction one after
the other, without separators and without the sender.  The string determines the
numbers once the width of every numeral is known, and only then.

`Block::getDigest` hashes the header ID, the numeral of the signer and the text of
the next key if there is one.  The ID has a fixed width and the text of a key
begins with a brace, so the string determines all three parts.
-/

namespace CosiCoin

open JsonText

section Numerals

/-- Pieces of known lengths are found again in their concatenation. -/
theorem flatMap_inj_of_lengths
    {α β : Type}
    {f : α → List β}
    (hf : Function.Injective f) :
    ∀ {l l' : List α}, l.map (fun a => (f a).length) = l'.map (fun a => (f a).length) →
      l.flatMap f = l'.flatMap f → l = l'
  | [], [], _, _ => rfl
  | a :: l, a' :: l', hlengths, h => by
      obtain ⟨hlength, hlengths⟩ := List.cons.inj hlengths
      obtain ⟨hhead, htail⟩ := List.append_inj h hlength
      rw [hf hhead, flatMap_inj_of_lengths hf hlengths htail]

theorem length_flatMap_pair
    {α : Type}
    (f g : α → Nat) (l : List α) :
    (l.flatMap fun a => [f a, g a]).length = 2 * l.length := by
  induction l with
  | nil =>
      rfl
  | cons a l ih =>
      rw [List.flatMap_cons, List.length_append, ih, List.length_cons, List.length_cons,
        List.length_cons, List.length_nil]
      omega

/-- A list of records of two numbers is found again in the list of these numbers. -/
theorem flatMap_pair_inj
    {α : Type}
    {f g : α → Nat} {l l' : List α}
    (hfg : ∀ a b, f a = f b → g a = g b → a = b)
    (h : (l.flatMap fun a => [f a, g a]) = l'.flatMap fun a => [f a, g a]) :
    l = l' := by
  have hlen : l.length = l'.length := by
    have htotal := congrArg List.length h
    rw [length_flatMap_pair, length_flatMap_pair] at htotal
    omega
  refine flatMap_inj_of_lengths ?_ ?_ h
  · intro a b hpair
    rw [List.cons.injEq, List.cons.injEq] at hpair
    exact hfg a b hpair.1 hpair.2.1
  · simp [List.map_const', hlen]

theorem decimal_injective :
    Function.Injective decimal := by
  intro n m h
  rw [← readDigits_decimal n, h, readDigits_decimal]

end Numerals

namespace Transaction

section Preimage

/-- The numbers in the string that is hashed, in order. -/
def numbers (t : Transaction) : List Nat :=
  t.txID.toNat ::
    ((t.inputs.flatMap fun i => [i.txID.toNat, i.outputIndex.toNat]) ++
      t.outputs.flatMap fun o => [o.value.toNat, o.receiverID.toNat])

/-- The numbers of digits of the numerals in the string, in order. -/
def widths (t : Transaction) : List Nat :=
  t.numbers.map fun n => (decimal n).length

theorem getStringDigest_eq_flatMap
    (t : Transaction) :
    t.getStringDigest = t.numbers.flatMap decimal := by
  simp [getStringDigest, numbers, List.flatMap_append, List.flatMap_assoc]

/-- The numbers and the number of inputs are all that the string can show. -/
theorem eq_of_numbers_eq
    {t t' : Transaction}
    (hlen : t.inputs.length = t'.inputs.length)
    (h : t.numbers = t'.numbers) :
    t.txID = t'.txID ∧ t.inputs = t'.inputs ∧ t.outputs = t'.outputs := by
  obtain ⟨htx, hrest⟩ := List.cons.inj h
  have hwidth : (t.inputs.flatMap fun i => [i.txID.toNat, i.outputIndex.toNat]).length =
      (t'.inputs.flatMap fun i => [i.txID.toNat, i.outputIndex.toNat]).length := by
    rw [length_flatMap_pair, length_flatMap_pair, hlen]
  obtain ⟨hinputs, houtputs⟩ := List.append_inj hrest hwidth
  refine ⟨UInt32.toNat_inj.mp htx, flatMap_pair_inj ?_ hinputs, flatMap_pair_inj ?_ houtputs⟩
  · rintro ⟨tx, out⟩ ⟨tx', out'⟩ htx hout
    obtain rfl : tx = tx' := UInt32.toNat_inj.mp htx
    obtain rfl : out = out' := UInt64.toNat_inj.mp hout
    rfl
  · rintro ⟨value, receiver⟩ ⟨value', receiver'⟩ hvalue hreceiver
    obtain rfl : value = value' := UInt64.toNat_inj.mp hvalue
    obtain rfl : receiver = receiver' := UInt32.toNat_inj.mp hreceiver
    rfl

end Preimage

/--
Two transactions with the same number of inputs and numerals of the same widths
have the same string exactly when they have the same number, inputs and outputs.
The sender, its signature and its key are not part of the string.
-/
theorem getStringDigest_binds
    (t t' : Transaction) :
    (t.inputs.length = t'.inputs.length → t.widths = t'.widths →
      (t.getStringDigest = t'.getStringDigest ↔
        t.txID = t'.txID ∧ t.inputs = t'.inputs ∧ t.outputs = t'.outputs)) ∧
    ∀ (senderID : UInt16) (senderSig : List Str) (publicKey : SigKey),
      getStringDigest { t with
        senderID := senderID, senderSig := senderSig, publicKey := publicKey } =
        t.getStringDigest := by
  refine ⟨?_, fun _ _ _ => rfl⟩
  intro hlen hwidths
  constructor
  · intro h
    rw [getStringDigest_eq_flatMap, getStringDigest_eq_flatMap] at h
    exact eq_of_numbers_eq hlen (flatMap_inj_of_lengths decimal_injective hwidths h)
  · rintro ⟨htx, hinputs, houtputs⟩
    rw [getStringDigest, getStringDigest, htx, hinputs, houtputs]

/-- The inputs (1, 11) and (11, 1) give the same string, and so do two senders. -/
theorem different_inputs_signed_alike :
    getStringDigest { inputs := [⟨1, 11⟩], txID := 1 } =
        getStringDigest { inputs := [⟨11, 1⟩], txID := 1 } ∧
      ([⟨1, 11⟩] : List Input) ≠ [⟨11, 1⟩] ∧
      getStringDigest { senderID := 1 } = getStringDigest { senderID := 2 } := by
  decide

/-- The payments of one wallet to two others are told apart. -/
theorem receivers_are_bound :
    getStringDigest { inputs := [⟨1, 0⟩], outputs := [⟨10, 1⟩], txID := 7 } ≠
      getStringDigest { inputs := [⟨1, 0⟩], outputs := [⟨10, 2⟩], txID := 7 } := by
  intro h
  have hbound := ((getStringDigest_binds
    { inputs := [⟨1, 0⟩], outputs := [⟨10, 1⟩], txID := 7 }
    { inputs := [⟨1, 0⟩], outputs := [⟨10, 2⟩], txID := 7 }).1 (by decide) (by decide)).mp h
  exact absurd hbound.2.2 (by decide)

end Transaction

section BlockDigests

/-- The text of an object begins with a brace. -/
class BracedObjects (P : Platform) : Prop where
  dump_obj : ∀ {members : List (Str × Json)} {text : Str},
    dump (.obj members) = .ok text → ∃ rest, text = 123 :: rest

variable [P : Platform]

/-- The text whose hash is the digest of a frozen block. -/
def Block.digestText (b : Block) : Except String Str :=
  let input := b.header.getID ++ decimal b.validatorId.toNat
  if b.validatorNextPublicKey.S0 ≠ [] ∧ b.validatorNextPublicKey.S1 ≠ [] then
    (sigKeyToString b.validatorNextPublicKey).map fun key => input ++ key
  else
    .ok input

/-- The digest of a frozen block is the hash of its string. -/
theorem getDigest_eq_map_hash
    {b : Block}
    (hfrozen : b.isMutable = false) :
    b.getDigest = b.digestText.map hash := by
  unfold Block.getDigest Block.digestText
  rw [if_neg (by simp [hfrozen])]
  dsimp only
  split_ifs
  · cases sigKeyToString b.validatorNextPublicKey with
    | error e => rfl
    | ok key => rfl
  · rfl

theorem getDigest_eq_hash
    {b : Block} {digest : Str}
    (h : b.getDigest = .ok digest) :
    ∃ text, b.digestText = .ok text ∧ digest = hash text := by
  rw [getDigest_eq_map_hash (Block.frozen_of_getDigest h)] at h
  cases htext : b.digestText with
  | error e =>
      rw [htext] at h
      cases h
  | ok text =>
      rw [htext] at h
      exact ⟨text, rfl, (Except.ok.inj h).symm⟩

/-- Both halves of the key are empty, or both have `KEY_LEN_` entries. -/
def SigKey.AbsentOrFull (k : SigKey) : Prop :=
  k = {} ∨ k.FullLength

/-- What follows the numeral of the signer: nothing, or the text of the key. -/
def KeyPart (k : SigKey) (part : Str) : Prop :=
  (k = {} ∧ part = []) ∨ sigKeyToString k = .ok part

theorem digestText_eq_parts
    {b : Block} {text : Str}
    (hkey : b.validatorNextPublicKey.AbsentOrFull)
    (h : b.digestText = .ok text) :
    ∃ part, KeyPart b.validatorNextPublicKey part ∧
      text = b.header.getID ++ (decimal b.validatorId.toNat ++ part) := by
  unfold Block.digestText at h
  rcases hkey with habsent | hfull
  · refine ⟨[], Or.inl ⟨habsent, rfl⟩, ?_⟩
    rw [if_neg (by simp [habsent])] at h
    rw [List.append_nil]
    exact (Except.ok.inj h).symm
  · rw [if_pos hfull.ne_nil] at h
    cases hkey : sigKeyToString b.validatorNextPublicKey with
    | error e =>
        rw [hkey] at h
        cases h
    | ok key =>
        rw [hkey] at h
        refine ⟨key, Or.inr hkey, ?_⟩
        rw [← List.append_assoc]
        exact (Except.ok.inj h).symm

/-- No two keys have the same text, since the text is read back. -/
theorem sigKeyToString_inj
    [LawfulPlatform P]
    (k k' : SigKey) (text : Str)
    (h : sigKeyToString k = .ok text)
    (h' : sigKeyToString k' = .ok text) :
    k = k' := by
  have hback := sigKeyFromString_toString h
  rw [sigKeyFromString_toString h'] at hback
  exact (Except.ok.inj hback).symm

variable [BracedObjects P]

/-- The text of a key begins with a brace. -/
theorem sigKeyToString_cons
    {k : SigKey} {text : Str}
    (h : sigKeyToString k = .ok text) :
    ∃ rest, text = 123 :: rest := by
  rw [sigKeyToString, if_pos (fullLength_of_sigKeyToString h)] at h
  exact BracedObjects.dump_obj h

/-- A numeral is not continued by what follows it. -/
theorem KeyPart.stops
    {k : SigKey} {part : Str}
    (h : KeyPart k part) :
    Stops part := by
  rcases h with ⟨_, rfl⟩ | htext
  · intro c hc
    cases hc
  · obtain ⟨rest, rfl⟩ := sigKeyToString_cons htext
    exact stops_cons rfl rest

theorem sigKeyToString_ne_nil
    {k : SigKey} :
    sigKeyToString k ≠ .ok [] := by
  intro h
  obtain ⟨rest, hrest⟩ := sigKeyToString_cons h
  cases hrest

theorem KeyPart.inj
    {k k' : SigKey} {part : Str}
    (hinj : ∀ (k k' : SigKey) (text : Str),
      sigKeyToString k = .ok text → sigKeyToString k' = .ok text → k = k')
    (h : KeyPart k part)
    (h' : KeyPart k' part) :
    k = k' := by
  rcases h with ⟨rfl, rfl⟩ | htext
  · rcases h' with ⟨rfl, _⟩ | htext'
    · rfl
    · exact absurd htext' sigKeyToString_ne_nil
  · rcases h' with ⟨rfl, rfl⟩ | htext'
    · exact absurd htext sigKeyToString_ne_nil
    · exact hinj k k' part htext htext'

/-- Once the width of the ID is known, the string determines its three parts. -/
theorem digestText_parts
    {b b' : Block} {text : Str}
    (hwidth : b.header.getID.length = b'.header.getID.length)
    (hkey : b.validatorNextPublicKey.AbsentOrFull)
    (hkey' : b'.validatorNextPublicKey.AbsentOrFull)
    (h : b.digestText = .ok text)
    (h' : b'.digestText = .ok text) :
    b.header.getID = b'.header.getID ∧ b.validatorId = b'.validatorId ∧
      ∃ part, KeyPart b.validatorNextPublicKey part ∧ KeyPart b'.validatorNextPublicKey part := by
  obtain ⟨part, hpart, htext⟩ := digestText_eq_parts hkey h
  obtain ⟨part', hpart', htext'⟩ := digestText_eq_parts hkey' h'
  rw [htext] at htext'
  obtain ⟨hid, htail⟩ := List.append_inj htext' hwidth
  -- the numeral ends where the key begins, or at the end
  have hread := parseValue_decimal b.validatorId.toNat 0 hpart.stops
  rw [htail, parseValue_decimal _ 0 hpart'.stops] at hread
  obtain ⟨hnum, rfl⟩ := Prod.mk.inj (Option.some.inj hread)
  exact ⟨hid, UInt16.toNat_inj.mp (Json.num.inj hnum).symm, part', hpart, hpart'⟩

end BlockDigests

/--
If hashes are 64 hexadecimal characters and no two keys have the same text, two
frozen blocks with the same string have the same header ID, signer and next key.
-/
theorem digestText_binds
    [P : Platform] [BracedObjects P]
    (hhex : ∀ s : Str, IsHexDigest (hash s))
    (hinj : ∀ (k k' : SigKey) (text : Str),
      sigKeyToString k = .ok text → sigKeyToString k' = .ok text → k = k')
    (b b' : Block)
    (hfrozen : b.isMutable = false)
    (hfrozen' : b'.isMutable = false)
    (hkey : b.validatorNextPublicKey.AbsentOrFull)
    (hkey' : b'.validatorNextPublicKey.AbsentOrFull)
    (text : Str)
    (h : b.digestText = .ok text)
    (h' : b'.digestText = .ok text) :
    b.getDigest = .ok (hash text) ∧ b'.getDigest = .ok (hash text) ∧
      b.header.getID = b'.header.getID ∧ b.validatorId = b'.validatorId ∧
      b.validatorNextPublicKey = b'.validatorNextPublicKey := by
  obtain ⟨hid, hsigner, part, hpart, hpart'⟩ :=
    digestText_parts ((hhex _).1.trans (hhex _).1.symm) hkey hkey' h h'
  refine ⟨?_, ?_, hid, hsigner, hpart.inj hinj hpart'⟩
  · rw [getDigest_eq_map_hash hfrozen, h]
    rfl
  · rw [getDigest_eq_map_hash hfrozen', h']
    rfl

section BlankKey

/-- The braces of the text come first. -/
instance textPlatform_bracedObjects : BracedObjects textPlatform where
  dump_obj := by
    intro members text h
    change JsonText.dump compact (.obj members) = .ok text at h
    unfold JsonText.dump at h
    split_ifs at h
    obtain rfl := Except.ok.inj h
    rw [print]
    cases printMembers compact 1 members with
    | nil => exact ⟨_, rfl⟩
    | cons item rest => exact ⟨_, rfl⟩

/-- A block of validator 5 that announces the key of empty strings. -/
def blankKeyBlock (id : UInt64) : Block :=
  { id := id, validatorId := 5, validatorNextPublicKey := blankKey, isMutable := false }

/-- Two blocks that differ in their number only. -/
theorem blankKeyBlock_bound :
    letI := textPlatform
    ∃ text, (blankKeyBlock 1).digestText = .ok text ∧ (blankKeyBlock 2).digestText = .ok text ∧
      (blankKeyBlock 1).header.getID = (blankKeyBlock 2).header.getID ∧
      (blankKeyBlock 1).validatorId = (blankKeyBlock 2).validatorId ∧
      (blankKeyBlock 1).validatorNextPublicKey = (blankKeyBlock 2).validatorNextPublicKey := by
  let _ := textPlatform
  have hfull : blankKey.FullLength := fullLength_of_sigKeyToString sigKeyToString_blankKey
  have htext : ∀ id, (blankKeyBlock id).digestText =
      .ok ((blankKeyBlock 1).header.getID ++ decimal 5 ++ blankText) := by
    intro id
    have hne : (blankKeyBlock id).validatorNextPublicKey.S0 ≠ [] ∧
        (blankKeyBlock id).validatorNextPublicKey.S1 ≠ [] := hfull.ne_nil
    have hkey : sigKeyToString (blankKeyBlock id).validatorNextPublicKey = .ok blankText :=
      sigKeyToString_blankKey
    rw [Block.digestText, if_pos hne, hkey]
    rfl
  obtain ⟨_, _, hid, hsigner, hkey⟩ := digestText_binds LawfulPlatform.hash_hex sigKeyToString_inj
    (blankKeyBlock 1) (blankKeyBlock 2) rfl rfl (Or.inr hfull) (Or.inr hfull) _ (htext 1) (htext 2)
  exact ⟨_, htext 1, htext 2, hid, hsigner, hkey⟩

end BlankKey

end CosiCoin
