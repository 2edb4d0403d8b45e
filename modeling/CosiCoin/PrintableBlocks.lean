import CosiCoin.BlockText
import CosiCoin.JsonText
import CosiCoin.Sha256Digest

/-!
# COSICOIN: the blocks that can be written

`to_string` throws when a string inside a block is not UTF-8 or when a key has not
`KEY_LEN_` entries in each half.  `UnicodeJson` is what the documentation of the
JSON library says about this: `dump` writes the documents whose strings are UTF-8,
as UTF-8, and throws for the others, and `parse` reads no other documents.  For
such a library the blocks that are `Printable` have a text.  Each level of
`to_string` puts the texts of the level below into string literals, so at each
level the text is shown to be UTF-8 again.

`textPlatform` is such a platform: SHA-256 with the writer and reader of
`JsonText`.
-/

namespace CosiCoin

open JsonText

/-- Documents with strings in UTF-8 are written and read, and no others. -/
class UnicodeJson (P : Platform) : Prop where
  dump_unicode : ∀ {j : Json}, isUnicode j = true → ∃ text, dump j = .ok text ∧ isUtf8 text = true
  dump_strict : ∀ {j : Json} {text : Str}, dump j = .ok text → isUnicode j = true
  parse_unicode : ∀ {text : Str} {j : Json}, parse text = .ok j → isUnicode j = true

section UnicodeDocuments

theorem isUtf8_of_isHexDigest
    {s : Str}
    (h : IsHexDigest s) :
    isUtf8 s = true := by
  apply isUtf8_of_ascii
  intro c hc
  have hdigit := h.2 c hc
  simp only [isHexDigit, Bool.or_eq_true, Bool.and_eq_true, decide_eq_true_eq] at hdigit
  rcases hdigit with ⟨_, hhigh⟩ | ⟨_, hhigh⟩
  · exact UInt8.lt_of_le_of_lt hhigh (by decide)
  · exact UInt8.lt_of_le_of_lt hhigh (by decide)

theorem isUnicode_str
    {s : Str}
    (h : isUtf8 s = true) :
    isUnicode (.str s) = true := by
  rw [isUnicode]
  exact h

theorem isUnicode_arr
    {l : List Json}
    (h : ∀ j ∈ l, isUnicode j = true) :
    isUnicode (.arr l) = true := by
  rw [isUnicode]
  induction l with
  | nil =>
      rw [areUnicode]
  | cons j l ih =>
      obtain ⟨hj, hl⟩ := List.forall_mem_cons.mp h
      rw [areUnicode, hj, ih hl]
      rfl

theorem isUnicode_obj
    {l : List (Str × Json)}
    (h : ∀ m ∈ l, isUtf8 m.1 = true ∧ isUnicode m.2 = true) :
    isUnicode (.obj l) = true := by
  rw [isUnicode]
  induction l with
  | nil =>
      rw [areUnicodeMembers]
  | cons m l ih =>
      obtain ⟨⟨hname, hvalue⟩, hl⟩ := List.forall_mem_cons.mp h
      rw [areUnicodeMembers, isUnicodeMember, hname, hvalue, ih hl]
      rfl

theorem isUnicode_strings
    {texts : List Str}
    (h : ∀ text ∈ texts, isUtf8 text = true) :
    ∀ j ∈ texts.map Json.str, isUnicode j = true := by
  intro j hj
  obtain ⟨text, htext, rfl⟩ := List.mem_map.mp hj
  exact isUnicode_str (h text htext)

theorem isUnicode_num
    {n : Nat}
    (h : n < 2 ^ 64) :
    isUnicode (.num n) = true := by
  rw [isUnicode]
  exact decide_eq_true h

theorem isUnicode_keyDocument
    {S0 S1 : List Str}
    (h0 : ∀ s ∈ S0, isUtf8 s = true)
    (h1 : ∀ s ∈ S1, isUtf8 s = true) :
    isUnicode (keyDocument S0 S1) = true := by
  have hp0 := isUnicode_arr (isUnicode_strings h0)
  have hp1 := isUnicode_arr (isUnicode_strings h1)
  apply isUnicode_obj
  simp only [List.forall_mem_cons]
  exact ⟨⟨rfl, hp0⟩, ⟨rfl, hp1⟩, fun _ hm => absurd hm List.not_mem_nil⟩

end UnicodeDocuments

section Printing

/-- The text exists and is UTF-8. -/
def WritesUtf8 (result : Except String Str) : Prop :=
  ∃ text, result = .ok text ∧ isUtf8 text = true

/-- A key that `SigKey_to_string` accepts. -/
structure SigKey.Printable (k : SigKey) : Prop where
  full : k.FullLength
  half0 : ∀ s ∈ k.S0, isUtf8 s = true
  half1 : ∀ s ∈ k.S1, isUtf8 s = true

/-- A signature whose strings fit the bit set. -/
def FitsBitset (signature : List Str) : Prop :=
  ∀ s ∈ signature, s.length ≤ keyLen / 8

/-- A transaction that can be written. -/
structure Transaction.Printable (t : Transaction) : Prop where
  senderSig : FitsBitset t.senderSig
  publicKey : t.publicKey.S0 ≠ [] → t.publicKey.S1 ≠ [] → t.publicKey.Printable

/-- A collected signature that can be written. -/
structure BlockSignature.Printable (sig : BlockSignature) : Prop where
  signature : FitsBitset sig.signature
  publicKey : sig.publicKey.Printable

/-- A block that can be written. -/
structure Block.Printable (b : Block) : Prop where
  prevBlockDigest : isUtf8 b.header.prevBlockDigest = true
  merkleRoot : isUtf8 b.header.merkleRoot = true
  transactions : ∀ t ∈ b.txs, t.Printable
  validatorSig : FitsBitset b.validatorSig
  publicKey : b.validatorNextPublicKey.Printable
  validatorSigs : ∀ sig ∈ b.validatorSigs, sig.Printable

/-- If every element has a result with some property, the loop has one. -/
theorem exists_mapM
    {α β : Type} {f : α → Except String β} {good : β → Prop} {l : List α}
    (h : ∀ a ∈ l, ∃ b, f a = .ok b ∧ good b) :
    ∃ bs, l.mapM f = .ok bs ∧ ∀ b ∈ bs, good b := by
  induction l with
  | nil =>
      exact ⟨[], rfl, fun _ hb => absurd hb List.not_mem_nil⟩
  | cons a l ih =>
      obtain ⟨⟨b, hb, hgood⟩, hl⟩ := List.forall_mem_cons.mp h
      obtain ⟨bs, hbs, hall⟩ := ih hl
      refine ⟨b :: bs, ?_, List.forall_mem_cons.mpr ⟨hgood, hall⟩⟩
      rw [List.mapM_cons, hb, hbs]
      rfl

theorem isUnicode_listMember
    {name : Str} {elements : List Json}
    (hname : isUtf8 name = true)
    (h : ∀ j ∈ elements, isUnicode j = true) :
    ∀ m ∈ listMember name elements, isUtf8 m.1 = true ∧ isUnicode m.2 = true := by
  intro m hm
  unfold listMember at hm
  split_ifs at hm
  · cases hm
  · obtain rfl := List.mem_singleton.mp hm
    exact ⟨hname, isUnicode_arr h⟩

/-- A bit set is written with the characters 0 and 1. -/
theorem isUtf8_bitsetText
    (bits : Nat → Bool) :
    isUtf8 (bitsetText bits) = true := by
  apply isUtf8_of_ascii
  intro c hc
  obtain ⟨p, _, rfl⟩ := List.mem_map.mp hc
  cases bits (keyLen - 1 - p) <;> decide

variable [P : Platform]

/-- The public key of a drawn pair is printable. -/
theorem SigKey.printable_keyGen
    [LawfulPlatform P]
    (draw : Draw) :
    (keyGen draw).publicKey.Printable := by
  refine ⟨(keyGen_wellFormed draw).publicKey_fullLength, ?_, ?_⟩
  · intro s hs
    obtain ⟨i, _, rfl⟩ := List.mem_map.mp hs
    exact isUtf8_of_isHexDigest (LawfulPlatform.hash_hex _)
  · intro s hs
    obtain ⟨i, _, rfl⟩ := List.mem_map.mp hs
    exact isUtf8_of_isHexDigest (LawfulPlatform.hash_hex _)

variable [UnicodeJson P]

theorem signatureToJson_utf8
    {signature : List Str}
    (h : FitsBitset signature) :
    WritesUtf8 (signatureToJson signature) := by
  have hfits : (signature.all fun s => s.length ≤ keyLen / 8) = true := by
    rw [List.all_eq_true]
    intro s hs
    exact decide_eq_true (h s hs)
  rw [signatureToJson, if_pos hfits]
  apply UnicodeJson.dump_unicode
  split_ifs
  · rw [isUnicode]
  · apply isUnicode_arr
    intro j hj
    obtain ⟨s, _, rfl⟩ := List.mem_map.mp hj
    exact isUnicode_str (isUtf8_bitsetText _)

theorem sigKeyToString_utf8
    {k : SigKey}
    (h : k.Printable) :
    WritesUtf8 (sigKeyToString k) := by
  rw [sigKeyToString, if_pos h.full]
  exact UnicodeJson.dump_unicode (isUnicode_keyDocument h.half0 h.half1)

theorem Input.toText_utf8
    (i : Input) :
    WritesUtf8 i.toText := by
  apply UnicodeJson.dump_unicode
  apply isUnicode_obj
  intro m hm
  simp only [List.mem_cons, List.not_mem_nil, or_false] at hm
  rcases hm with rfl | rfl
  · exact ⟨rfl, isUnicode_num i.outputIndex.toNat_lt⟩
  · exact ⟨rfl, isUnicode_num (i.txID.toNat_lt.trans (by decide))⟩

theorem Output.toText_utf8
    (o : Output) :
    WritesUtf8 o.toText := by
  apply UnicodeJson.dump_unicode
  apply isUnicode_obj
  intro m hm
  simp only [List.mem_cons, List.not_mem_nil, or_false] at hm
  rcases hm with rfl | rfl
  · exact ⟨rfl, isUnicode_num (o.receiverID.toNat_lt.trans (by decide))⟩
  · exact ⟨rfl, isUnicode_num o.value.toNat_lt⟩

theorem Header.toText_utf8
    {h : Header}
    (hprev : isUtf8 h.prevBlockDigest = true)
    (hroot : isUtf8 h.merkleRoot = true) :
    WritesUtf8 h.toText := by
  apply UnicodeJson.dump_unicode
  apply isUnicode_obj
  intro m hm
  simp only [List.mem_cons, List.not_mem_nil, or_false] at hm
  rcases hm with rfl | rfl
  · exact ⟨rfl, isUnicode_str hroot⟩
  · exact ⟨rfl, isUnicode_str hprev⟩

theorem keyText_utf8
    {k : SigKey}
    (h : k.S0 ≠ [] → k.S1 ≠ [] → k.Printable) :
    ∃ publicKey, keyText k = .ok publicKey ∧ ∀ text ∈ publicKey, isUtf8 text = true := by
  unfold keyText
  split_ifs with hboth
  · obtain ⟨text, htext, hutf8⟩ := sigKeyToString_utf8 (h hboth.1 hboth.2)
    refine ⟨some text, by rw [htext]; rfl, ?_⟩
    intro text' htext'
    rw [← Option.some.inj htext']
    exact hutf8
  · exact ⟨none, rfl, fun _ htext => absurd htext (Option.not_mem_none _)⟩

theorem Transaction.toText_utf8
    {t : Transaction}
    (h : t.Printable) :
    WritesUtf8 t.toText := by
  obtain ⟨inputs, hinputs, hutf8Inputs⟩ := exists_mapM fun i (_ : i ∈ t.inputs) => i.toText_utf8
  obtain ⟨outputs, houtputs, hutf8Outputs⟩ :=
    exists_mapM fun o (_ : o ∈ t.outputs) => o.toText_utf8
  obtain ⟨senderSig, hsig, hutf8Sig⟩ := signatureToJson_utf8 h.senderSig
  obtain ⟨publicKey, hkey, hutf8Key⟩ := keyText_utf8 h.publicKey
  have htext : t.toText =
      dump (transactionDocument inputs outputs publicKey t.senderID senderSig t.txID) := by
    rw [Transaction.toText, hinputs, houtputs, hsig, hkey]
    rfl
  rw [htext]
  apply UnicodeJson.dump_unicode
  apply isUnicode_obj
  intro m hm
  simp only [List.mem_append, List.mem_map, List.mem_cons, List.not_mem_nil, or_false] at hm
  rcases hm with ((hm | hm) | ⟨text, htext, rfl⟩) | rfl | rfl | rfl
  · exact isUnicode_listMember rfl (isUnicode_strings hutf8Inputs) m hm
  · exact isUnicode_listMember rfl (isUnicode_strings hutf8Outputs) m hm
  · exact ⟨rfl, isUnicode_str (hutf8Key text (Option.mem_toList.mp htext))⟩
  · exact ⟨rfl, isUnicode_num (t.senderID.toNat_lt.trans (by decide))⟩
  · exact ⟨rfl, isUnicode_str hutf8Sig⟩
  · exact ⟨rfl, isUnicode_num (t.txID.toNat_lt.trans (by decide))⟩

theorem BlockSignature.toJson_utf8
    {sig : BlockSignature}
    (h : sig.Printable) :
    ∃ j, sig.toJson = .ok j ∧ isUnicode j = true := by
  obtain ⟨signature, hsig, hutf8Sig⟩ := signatureToJson_utf8 h.signature
  obtain ⟨publicKey, hkey, hutf8Key⟩ := sigKeyToString_utf8 h.publicKey
  refine ⟨_, by rw [BlockSignature.toJson, hsig, hkey]; rfl, ?_⟩
  apply isUnicode_obj
  intro m hm
  simp only [List.mem_cons, List.not_mem_nil, or_false] at hm
  rcases hm with rfl | rfl | rfl | rfl
  · exact ⟨rfl, isUnicode_str hutf8Key⟩
  · exact ⟨rfl, isUnicode_num (sig.round.toNat_lt.trans (by decide))⟩
  · exact ⟨rfl, isUnicode_str hutf8Sig⟩
  · exact ⟨rfl, isUnicode_num (sig.validatorId.toNat_lt.trans (by decide))⟩

/-- A printable block has a text. -/
theorem Block.toText_utf8
    {b : Block}
    (h : b.Printable) :
    WritesUtf8 b.toText := by
  obtain ⟨header, hheader, hutf8Header⟩ := Header.toText_utf8 h.prevBlockDigest h.merkleRoot
  obtain ⟨transactions, htxs, hutf8Txs⟩ :=
    exists_mapM fun t ht => Transaction.toText_utf8 (h.transactions t ht)
  obtain ⟨validatorSig, hsig, hutf8Sig⟩ := signatureToJson_utf8 h.validatorSig
  obtain ⟨publicKey, hkey, hutf8Key⟩ := sigKeyToString_utf8 h.publicKey
  obtain ⟨validatorSigs, hsigs, hutf8Sigs⟩ :=
    exists_mapM fun sig hmem => BlockSignature.toJson_utf8 (h.validatorSigs sig hmem)
  have htext : b.toText = dump (blockDocument b.id header publicKey transactions b.validatorId
      validatorSig validatorSigs) := by
    rw [Block.toText, hheader, htxs, hsig, hkey, hsigs]
    rfl
  rw [htext]
  apply UnicodeJson.dump_unicode
  apply isUnicode_obj
  intro m hm
  simp only [List.mem_append, List.mem_cons, List.not_mem_nil, or_false] at hm
  rcases hm with (((rfl | rfl | rfl) | hm) | rfl | rfl) | hm
  · exact ⟨rfl, isUnicode_num b.id.toNat_lt⟩
  · exact ⟨rfl, isUnicode_str hutf8Header⟩
  · exact ⟨rfl, isUnicode_str hutf8Key⟩
  · exact isUnicode_listMember rfl (isUnicode_strings hutf8Txs) m hm
  · exact ⟨rfl, isUnicode_num (b.validatorId.toNat_lt.trans (by decide))⟩
  · exact ⟨rfl, isUnicode_str hutf8Sig⟩
  · exact isUnicode_listMember rfl hutf8Sigs m hm

/-- The digest of a frozen printable block. -/
theorem Block.getDigest_utf8
    [LawfulPlatform P]
    {b : Block}
    (h : b.Printable)
    (hfrozen : b.isMutable = false) :
    WritesUtf8 b.getDigest := by
  obtain ⟨text, htext, _⟩ := sigKeyToString_utf8 h.publicKey
  obtain ⟨h0, h1⟩ := h.publicKey.full.ne_nil
  rw [Block.getDigest, if_neg (by rw [hfrozen]; decide), if_pos ⟨h0, h1⟩, htext]
  exact ⟨_, rfl, isUtf8_of_isHexDigest (LawfulPlatform.hash_hex _)⟩

end Printing

section TextPlatform

/-- SHA-256 with the JSON text of documents in UTF-8. -/
@[reducible] def textPlatform : Platform where
  hash := Sha256.digest
  dump := JsonText.dump compact
  parse := JsonText.parse

instance textPlatform_lawful : LawfulPlatform textPlatform where
  hash_hex := Sha256.isHexDigest_digest
  parse_dump := by
    intro j text h
    exact (read_dump h).1
  parse_nil := by
    intro j h
    cases h
  dump_keyDocument := by
    intro S0 S1 hS0 hS1 _ _
    exact exists_dump compact (isUnicode_keyDocument (fun s hs => isUtf8_of_isHexDigest (hS0 s hs))
      fun s hs => isUtf8_of_isHexDigest (hS1 s hs))

instance textPlatform_unicodeJson : UnicodeJson textPlatform where
  dump_unicode := by
    intro j h
    exact ⟨print compact 0 j, if_pos h, isUtf8_print j 0 h⟩
  dump_strict := by
    intro j text h
    change JsonText.dump compact j = .ok text at h
    unfold JsonText.dump at h
    split_ifs at h with hunicode
    exact hunicode
  parse_unicode := isUnicode_of_parse

/-- A key of 512 empty strings. -/
def blankKey : SigKey :=
  ⟨List.replicate keyLen [], List.replicate keyLen []⟩

/-- The text of the key. -/
def blankText : Str :=
  print compact 0 (keyDocument blankKey.S0 blankKey.S1)

theorem sigKeyToString_blankKey :
    letI := textPlatform
    sigKeyToString blankKey = .ok blankText := by
  let _ := textPlatform
  have hblank : ∀ s ∈ List.replicate keyLen ([] : Str), isUtf8 s = true := by
    intro s hs
    rw [List.eq_of_mem_replicate hs]
    rfl
  have hunicode : isUnicode (keyDocument blankKey.S0 blankKey.S1) = true :=
    isUnicode_keyDocument hblank hblank
  have hfull : blankKey.FullLength := ⟨List.length_replicate, List.length_replicate⟩
  rw [sigKeyToString, if_pos hfull]
  change JsonText.dump compact _ = _
  rw [JsonText.dump, if_pos hunicode, blankText]

theorem blankKey_printable :
    blankKey.Printable := by
  have hblank : ∀ s ∈ List.replicate keyLen ([] : Str), isUtf8 s = true := by
    intro s hs
    rw [List.eq_of_mem_replicate hs]
    rfl
  exact ⟨⟨List.length_replicate, List.length_replicate⟩, hblank, hblank⟩

end TextPlatform

end CosiCoin
