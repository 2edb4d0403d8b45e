import CosiCoin.BlockDatabase
import CosiCoin.BlockRestoration

/-!
# COSICOIN: the round trip of blocks and messages over the wire

A block is written by `toProtoBlock` and read by one of two decoders, the
constructor `Block(chat::Block)` and `fromProtoBlock`.  Every block that is
`Transferable` comes back with its contents, and so does a message with it.

`toProtoBlock` throws for a block that is mutable or has a key that
`SigKey_to_string` refuses.  A key is refused when it has not `KEY_LEN_` entries in
each half, and also when an entry is not UTF-8: then the JSON library throws
(`toProtoBlock_throws_iff`).
-/

namespace CosiCoin

open JsonText

section Decoders

variable [Platform]

/-- The constructor `Block(const chat::Block&)`. -/
def Block.ofProtoBlock (p : ProtoBlock) : Except String Block := do
  let b : Block := { header := p.header, id := p.blockID }
  let txs ← p.transaction.mapM Transaction.fromProtoTransaction
  let key ← sigKeyFromString p.publickey
  return { b with
    txs := txs
    validatorSig := p.validatorSig
    validatorId := p.validatorID.toUInt16
    validatorNextPublicKey := key
    isMutable := false
    empty := false }

/-- The two decoders agree. -/
theorem Block.ofProtoBlock_eq_fromProtoBlock
    (p : ProtoBlock) :
    Block.ofProtoBlock p = Block.fromProtoBlock p :=
  rfl

end Decoders

section Keys

theorem isUtf8_of_mem_strings
    {l : List Str}
    (h : areUnicode (l.map .str) = true) :
    ∀ s ∈ l, isUtf8 s = true := by
  intro s hs
  have hstr := isUnicode_of_mem h (.str s) (List.mem_map_of_mem hs)
  rwa [isUnicode] at hstr

/-- The entries of a key whose document can be written. -/
theorem isUtf8_of_keyDocument
    {S0 S1 : List Str}
    (h : isUnicode (keyDocument S0 S1) = true) :
    (∀ s ∈ S0, isUtf8 s = true) ∧ ∀ s ∈ S1, isUtf8 s = true := by
  rw [keyDocument, isUnicode] at h
  have hmembers := isUnicodeMember_of_mem h
  have h0 := hmembers (nameS0, .arr (S0.map .str)) List.mem_cons_self
  have h1 := hmembers (nameS1, .arr (S1.map .str)) (List.mem_cons_of_mem _ List.mem_cons_self)
  rw [isUnicodeMember, Bool.and_eq_true, isUnicode] at h0 h1
  exact ⟨isUtf8_of_mem_strings h0.2, isUtf8_of_mem_strings h1.2⟩

/-- The strings that are read stand in the array. -/
theorem mem_of_firstStrings :
    ∀ {k : Nat} {e : List Json} {l : List Str}, firstStrings k e = .ok l →
      ∀ s ∈ l, .str s ∈ e := by
  intro k
  induction k with
  | zero =>
      intro e l h s hs
      obtain rfl := Except.ok.inj h
      cases hs
  | succ k ih =>
      intro e l h s hs
      unfold firstStrings at h
      split at h
      · cases ‹_ + 1 = 0›
      · rename_i t rest heq
        obtain rfl := Nat.succ.inj heq
        cases hrest : firstStrings k rest with
        | error e =>
            rw [hrest] at h
            cases h
        | ok l' =>
            rw [hrest] at h
            obtain rfl := Except.ok.inj h
            rcases List.mem_cons.mp hs with rfl | hs
            · exact List.mem_cons_self
            · exact List.mem_cons_of_mem _ (ih hrest s hs)
      · cases h

theorem isUnicode_of_at
    {j j' : Json} {name : Str}
    (h : isUnicode j = true)
    (hat : j.at name = .ok j') :
    isUnicode j' = true := by
  unfold Json.at at hat
  split at hat
  · rename_i members
    split at hat
    · rename_i m hfind
      obtain rfl := Except.ok.inj hat
      rw [isUnicode] at h
      have hmember := isUnicodeMember_of_mem h m (List.mem_of_find?_eq_some hfind)
      rw [isUnicodeMember, Bool.and_eq_true] at hmember
      exact hmember.2
    · cases hat
  · cases hat

theorem isUnicode_of_elements
    {j : Json} {elements : List Json}
    (h : isUnicode j = true)
    (helements : j.elements = .ok elements) :
    ∀ e ∈ elements, isUnicode e = true := by
  unfold Json.elements at helements
  split at helements
  · obtain rfl := Except.ok.inj helements
    rw [isUnicode] at h
    exact isUnicode_of_mem h
  · obtain rfl := Except.ok.inj helements
    intro e he
    cases he
  · cases helements

/-- A key with two halves that `SigKey_to_string` does not write. -/
def SigKey.Refused (k : SigKey) : Prop :=
  ¬ k.FullLength ∨ (∃ s ∈ k.S0, isUtf8 s = false) ∨ ∃ s ∈ k.S1, isUtf8 s = false

theorem SigKey.refused_iff
    (k : SigKey) :
    k.Refused ↔ ¬ k.Printable := by
  have hhalf : ∀ l : List Str, (∃ s ∈ l, isUtf8 s = false) ↔ ¬ ∀ s ∈ l, isUtf8 s = true := by
    intro l
    simp only [not_forall, exists_prop, Bool.not_eq_true]
  rw [SigKey.Refused, hhalf, hhalf]
  constructor
  · rintro (hfull | h0 | h1) hprintable
    · exact hfull hprintable.full
    · exact h0 hprintable.half0
    · exact h1 hprintable.half1
  · intro hnot
    by_contra hall
    simp only [not_or, not_not] at hall
    exact hnot ⟨hall.1, hall.2.1, hall.2.2⟩

variable [P : Platform] [UnicodeJson P]

/-- A key that was read can be written. -/
theorem printable_of_sigKeyFromString
    {k : SigKey} {text : Str}
    (h : sigKeyFromString text = .ok k) :
    k.Printable := by
  obtain ⟨j, s0, s1, e0, e1, hj, hs0, hs1, he0, he1, h0, h1⟩ := sigKeyFromString_eq_ok h
  have hj := UnicodeJson.parse_unicode hj
  have hstrings : ∀ {s : Json} {e : List Json} {l : List Str}, isUnicode s = true →
      s.elements = .ok e → firstStrings keyLen e = .ok l → ∀ t ∈ l, isUtf8 t = true := by
    intro s e l hs he hl t ht
    have hstr := isUnicode_of_elements hs he _ (mem_of_firstStrings hl t ht)
    rwa [isUnicode] at hstr
  exact ⟨fullLength_of_sigKeyFromString h, hstrings (isUnicode_of_at hj hs0) he0 h0,
    hstrings (isUnicode_of_at hj hs1) he1 h1⟩

/-- A message that was read from the wire has a digest. -/
theorem exists_getDigest_of_fromProtoMessage
    {p : ProtoMessage} {m : Message}
    (h : Message.fromProtoMessage p = .ok m) :
    ∃ digest, m.block.getDigest = .ok digest := by
  obtain ⟨b, hb, h⟩ := bind_eq_ok h
  obtain rfl := Except.ok.inj h
  obtain ⟨_, _, _, _, hfrozen, _, _, hkey⟩ := fromProtoBlock_eq_ok hb
  obtain ⟨text, htext, _⟩ := sigKeyToString_utf8 (printable_of_sigKeyFromString hkey)
  exact Block.exists_getDigest hfrozen htext

/-- The keys `SigKey_to_string` writes. -/
theorem exists_sigKeyToString_iff
    {k : SigKey} :
    (∃ text, sigKeyToString k = .ok text) ↔ k.Printable := by
  constructor
  · rintro ⟨text, htext⟩
    have hfull := fullLength_of_sigKeyToString htext
    rw [sigKeyToString, if_pos hfull] at htext
    obtain ⟨h0, h1⟩ := isUtf8_of_keyDocument (UnicodeJson.dump_strict htext)
    exact ⟨hfull, h0, h1⟩
  · intro h
    obtain ⟨text, htext, _⟩ := sigKeyToString_utf8 h
    exact ⟨text, htext⟩

/-- A transaction key is written or left out. -/
theorem exists_keyToProto_iff
    {k : SigKey} :
    (∃ text, keyToProto k = .ok text) ↔ (k.S0 ≠ [] ∧ k.S1 ≠ [] → k.Printable) := by
  unfold keyToProto
  split_ifs with hboth
  · rw [exists_sigKeyToString_iff]
    exact ⟨fun h _ => h, fun h => h hboth⟩
  · exact ⟨fun _ h => absurd h hboth, fun _ => ⟨[], rfl⟩⟩

end Keys

section Throwing

variable [P : Platform] [UnicodeJson P]

/-- `toProtoBlock` succeeds for frozen blocks whose keys can be written. -/
theorem exists_toProtoBlock_iff
    (b : Block) :
    (∃ p, b.toProtoBlock = .ok p) ↔
      b.isMutable = false ∧ b.validatorNextPublicKey.Printable ∧
      ∀ t ∈ b.txs, t.publicKey.S0 ≠ [] ∧ t.publicKey.S1 ≠ [] → t.publicKey.Printable := by
  constructor
  · rintro ⟨p, hp⟩
    obtain ⟨hfrozen, _, _, _, _, htxs, hkey⟩ := toProtoBlock_eq_ok hp
    refine ⟨hfrozen, exists_sigKeyToString_iff.mp ⟨_, hkey⟩, ?_⟩
    intro t ht
    exact exists_keyToProto_iff.mp (encodable_iff.mp ⟨_, htxs⟩ t ht)
  · rintro ⟨hfrozen, hnext, htxs⟩
    obtain ⟨text, htext⟩ := exists_sigKeyToString_iff.mpr hnext
    obtain ⟨ps, hps⟩ := encodable_iff.mpr fun t ht => exists_keyToProto_iff.mpr (htxs t ht)
    simp [Block.toProtoBlock, hfrozen, hps, htext, bind, Except.bind, pure, Except.pure]

/-- When `toProtoBlock` throws. -/
theorem toProtoBlock_throws_iff
    (b : Block) :
    (∃ e, b.toProtoBlock = .error e) ↔
      b.isMutable = true ∨ b.validatorNextPublicKey.Refused ∨
      ∃ t ∈ b.txs, t.publicKey.S0 ≠ [] ∧ t.publicKey.S1 ≠ [] ∧ t.publicKey.Refused := by
  have hthrows : (∃ e, b.toProtoBlock = .error e) ↔ ¬ ∃ p, b.toProtoBlock = .ok p := by
    cases b.toProtoBlock with
    | error e => simp
    | ok p => simp
  rw [hthrows, exists_toProtoBlock_iff, SigKey.refused_iff]
  simp only [SigKey.refused_iff]
  constructor
  · intro hnot
    by_contra hnone
    simp only [not_or, not_exists, not_and, not_not] at hnone
    obtain ⟨hfrozen, hnext, htxs⟩ := hnone
    exact hnot ⟨by simpa using hfrozen, hnext, fun t ht h => htxs t ht h.1 h.2⟩
  · rintro hsome ⟨hfrozen, hnext, htxs⟩
    rcases hsome with hmut | hkey | ⟨t, ht, h0, h1, hkey⟩
    · rw [hfrozen] at hmut
      cases hmut
    · exact hkey hnext
    · exact hkey (htxs t ht ⟨h0, h1⟩)

end Throwing

section RoundTrip

/-- A frozen block without collected signatures whose keys are whole or absent. -/
structure Block.Transferable (b : Block) : Prop where
  frozen : b.isMutable = false
  validatorSigs : b.validatorSigs = []
  nextKey : b.validatorNextPublicKey.Printable
  txKeys : ∀ t ∈ b.txs, (t.publicKey.S0 = [] ∧ t.publicKey.S1 = []) ∨ t.publicKey.Printable

/-- The contents of a block, up to the signatures collected from others. -/
structure Block.SameContents (b' b : Block) : Prop where
  header : b'.header = b.header
  id : b'.id = b.id
  txs : b'.txs = b.txs
  validatorSig : b'.validatorSig = b.validatorSig
  validatorId : b'.validatorId = b.validatorId
  nextKey : b'.validatorNextPublicKey = b.validatorNextPublicKey

theorem wireTransaction_of_whole
    {t : Transaction}
    (h : (t.publicKey.S0 = [] ∧ t.publicKey.S1 = []) ∨ t.publicKey.Printable) :
    wireTransaction t = t := by
  have hkey : (if t.publicKey.S0 ≠ [] ∧ t.publicKey.S1 ≠ [] then t.publicKey else {}) =
      t.publicKey := by
    split_ifs with hboth
    · rfl
    · rcases h with ⟨h0, h1⟩ | hprintable
      · cases hk : t.publicKey with
        | mk S0 S1 =>
            rw [hk] at h0 h1
            simp only at h0 h1
            rw [h0, h1]
      · exact absurd hprintable.full.ne_nil hboth
  unfold wireTransaction
  rw [hkey]

/-- The same contents have the same digest. -/
theorem Block.SameContents.getDigest_eq
    [Platform]
    {b b' : Block}
    (h : b'.SameContents b)
    (hfrozen : b.isMutable = false)
    (hfrozen' : b'.isMutable = false) :
    b'.getDigest = b.getDigest :=
  Block.getDigest_congr h.header h.validatorId h.nextKey (hfrozen'.trans hfrozen.symm)

variable [P : Platform] [LawfulPlatform P] [UnicodeJson P]

/-- What the wire carries of a transferable block. -/
theorem exists_fromProtoBlock
    {b : Block}
    (h : b.Transferable) :
    ∃ p b', b.toProtoBlock = .ok p ∧ Block.fromProtoBlock p = .ok b' ∧ b'.SameContents b ∧
      b'.isMutable = false := by
  obtain ⟨p, hp⟩ := (exists_toProtoBlock_iff b).mpr ⟨h.frozen, h.nextKey, fun t ht hboth =>
    (h.txKeys t ht).resolve_left fun hnil => hboth.1 hnil.1⟩
  obtain ⟨_, hheader, hsig, hid, hblockID, htxs, hkey⟩ := toProtoBlock_eq_ok hp
  obtain ⟨txs', htxs'⟩ := exists_fromProtoTransactions htxs
  have hsame : txs' = b.txs := by
    rw [mapM_fromProtoTransaction htxs htxs']
    exact map_eq_self_iff.mpr fun t ht => wireTransaction_of_whole (h.txKeys t ht)
  have hback := sigKeyFromString_toString hkey
  obtain ⟨b', hb'⟩ : ∃ b', Block.fromProtoBlock p = .ok b' := by
    simp [Block.fromProtoBlock, htxs', hback, bind, Except.bind, pure, Except.pure]
  obtain ⟨hheader', hsig', hid', hblockID', hfrozen', _, htxsBack, hkeyBack⟩ :=
    fromProtoBlock_eq_ok hb'
  refine ⟨p, b', hp, hb', ?_, hfrozen'⟩
  constructor
  case header => exact hheader'.trans hheader
  case id => exact hblockID'.trans hblockID
  case txs => exact (Except.ok.inj (htxsBack.symm.trans htxs')).trans hsame
  case validatorSig => exact hsig'.trans hsig
  case validatorId =>
    rw [hid', hid]
    exact UInt16.toUInt16_toUInt32 _
  case nextKey => exact Except.ok.inj (hkeyBack.symm.trans hback)

/--
Blocks with whole keys come back over the wire, through both decoders and inside
messages, and `toProtoBlock` throws for mutable blocks and refused keys.
-/
theorem wire_round_trip :
    (∀ b : Block, b.Transferable → ∃ p b', b.toProtoBlock = .ok p ∧
      Block.ofProtoBlock p = .ok b' ∧ Block.fromProtoBlock p = .ok b' ∧ b'.SameContents b ∧
      b'.header.getID = b.header.getID ∧ b'.getDigest = b.getDigest) ∧
    (∀ m : Message, m.block.Transferable → m.type ≠ .other → ∃ p m', m.toProtoMessage = .ok p ∧
      Message.fromProtoMessage p = .ok m' ∧ m'.block.SameContents m.block ∧
      m'.type = m.type ∧ m'.senderId = m.senderId ∧ m'.round = m.round) ∧
    (∀ b : Block, (∃ e, b.toProtoBlock = .error e) ↔
      b.isMutable = true ∨ b.validatorNextPublicKey.Refused ∨
      ∃ t ∈ b.txs, t.publicKey.S0 ≠ [] ∧ t.publicKey.S1 ≠ [] ∧ t.publicKey.Refused) := by
  refine ⟨?_, ?_, toProtoBlock_throws_iff⟩
  · intro b h
    obtain ⟨p, b', hp, hb', hsame, hfrozen'⟩ := exists_fromProtoBlock h
    refine ⟨p, b', hp, (Block.ofProtoBlock_eq_fromProtoBlock p).trans hb', hb', hsame, ?_, ?_⟩
    · rw [hsame.header]
    · exact hsame.getDigest_eq h.frozen hfrozen'
  · intro m h htype
    obtain ⟨p, b', hp, hb', hsame, _⟩ := exists_fromProtoBlock h
    refine ⟨⟨m.type.toProto, m.senderId.toInt64, m.round.toInt32, p⟩,
      ⟨m.type, b', m.senderId, m.round⟩, ?_, ?_, hsame, rfl, rfl, rfl⟩
    · simp [Message.toProtoMessage, hp, bind, Except.bind, pure, Except.pure]
    · simp [Message.fromProtoMessage, hb', fromProto_toProto htype, bind, Except.bind, pure,
        Except.pure]

end RoundTrip

section Instances

theorem coinBlock_transferable
    [P : Platform] [LawfulPlatform P] :
    coinBlock.Transferable where
  frozen := rfl
  validatorSigs := rfl
  nextKey := SigKey.printable_keyGen _
  txKeys := by
    intro t ht
    obtain rfl := List.mem_singleton.mp ht
    exact Or.inl ⟨rfl, rfl⟩

/-- A block with one transaction comes back. -/
theorem coinBlock_crosses_wire :
    letI := textPlatform
    ∃ p b', coinBlock.toProtoBlock = .ok p ∧ Block.ofProtoBlock p = .ok b' ∧
      Block.fromProtoBlock p = .ok b' ∧ b'.SameContents coinBlock := by
  let _ := textPlatform
  obtain ⟨p, b', hp, hof, hfrom, hsame, _⟩ := wire_round_trip.1 coinBlock coinBlock_transferable
  exact ⟨p, b', hp, hof, hfrom, hsame⟩

/-- A key of the right length with entries that are not UTF-8. -/
def brokenKey : SigKey where
  S0 := List.replicate keyLen [255]
  S1 := List.replicate keyLen [255]

theorem brokenKey_refused
    [P : Platform] [UnicodeJson P] :
    ∃ e, Block.toProtoBlock { validatorNextPublicKey := brokenKey, isMutable := false } =
      .error e := by
  refine (toProtoBlock_throws_iff _).mpr (Or.inr (Or.inl (Or.inr (Or.inl ⟨[255], ?_, rfl⟩))))
  exact List.mem_replicate.mpr ⟨by decide, rfl⟩

/-- An immutable block without transactions and with keys of the right length is refused. -/
theorem whole_key_refused :
    letI := textPlatform
    ∃ b : Block, (∃ e, b.toProtoBlock = .error e) ∧
      ¬ (b.isMutable = true ∨ ¬ b.validatorNextPublicKey.FullLength ∨
        ∃ t ∈ b.txs, t.publicKey.S0 ≠ [] ∧ t.publicKey.S1 ≠ [] ∧ ¬ t.publicKey.FullLength) := by
  let _ := textPlatform
  refine ⟨{ validatorNextPublicKey := brokenKey, isMutable := false }, brokenKey_refused, ?_⟩
  rintro (hmut | hshort | ⟨t, ht, _⟩)
  · cases hmut
  · exact hshort ⟨List.length_replicate, List.length_replicate⟩
  · cases ht

end Instances

end CosiCoin
