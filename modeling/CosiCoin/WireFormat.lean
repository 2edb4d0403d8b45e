import CosiCoin.BlockModel

/-!
# COSICOIN: messages and their wire format

The class `Message` and the conversions of transactions, blocks and messages
to and from the protocol-buffer types of protos/chat.proto.  A conversion
throws when a key cannot be written as JSON text or read back from it.

`wire` is what a message goes through between the sender's queue and the
receiver's: `toProtoMessage` in the sending thread, the constructor of
`Message` in the server.  The header, the signer, the signature and the message
type arrive as they were sent.  With a lawful JSON library so do the next key
and the transactions, except that a transaction key with one empty half is
sent as no key at all (`wireTransaction`).
-/

namespace CosiCoin

/--
`MsgType`.  A message read from the wire with a type field outside 0, 1, 2
keeps an indeterminate value, which `other` stands for.
-/
inductive MsgType where
  | echo
  | send
  | ready
  | other
deriving DecidableEq

/-- `Message`. -/
structure Message where
  type : MsgType
  block : Block
  senderId : UInt64
  round : UInt32
deriving DecidableEq

/-- `chat.Transaction`. -/
structure ProtoTransaction where
  txID : UInt32
  input : List Input
  output : List Output
  senderID : UInt32
  sendersig : List Str
  publickey : Str

/-- `chat.Block`, with the fields of `chat.Header`. -/
structure ProtoBlock where
  header : Header
  blockID : UInt64
  transaction : List ProtoTransaction
  validatorSig : List Str
  validatorID : UInt32
  publickey : Str

/-- `chat.Message`. -/
structure ProtoMessage where
  type : Int32
  senderId : Int64
  round : Int32
  block : ProtoBlock

section Conversions

variable [Platform]

/-- The text of a transaction key: empty unless both halves have entries. -/
def keyToProto (k : SigKey) : Except String Str :=
  if k.S0 ≠ [] ∧ k.S1 ≠ [] then sigKeyToString k else .ok []

/-- The transaction key of a text: no key for the empty text. -/
def keyFromProto (text : Str) : Except String SigKey :=
  if text ≠ [] then sigKeyFromString text else .ok {}

/-- `Transaction::toProtoTransaction`. -/
def Transaction.toProtoTransaction (t : Transaction) : Except String ProtoTransaction := do
  let publickey ← keyToProto t.publicKey
  return {
    txID := t.txID
    input := t.inputs
    output := t.outputs
    senderID := t.senderID.toUInt32
    sendersig := t.senderSig
    publickey := publickey }

/-- `Transaction::fromProtoTransaction` on a default transaction. -/
def Transaction.fromProtoTransaction (p : ProtoTransaction) : Except String Transaction := do
  let publicKey ← keyFromProto p.publickey
  return {
    inputs := p.input
    outputs := p.output
    senderSig := p.sendersig
    senderID := p.senderID.toUInt16
    txID := p.txID
    publicKey := publicKey }

/-- `Block::toProtoBlock`. -/
def Block.toProtoBlock (b : Block) : Except String ProtoBlock :=
  if b.isMutable then
    .error "Cannot convert mutable block."
  else do
    let transaction ← b.txs.mapM Transaction.toProtoTransaction
    let publickey ← sigKeyToString b.validatorNextPublicKey
    return {
      header := b.header
      blockID := b.id
      transaction := transaction
      validatorSig := b.validatorSig
      validatorID := b.validatorId.toUInt32
      publickey := publickey }

/-- `Block::fromProtoBlock` on a default block. -/
def Block.fromProtoBlock (p : ProtoBlock) : Except String Block := do
  let txs ← p.transaction.mapM Transaction.fromProtoTransaction
  let key ← sigKeyFromString p.publickey
  return {
    header := p.header
    txs := txs
    validatorSig := p.validatorSig
    validatorId := p.validatorID.toUInt16
    validatorNextPublicKey := key
    id := p.blockID
    empty := false
    isMutable := false }

/-- The type field of the wire message. -/
def MsgType.toProto : MsgType → Int32
  | .echo => 0
  | .send => 1
  | .ready => 2
  | .other => 0

/-- The message type of a type field. -/
def MsgType.fromProto (k : Int32) : MsgType :=
  if k = 0 then .echo else if k = 1 then .send else if k = 2 then .ready else .other

/-- `Message::toProtoMessage`. -/
def Message.toProtoMessage (m : Message) : Except String ProtoMessage := do
  let block ← m.block.toProtoBlock
  return {
    type := m.type.toProto
    senderId := m.senderId.toInt64
    round := m.round.toInt32
    block := block }

/-- `Message(const chat::Message&)`. -/
def Message.fromProtoMessage (p : ProtoMessage) : Except String Message := do
  let block ← Block.fromProtoBlock p.block
  return {
    type := MsgType.fromProto p.type
    block := block
    senderId := p.senderId.toUInt64
    round := p.round.toUInt32 }

/-- A message as the receiver reads it. -/
def Message.wire (m : Message) : Except String Message := do
  let p ← m.toProtoMessage
  Message.fromProtoMessage p

end Conversions

/-- Unfold a successful sequence of two steps. -/
theorem bind_eq_ok
    {ε α β : Type}
    {x : Except ε α} {f : α → Except ε β} {b : β}
    (h : x >>= f = .ok b) :
    ∃ a, x = .ok a ∧ f a = .ok b := by
  cases x with
  | error e =>
      cases h
  | ok a =>
      exact ⟨a, rfl, h⟩

theorem mapM_eq_ok
    {ε α β : Type}
    {f : α → Except ε β} :
    ∀ {l : List α} {r : List β}, l.mapM f = .ok r →
      List.Forall₂ (fun a b => f a = .ok b) l r
  | [], r, h => by
      simp only [List.mapM_nil, pure, Except.pure, Except.ok.injEq] at h
      subst h
      exact .nil
  | a :: l, r, h => by
      rw [List.mapM_cons] at h
      obtain ⟨b, hb, h⟩ := bind_eq_ok h
      obtain ⟨t, ht, h⟩ := bind_eq_ok h
      simp only [pure, Except.pure, Except.ok.injEq] at h
      subst h
      exact .cons hb (mapM_eq_ok ht)

/-- A loop succeeds when every turn does. -/
theorem mapM_eq_ok_of_forall₂
    {ε α β : Type}
    {f : α → Except ε β}
    {l : List α} {r : List β}
    (h : List.Forall₂ (fun a b => f a = .ok b) l r) :
    l.mapM f = .ok r := by
  induction h with
  | nil =>
      rfl
  | cons ha _ ih =>
      rw [List.mapM_cons, ha, ih]
      rfl

/-- A transaction after the wire: a key with an empty half is dropped. -/
def wireTransaction (t : Transaction) : Transaction :=
  { t with
    publicKey :=
      if t.publicKey.S0 ≠ [] ∧ t.publicKey.S1 ≠ [] then t.publicKey else {} }

@[simp] theorem wireTransaction_idem
    (t : Transaction) :
    wireTransaction (wireTransaction t) = wireTransaction t := by
  unfold wireTransaction
  split_ifs <;> simp_all

@[simp] theorem wireTransaction_inputs
    (t : Transaction) :
    (wireTransaction t).inputs = t.inputs :=
  rfl

@[simp] theorem checkSpendingConditions_wireTransaction
    (t : Transaction) (utxolist : UTXOlist) (walletIds : List UInt32) :
    (wireTransaction t).checkSpendingConditions utxolist walletIds =
      t.checkSpendingConditions utxolist walletIds :=
  rfl

theorem fromProto_toProto
    {type : MsgType}
    (h : type ≠ .other) :
    MsgType.fromProto type.toProto = type := by
  cases type with
  | echo => rfl
  | send => rfl
  | ready => rfl
  | other => exact absurd rfl h

section WireFacts

variable [P : Platform]

/-- The two arrays a key is read from. -/
theorem sigKeyFromString_eq_ok
    {k : SigKey} {text : Str}
    (h : sigKeyFromString text = .ok k) :
    ∃ j s0 s1 e0 e1, parse text = .ok j ∧ j.at nameS0 = .ok s0 ∧ j.at nameS1 = .ok s1 ∧
      s0.elements = .ok e0 ∧ s1.elements = .ok e1 ∧
      firstStrings keyLen e0 = .ok k.S0 ∧ firstStrings keyLen e1 = .ok k.S1 := by
  obtain ⟨j, hj, h⟩ := bind_eq_ok h
  obtain ⟨s0, hs0, h⟩ := bind_eq_ok h
  dsimp only at h
  split_ifs at h with hsize
  · cases h
  · obtain ⟨s1, hs1, h⟩ := bind_eq_ok h
    obtain ⟨e0, he0, h⟩ := bind_eq_ok h
    obtain ⟨e1, he1, h⟩ := bind_eq_ok h
    obtain ⟨S0, h0, h⟩ := bind_eq_ok h
    obtain ⟨S1, h1, h⟩ := bind_eq_ok h
    obtain rfl := Except.ok.inj h
    exact ⟨j, s0, s1, e0, e1, hj, hs0, hs1, he0, he1, h0, h1⟩

/-- Only keys with `KEY_LEN_` entries in each half are read. -/
theorem fullLength_of_sigKeyFromString
    {k : SigKey} {text : Str}
    (h : sigKeyFromString text = .ok k) :
    k.FullLength := by
  obtain ⟨_, _, _, _, _, _, _, _, _, _, h0, h1⟩ := sigKeyFromString_eq_ok h
  exact ⟨length_of_firstStrings h0, length_of_firstStrings h1⟩

/-- The fields every block read from the wire has. -/
theorem fromProtoBlock_eq_ok
    {p : ProtoBlock} {b : Block}
    (h : Block.fromProtoBlock p = .ok b) :
    b.header = p.header ∧ b.validatorSig = p.validatorSig ∧
    b.validatorId = p.validatorID.toUInt16 ∧ b.id = p.blockID ∧
    b.isMutable = false ∧ b.validatorSigs = [] ∧
    p.transaction.mapM Transaction.fromProtoTransaction = .ok b.txs ∧
    sigKeyFromString p.publickey = .ok b.validatorNextPublicKey := by
  obtain ⟨txs, htxs, h⟩ := bind_eq_ok h
  obtain ⟨key, hkey, h⟩ := bind_eq_ok h
  obtain rfl := Except.ok.inj h
  exact ⟨rfl, rfl, rfl, rfl, rfl, rfl, htxs, hkey⟩

/-- The fields of a block that could be written. -/
theorem toProtoBlock_eq_ok
    {b : Block} {p : ProtoBlock}
    (h : b.toProtoBlock = .ok p) :
    b.isMutable = false ∧ p.header = b.header ∧ p.validatorSig = b.validatorSig ∧
    p.validatorID = b.validatorId.toUInt32 ∧ p.blockID = b.id ∧
    b.txs.mapM Transaction.toProtoTransaction = .ok p.transaction ∧
    sigKeyToString b.validatorNextPublicKey = .ok p.publickey := by
  unfold Block.toProtoBlock at h
  split_ifs at h with hm
  obtain ⟨txs, htxs, h⟩ := bind_eq_ok h
  obtain ⟨key, hkey, h⟩ := bind_eq_ok h
  obtain rfl := Except.ok.inj h
  exact ⟨by simpa using hm, rfl, rfl, rfl, rfl, htxs, hkey⟩

/-- What arrives unchanged, whatever the JSON library does. -/
theorem wire_eq_ok
    {m m' : Message}
    (h : m.wire = .ok m') :
    m'.type = MsgType.fromProto m.type.toProto ∧
    m'.block.header = m.block.header ∧
    m'.block.validatorId = m.block.validatorId ∧
    m'.block.validatorSig = m.block.validatorSig ∧
    m'.block.isMutable = false := by
  obtain ⟨p, hp, h⟩ := bind_eq_ok h
  obtain ⟨pb, hpb, hp⟩ := bind_eq_ok hp
  obtain rfl := Except.ok.inj hp
  obtain ⟨b, hb, h⟩ := bind_eq_ok h
  obtain rfl := Except.ok.inj h
  obtain ⟨_, hh, hs, hv, _, _, _⟩ := toProtoBlock_eq_ok hpb
  obtain ⟨hh', hs', hv', _, hm', _, _, _⟩ := fromProtoBlock_eq_ok hb
  refine ⟨rfl, hh'.trans hh, ?_, hs'.trans hs, hm'⟩
  show b.validatorId = m.block.validatorId
  rw [hv', hv]
  simp

/-- Some transactions can be written. -/
def Encodable (txs : List Transaction) : Prop :=
  ∃ ps, txs.mapM Transaction.toProtoTransaction = .ok ps

theorem encodable_iff
    {txs : List Transaction} :
    Encodable txs ↔ ∀ t ∈ txs, ∃ text, keyToProto t.publicKey = .ok text := by
  induction txs with
  | nil =>
      exact ⟨fun _ t ht => absurd ht List.not_mem_nil, fun _ => ⟨[], rfl⟩⟩
  | cons t txs ih =>
      constructor
      · rintro ⟨ps, hps⟩
        rw [List.mapM_cons] at hps
        obtain ⟨p, hp, hps⟩ := bind_eq_ok hps
        obtain ⟨rest, hrest, _⟩ := bind_eq_ok hps
        obtain ⟨text, htext, _⟩ := bind_eq_ok hp
        exact List.forall_mem_cons.mpr ⟨⟨text, htext⟩, ih.mp ⟨rest, hrest⟩⟩
      · intro h
        obtain ⟨⟨text, htext⟩, hrest⟩ := List.forall_mem_cons.mp h
        obtain ⟨rest, hrest⟩ := ih.mpr hrest
        obtain ⟨p, hp⟩ : ∃ p, t.toProtoTransaction = .ok p := by
          rw [Transaction.toProtoTransaction, htext]
          exact ⟨_, rfl⟩
        refine ⟨p :: rest, ?_⟩
        rw [List.mapM_cons, hp, hrest]
        rfl

/-- What was read from the wire can be written again. -/
theorem encodable_map_wireTransaction
    {txs : List Transaction}
    (h : Encodable txs) :
    Encodable (txs.map wireTransaction) := by
  rw [encodable_iff] at h ⊢
  intro t' ht'
  obtain ⟨t, ht, rfl⟩ := List.mem_map.mp ht'
  by_cases hkey : t.publicKey.S0 ≠ [] ∧ t.publicKey.S1 ≠ []
  · have hsame : (wireTransaction t).publicKey = t.publicKey := if_pos hkey
    rw [hsame]
    exact h t ht
  · have hnone : (wireTransaction t).publicKey = {} := if_neg hkey
    rw [hnone]
    exact ⟨[], rfl⟩

variable [LawfulPlatform P]

/-- A transaction key through the wire. -/
theorem keyFromProto_toProto
    {k k' : SigKey} {text : Str}
    (htext : keyToProto k = .ok text)
    (hkey : keyFromProto text = .ok k') :
    k' = if k.S0 ≠ [] ∧ k.S1 ≠ [] then k else {} := by
  unfold keyToProto at htext
  unfold keyFromProto at hkey
  split_ifs at htext ⊢ with hc
  · have hback := sigKeyFromString_toString htext
    have hne : text ≠ [] := by
      rintro rfl
      obtain ⟨j, hj, _⟩ := bind_eq_ok hback
      exact LawfulPlatform.parse_nil j hj
    rw [if_pos hne] at hkey
    exact Except.ok.inj (hkey.symm.trans hback)
  · obtain rfl := Except.ok.inj htext
    simpa using (Except.ok.inj hkey).symm

/-- One transaction through the wire. -/
theorem fromProtoTransaction_toProto
    {t t' : Transaction} {p : ProtoTransaction}
    (hp : t.toProtoTransaction = .ok p)
    (ht : Transaction.fromProtoTransaction p = .ok t') :
    t' = wireTransaction t := by
  obtain ⟨text, htext, hp⟩ := bind_eq_ok hp
  obtain rfl := Except.ok.inj hp
  obtain ⟨key, hkey, ht⟩ := bind_eq_ok ht
  obtain rfl := Except.ok.inj ht
  have hkey' := keyFromProto_toProto htext hkey
  subst hkey'
  simp [wireTransaction]

/-- A list of transactions through the wire. -/
theorem mapM_fromProtoTransaction
    {txs txs' : List Transaction} {ps : List ProtoTransaction}
    (hp : txs.mapM Transaction.toProtoTransaction = .ok ps)
    (ht : ps.mapM Transaction.fromProtoTransaction = .ok txs') :
    txs' = txs.map wireTransaction := by
  have h₁ := mapM_eq_ok hp
  have h₂ := mapM_eq_ok ht
  clear hp ht
  induction h₁ generalizing txs' with
  | nil =>
      cases h₂
      rfl
  | cons hhead _ ih =>
      cases h₂ with
      | cons hhead' htail' =>
          rw [List.map_cons, ← fromProtoTransaction_toProto hhead hhead', ← ih htail']

/-- The block a receiver reads, field by field. -/
theorem wire_block
    {m m' : Message}
    (h : m.wire = .ok m') :
    m'.block.txs = m.block.txs.map wireTransaction ∧
    m'.block.validatorNextPublicKey = m.block.validatorNextPublicKey ∧
    m'.block.id = m.block.id := by
  obtain ⟨p, hp, h⟩ := bind_eq_ok h
  obtain ⟨pb, hpb, hp⟩ := bind_eq_ok hp
  obtain rfl := Except.ok.inj hp
  obtain ⟨b, hb, h⟩ := bind_eq_ok h
  obtain rfl := Except.ok.inj h
  obtain ⟨_, _, _, _, hid, htx, hkey⟩ := toProtoBlock_eq_ok hpb
  obtain ⟨_, _, _, hid', _, _, htx', hkey'⟩ := fromProtoBlock_eq_ok hb
  refine ⟨mapM_fromProtoTransaction htx htx', ?_, hid'.trans hid⟩
  exact Except.ok.inj (hkey'.symm.trans (sigKeyFromString_toString hkey))

/-- A receiver computes the digest of the sender and reads its signature. -/
theorem wire_getDigest
    {m m' : Message}
    (h : m.wire = .ok m')
    (hmut : m.block.isMutable = false) :
    m'.block.getDigest = m.block.getDigest ∧
      ∀ key, m.block.ValidUnder key → m'.block.ValidUnder key := by
  obtain ⟨_, hheader, hsigner, hsig, hmut'⟩ := wire_eq_ok h
  obtain ⟨_, hnext, _⟩ := wire_block h
  have hdigest : m'.block.getDigest = m.block.getDigest :=
    Block.getDigest_congr hheader hsigner hnext (hmut'.trans hmut.symm)
  refine ⟨hdigest, ?_⟩
  intro key hvalid
  rw [Block.ValidUnder, Block.verifySignature, hdigest, hsig]
  exact hvalid

/-- A transaction key that was written can be read. -/
theorem exists_keyFromProto
    {k : SigKey} {text : Str}
    (h : keyToProto k = .ok text) :
    ∃ key, keyFromProto text = .ok key := by
  unfold keyFromProto
  split_ifs with hne
  · unfold keyToProto at h
    split_ifs at h with hboth
    · exact ⟨_, sigKeyFromString_toString h⟩
    · exact absurd (Except.ok.inj h).symm hne
  · exact ⟨_, rfl⟩

/-- What was written can be read. -/
theorem exists_fromProtoTransactions
    {txs : List Transaction} :
    ∀ {ps : List ProtoTransaction}, txs.mapM Transaction.toProtoTransaction = .ok ps →
      ∃ txs', ps.mapM Transaction.fromProtoTransaction = .ok txs' := by
  induction txs with
  | nil =>
      intro ps hps
      obtain rfl := Except.ok.inj hps
      exact ⟨[], rfl⟩
  | cons t txs ih =>
      intro ps hps
      rw [List.mapM_cons] at hps
      obtain ⟨p, hp, hps⟩ := bind_eq_ok hps
      obtain ⟨rest, hrest, hps⟩ := bind_eq_ok hps
      obtain rfl := Except.ok.inj hps
      obtain ⟨txs', htxs'⟩ := ih hrest
      obtain ⟨text, htext, hp⟩ := bind_eq_ok hp
      obtain rfl := Except.ok.inj hp
      obtain ⟨key, hkey⟩ := exists_keyFromProto htext
      rw [List.mapM_cons, Transaction.fromProtoTransaction, hkey, htxs']
      exact ⟨_, rfl⟩

/-- An immutable block with a proper next key arrives if its transactions can be written. -/
theorem exists_wire
    {m : Message} {text : Str}
    (hmut : m.block.isMutable = false)
    (htxs : Encodable m.block.txs)
    (hkey : sigKeyToString m.block.validatorNextPublicKey = .ok text) :
    ∃ m', m.wire = .ok m' := by
  obtain ⟨ps, hps⟩ := htxs
  obtain ⟨txs', htxs'⟩ := exists_fromProtoTransactions hps
  have hback := sigKeyFromString_toString hkey
  simp [Message.wire, Message.toProtoMessage, Block.toProtoBlock, hmut, hps, hkey,
    Message.fromProtoMessage, Block.fromProtoBlock, htxs', hback, bind, Except.bind, pure,
    Except.pure]

end WireFacts

end CosiCoin
