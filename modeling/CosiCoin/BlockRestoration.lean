import CosiCoin.BlockText

/-!
# COSICOIN: what the text of a block gives back

`restored` says what `from_string` makes of the text that `to_string` wrote: the
strings of signatures come back with `KEY_LEN_ / 8` bytes, a transaction key with
an empty half comes back as no key, the block comes back frozen and not empty,
and a missing list is an exception.  `Restorable` collects the conditions under
which nothing of this is seen.
-/

namespace CosiCoin

section Lists

variable {α : Type}

theorem map_eq_self_iff
    {f : α → α} {l : List α} :
    l.map f = l ↔ ∀ a ∈ l, f a = a := by
  rw [← List.forall₂_eq_eq_eq, List.forall₂_map_left_iff, List.forall₂_same]

theorem mapM_eq_ok_self_iff
    {f : α → Except String α} {l : List α} :
    l.mapM f = .ok l ↔ ∀ a ∈ l, f a = .ok a := by
  constructor
  · intro h
    exact List.forall₂_same.mp (mapM_eq_ok h)
  · intro h
    exact mapM_eq_ok_of_forall₂ (List.forall₂_same.mpr h)

/-- A loop over strings reads their contents. -/
theorem readTexts_map_str
    (fromText : Str → Except String α) (texts : List Str) :
    readTexts fromText (.arr (texts.map .str)) = texts.mapM fromText := by
  rw [readTexts, Json.items, List.mapM_map]
  rfl

/-- What every text gives back, the list of the texts gives back. -/
theorem mapM_fromText
    {toText : α → Except String Str} {fromText : Str → Except String α}
    {back : α → Except String α}
    (h : ∀ a text, toText a = .ok text → fromText text = back a)
    {l : List α} {texts : List Str}
    (htexts : l.mapM toText = .ok texts) :
    texts.mapM fromText = l.mapM back := by
  have hall := mapM_eq_ok htexts
  clear htexts
  induction hall with
  | nil =>
      rfl
  | cons hhead _ ih =>
      rw [List.mapM_cons, List.mapM_cons, h _ _ hhead, ih]

theorem mapM_fromText_of_ok
    {toText : α → Except String Str} {fromText : Str → Except String α}
    (h : ∀ a text, toText a = .ok text → fromText text = .ok a)
    {l : List α} {texts : List Str}
    (htexts : l.mapM toText = .ok texts) :
    texts.mapM fromText = .ok l := by
  rw [mapM_fromText h htexts]
  exact mapM_eq_ok_self_iff.mpr fun _ _ => rfl

theorem mapM_eq_nil_iff
    {β : Type} {f : α → Except String β} {l : List α} {results : List β}
    (h : l.mapM f = .ok results) :
    results = [] ↔ l = [] := by
  have hlength := (mapM_eq_ok h).length_eq
  rw [← List.length_eq_zero_iff, ← List.length_eq_zero_iff, hlength]

/-- Every turn of a loop that ends has ended. -/
theorem exists_of_mapM_eq_ok
    {β : Type} {f : α → Except String β} {l : List α} :
    ∀ {results : List β}, l.mapM f = .ok results → ∀ a ∈ l, ∃ b, f a = .ok b := by
  induction l with
  | nil =>
      intro results _ a ha
      cases ha
  | cons a l ih =>
      intro results h
      rw [List.mapM_cons] at h
      obtain ⟨b, hb, h⟩ := bind_eq_ok h
      obtain ⟨rest, hrest, _⟩ := bind_eq_ok h
      exact List.forall_mem_cons.mpr ⟨⟨b, hb⟩, ih hrest⟩

end Lists

section Signatures

variable [P : Platform] [LawfulPlatform P]

/-- A signature comes back with its strings padded. -/
theorem jsonToString_signatureToJson
    {signature : List Str} {text : Str}
    (h : signatureToJson signature = .ok text) :
    jsonToString text = .ok (signature.map pad) := by
  unfold signatureToJson at h
  split_ifs at h with hsize hnil
  · subst hnil
    simp [jsonToString, LawfulPlatform.parse_dump h, Json.items, bind, Except.bind, pure,
      Except.pure]
  · simp only [jsonToString, LawfulPlatform.parse_dump h, Json.items, bind, Except.bind]
    apply mapM_eq_ok_of_forall₂
    rw [List.forall₂_map_left_iff, List.forall₂_map_right_iff, List.forall₂_same]
    intro s _
    obtain ⟨bits, hbits, hsame⟩ := bitsetOfText_bitsetText (stringToBitset s)
    simp [signatureString, Json.getString, hbits, bind, Except.bind, pure, Except.pure,
      bitsetToString_congr hsame, bitsetToString_stringToBitset]

end Signatures

section Parts

variable [P : Platform] [LawfulPlatform P]

theorem Input.fromText_toText
    (i : Input) (text : Str)
    (h : i.toText = .ok text) :
    Input.fromText text = .ok i := by
  have hparse := LawfulPlatform.parse_dump h
  obtain ⟨htx, hidx⟩ :
      let j := Json.obj [(nameOutputIndex, .num i.outputIndex.toNat), (nameTxID, .num i.txID.toNat)]
      j.at nameTxID = .ok (.num i.txID.toNat) ∧
        j.at nameOutputIndex = .ok (.num i.outputIndex.toNat) := ⟨rfl, rfl⟩
  simp [Input.fromText, hparse, htx, hidx, bind, Except.bind, pure, Except.pure]

theorem Output.fromText_toText
    (o : Output) (text : Str)
    (h : o.toText = .ok text) :
    Output.fromText text = .ok o := by
  have hparse := LawfulPlatform.parse_dump h
  obtain ⟨hreceiver, hvalue⟩ :
      let j := Json.obj [(nameReceiverID, .num o.receiverID.toNat), (nameValue, .num o.value.toNat)]
      j.at nameReceiverID = .ok (.num o.receiverID.toNat) ∧
        j.at nameValue = .ok (.num o.value.toNat) := ⟨rfl, rfl⟩
  simp [Output.fromText, hparse, hreceiver, hvalue, bind, Except.bind, pure, Except.pure]

theorem Header.fromText_toText
    (h : Header) (text : Str)
    (htext : h.toText = .ok text) :
    Header.fromText text = .ok h := by
  have hparse := LawfulPlatform.parse_dump htext
  obtain ⟨hroot, hprev⟩ :
      let j := Json.obj [(nameMerkleRoot, .str h.merkleRoot),
        (namePrevBlockDigest, .str h.prevBlockDigest)]
      j.at nameMerkleRoot = .ok (.str h.merkleRoot) ∧
        j.at namePrevBlockDigest = .ok (.str h.prevBlockDigest) := ⟨rfl, rfl⟩
  simp [Header.fromText, hparse, hroot, hprev, Json.getString, bind, Except.bind, pure,
    Except.pure]

end Parts

section Transactions

variable (inputs outputs : List Str) (publicKey : Option Str) (senderID : UInt16)
variable (senderSig : Str) (txID : UInt32)

theorem transactionDocument_scalars :
    let j := transactionDocument inputs outputs publicKey senderID senderSig txID
    j.at nameTxID = .ok (.num txID.toNat) ∧ j.at nameSenderID = .ok (.num senderID.toNat) ∧
      j.at nameSenderSig = .ok (.str senderSig) := by
  cases inputs <;> cases outputs <;> cases publicKey <;> exact ⟨rfl, rfl, rfl⟩

/-- The lists are found only when they have an element. -/
theorem transactionDocument_lists :
    let j := transactionDocument inputs outputs publicKey senderID senderSig txID
    (j.at nameInputs =
      if inputs = [] then .error "key not found" else .ok (.arr (inputs.map .str))) ∧
    (j.at nameOutputs =
      if outputs = [] then .error "key not found" else .ok (.arr (outputs.map .str))) := by
  cases inputs <;> cases outputs <;> cases publicKey <;> exact ⟨rfl, rfl⟩

theorem transactionDocument_key :
    let j := transactionDocument inputs outputs publicKey senderID senderSig txID
    j.contains namePublicKey = publicKey.isSome ∧
      ∀ text, publicKey = some text → j.at namePublicKey = .ok (.str text) := by
  cases publicKey with
  | none =>
      cases inputs <;> cases outputs <;> exact ⟨rfl, fun _ h => nomatch h⟩
  | some text =>
      cases inputs <;> cases outputs <;> exact ⟨rfl, fun _ h => by rw [← Option.some.inj h]; rfl⟩

/-- What a transaction comes back as. -/
def Transaction.restored (t : Transaction) : Except String Transaction :=
  if t.inputs = [] ∨ t.outputs = [] then .error "key not found"
  else .ok { wireTransaction t with senderSig := t.senderSig.map pad }

/-- The transactions that come back unchanged. -/
structure Transaction.Restorable (t : Transaction) : Prop where
  inputs : t.inputs ≠ []
  outputs : t.outputs ≠ []
  senderSig : ∀ s ∈ t.senderSig, s.length = keyLen / 8
  publicKey : (t.publicKey.S0 ≠ [] ∧ t.publicKey.S1 ≠ []) ∨ t.publicKey = {}

theorem Transaction.restored_eq_ok_iff
    (t : Transaction) :
    t.restored = .ok t ↔ t.Restorable := by
  have hkey : (wireTransaction t).publicKey = t.publicKey ↔
      (t.publicKey.S0 ≠ [] ∧ t.publicKey.S1 ≠ []) ∨ t.publicKey = {} := by
    unfold wireTransaction
    dsimp only
    split_ifs with hboth
    · exact ⟨fun _ => Or.inl hboth, fun _ => rfl⟩
    · exact ⟨fun h => Or.inr h.symm, fun h => (h.resolve_left hboth).symm⟩
  have hsig : t.senderSig.map pad = t.senderSig ↔ ∀ s ∈ t.senderSig, s.length = keyLen / 8 := by
    rw [map_eq_self_iff]
    simp only [pad_eq_self_iff]
  unfold Transaction.restored
  split_ifs with hnil
  · constructor
    · intro h
      cases h
    · intro h
      exact absurd hnil (not_or.mpr ⟨h.inputs, h.outputs⟩)
  · obtain ⟨hins, houts⟩ := not_or.mp hnil
    constructor
    · intro h
      have hsig' := congrArg Transaction.senderSig (Except.ok.inj h)
      have hkey' := congrArg Transaction.publicKey (Except.ok.inj h)
      exact ⟨hins, houts, hsig.mp hsig', hkey.mp hkey'⟩
    · intro h
      have hkey' := hkey.mpr h.publicKey
      have hsig' := hsig.mpr h.senderSig
      unfold wireTransaction at hkey' ⊢
      dsimp only at hkey'
      rw [hkey', hsig']

variable [P : Platform] [LawfulPlatform P]

/-- The key of a transaction comes back as over the wire. -/
theorem readPublicKey_transactionDocument
    {k : SigKey}
    (h : keyText k = .ok publicKey) :
    readPublicKey (transactionDocument inputs outputs publicKey senderID senderSig txID) =
      .ok (if k.S0 ≠ [] ∧ k.S1 ≠ [] then k else {}) := by
  obtain ⟨hcontains, hat⟩ :=
    transactionDocument_key inputs outputs publicKey senderID senderSig txID
  unfold readPublicKey
  rw [hcontains]
  by_cases hboth : k.S0 ≠ [] ∧ k.S1 ≠ []
  · rw [keyText, if_pos hboth] at h
    cases htext : sigKeyToString k with
    | error e =>
        rw [htext] at h
        cases h
    | ok text =>
        rw [htext] at h
        obtain rfl := Except.ok.inj h
        rw [if_pos hboth]
        simp [hat text rfl, Json.getString, sigKeyFromString_toString htext, bind, Except.bind]
  · rw [keyText, if_neg hboth] at h
    obtain rfl := Except.ok.inj h
    rw [if_neg hboth]
    rfl

theorem Transaction.fromText_toText
    (t : Transaction) (text : Str)
    (h : t.toText = .ok text) :
    Transaction.fromText text = t.restored := by
  obtain ⟨inputs, hinputs, h⟩ := bind_eq_ok h
  obtain ⟨outputs, houtputs, h⟩ := bind_eq_ok h
  obtain ⟨senderSig, hsig, h⟩ := bind_eq_ok h
  obtain ⟨publicKey, hkey, h⟩ := bind_eq_ok h
  have hparse := LawfulPlatform.parse_dump h
  obtain ⟨htx, hsender, hsigText⟩ :=
    transactionDocument_scalars inputs outputs publicKey t.senderID senderSig t.txID
  obtain ⟨hins, houts⟩ :=
    transactionDocument_lists inputs outputs publicKey t.senderID senderSig t.txID
  have hkeyBack :=
    readPublicKey_transactionDocument inputs outputs publicKey t.senderID senderSig t.txID hkey
  have hinsBack := mapM_fromText_of_ok Input.fromText_toText hinputs
  have houtsBack := mapM_fromText_of_ok Output.fromText_toText houtputs
  have hsigBack := jsonToString_signatureToJson hsig
  unfold Transaction.fromText Transaction.restored
  by_cases hin : t.inputs = []
  · rw [if_pos ((mapM_eq_nil_iff hinputs).mpr hin)] at hins
    rw [if_pos (Or.inl hin)]
    simp [hparse, htx, hins, bind, Except.bind]
  rw [if_neg fun hnil => hin ((mapM_eq_nil_iff hinputs).mp hnil)] at hins
  by_cases hout : t.outputs = []
  · rw [if_pos ((mapM_eq_nil_iff houtputs).mpr hout)] at houts
    rw [if_pos (Or.inr hout)]
    simp [hparse, htx, hins, readTexts_map_str, hinsBack, houts, bind, Except.bind]
  · rw [if_neg fun hnil => hout ((mapM_eq_nil_iff houtputs).mp hnil)] at houts
    rw [if_neg (not_or.mpr ⟨hin, hout⟩)]
    simp [hparse, htx, hins, readTexts_map_str, hinsBack, houts, houtsBack, hsender, hsigText,
      Json.getString, hsigBack, hkeyBack, wireTransaction, bind, Except.bind, pure, Except.pure]

end Transactions

section Blocks

/-- What a collected signature comes back as. -/
def BlockSignature.restored (sig : BlockSignature) : BlockSignature :=
  { sig with signature := sig.signature.map pad }

/-- What a block comes back as. -/
def Block.restored (b : Block) : Except String Block :=
  if b.txs = [] then .error "key not found"
  else do
    let txs ← b.txs.mapM Transaction.restored
    return { b with
      txs := txs
      validatorSigs := b.validatorSigs.map BlockSignature.restored
      validatorSig := b.validatorSig.map pad
      empty := false
      isMutable := false }

/-- The blocks that come back unchanged. -/
structure Block.Restorable (b : Block) : Prop where
  transactions : b.txs ≠ []
  restorable : ∀ t ∈ b.txs, t.Restorable
  validatorSig : ∀ s ∈ b.validatorSig, s.length = keyLen / 8
  validatorSigs : ∀ sig ∈ b.validatorSigs, ∀ s ∈ sig.signature, s.length = keyLen / 8
  notEmpty : b.empty = false
  frozen : b.isMutable = false

theorem BlockSignature.restored_eq_self_iff
    (sig : BlockSignature) :
    sig.restored = sig ↔ ∀ s ∈ sig.signature, s.length = keyLen / 8 := by
  simp only [← pad_eq_self_iff]
  rw [← map_eq_self_iff]
  constructor
  · intro h
    exact congrArg BlockSignature.signature h
  · intro h
    rw [BlockSignature.restored, h]

theorem Block.restored_eq_ok_iff
    (b : Block) :
    b.restored = .ok b ↔ b.Restorable := by
  unfold Block.restored
  split_ifs with hnil
  · constructor
    · intro h
      cases h
    · intro h
      exact absurd hnil h.transactions
  · constructor
    · intro h
      obtain ⟨txs, htxs, h⟩ := bind_eq_ok h
      have heq := Except.ok.inj h
      obtain rfl : txs = b.txs := congrArg Block.txs heq
      have hsig := congrArg Block.validatorSig heq
      have hsigs := congrArg Block.validatorSigs heq
      constructor
      · exact hnil
      · intro t ht
        exact (Transaction.restored_eq_ok_iff t).mp (mapM_eq_ok_self_iff.mp htxs t ht)
      · intro s hs
        exact (pad_eq_self_iff s).mp (map_eq_self_iff.mp hsig s hs)
      · intro sig hmem
        exact (BlockSignature.restored_eq_self_iff sig).mp (map_eq_self_iff.mp hsigs sig hmem)
      · exact (congrArg Block.empty heq).symm
      · exact (congrArg Block.isMutable heq).symm
    · intro h
      have htxs : b.txs.mapM Transaction.restored = .ok b.txs :=
        mapM_eq_ok_self_iff.mpr fun t ht => (Transaction.restored_eq_ok_iff t).mpr (h.restorable t ht)
      have hsig : b.validatorSig.map pad = b.validatorSig :=
        map_eq_self_iff.mpr fun s hs => (pad_eq_self_iff s).mpr (h.validatorSig s hs)
      have hsigs : b.validatorSigs.map BlockSignature.restored = b.validatorSigs :=
        map_eq_self_iff.mpr fun sig hmem =>
          (BlockSignature.restored_eq_self_iff sig).mpr (h.validatorSigs sig hmem)
      have hflags : ({ b with empty := false, isMutable := false } : Block) = b := by
        have hempty := h.notEmpty
        have hfrozen := h.frozen
        obtain ⟨_, _, _, _, _, _, _, empty, isMutable⟩ := b
        obtain rfl : empty = false := hempty
        obtain rfl : isMutable = false := hfrozen
        rfl
      rw [htxs, hsig, hsigs]
      exact congrArg Except.ok hflags

variable (id : UInt64) (header publicKey : Str) (transactions : List Str)
variable (validatorId : UInt16) (validatorSig : Str) (validatorSigs : List Json)

theorem blockDocument_scalars :
    let j := blockDocument id header publicKey transactions validatorId validatorSig validatorSigs
    j.at nameBlockID = .ok (.num id.toNat) ∧ j.at nameHeader = .ok (.str header) ∧
      j.at namePublicKey = .ok (.str publicKey) ∧
      j.at nameValidatorID = .ok (.num validatorId.toNat) ∧
      j.at nameValidatorSig = .ok (.str validatorSig) := by
  cases transactions <;> cases validatorSigs <;> exact ⟨rfl, rfl, rfl, rfl, rfl⟩

/-- The transactions are found only when there is one. -/
theorem blockDocument_transactions :
    (blockDocument id header publicKey transactions validatorId validatorSig validatorSigs).at
        nameTransactions =
      if transactions = [] then .error "key not found"
      else .ok (.arr (transactions.map .str)) := by
  cases transactions <;> cases validatorSigs <;> rfl

theorem readValidatorSigs_blockDocument [Platform] :
    readValidatorSigs
        (blockDocument id header publicKey transactions validatorId validatorSig validatorSigs) =
      validatorSigs.mapM BlockSignature.fromJson := by
  cases transactions <;> cases validatorSigs <;> rfl

variable [P : Platform] [LawfulPlatform P]

theorem BlockSignature.fromJson_toJson
    {sig : BlockSignature} {j : Json}
    (h : sig.toJson = .ok j) :
    BlockSignature.fromJson j = .ok sig.restored := by
  obtain ⟨signature, hsig, h⟩ := bind_eq_ok h
  obtain ⟨key, hkey, h⟩ := bind_eq_ok h
  obtain rfl := Except.ok.inj h
  obtain ⟨hid, hsigText, hround, hkeyText⟩ :
      let j := Json.obj [(nameSigPublicKey, .str key), (nameRound, .num sig.round.toNat),
        (nameSignature, .str signature), (nameSigValidatorId, .num sig.validatorId.toNat)]
      j.at nameSigValidatorId = .ok (.num sig.validatorId.toNat) ∧
        j.at nameSignature = .ok (.str signature) ∧
        j.at nameRound = .ok (.num sig.round.toNat) ∧
        j.at nameSigPublicKey = .ok (.str key) := ⟨rfl, rfl, rfl, rfl⟩
  simp [BlockSignature.fromJson, hid, hsigText, hround, hkeyText, Json.getString,
    jsonToString_signatureToJson hsig, sigKeyFromString_toString hkey, BlockSignature.restored,
    bind, Except.bind, pure, Except.pure]

theorem mapM_fromJson_toJson
    {sigs : List BlockSignature} {elements : List Json}
    (h : sigs.mapM BlockSignature.toJson = .ok elements) :
    elements.mapM BlockSignature.fromJson = .ok (sigs.map BlockSignature.restored) := by
  apply mapM_eq_ok_of_forall₂
  rw [List.forall₂_map_right_iff]
  exact (mapM_eq_ok h).flip.imp fun _ _ hj => BlockSignature.fromJson_toJson hj

theorem Block.fromText_toText
    {b : Block} {text : Str}
    (h : b.toText = .ok text) :
    Block.fromText text = b.restored := by
  obtain ⟨header, hheader, h⟩ := bind_eq_ok h
  obtain ⟨transactions, htxs, h⟩ := bind_eq_ok h
  obtain ⟨sig, hsig, h⟩ := bind_eq_ok h
  obtain ⟨key, hkey, h⟩ := bind_eq_ok h
  obtain ⟨sigs, hsigs, h⟩ := bind_eq_ok h
  have hparse := LawfulPlatform.parse_dump h
  obtain ⟨hid, hheaderText, hkeyText, hvalidator, hsigText⟩ :=
    blockDocument_scalars b.id header key transactions b.validatorId sig sigs
  have hlist := blockDocument_transactions b.id header key transactions b.validatorId sig sigs
  have hsigsText := readValidatorSigs_blockDocument b.id header key transactions b.validatorId sig sigs
  have htxsBack := mapM_fromText Transaction.fromText_toText htxs
  unfold Block.fromText Block.restored
  by_cases hnil : b.txs = []
  · rw [if_pos ((mapM_eq_nil_iff htxs).mpr hnil)] at hlist
    rw [if_pos hnil]
    simp [hparse, hheaderText, Json.getString, Header.fromText_toText _ _ hheader, hid, hlist,
      bind, Except.bind]
  · rw [if_neg fun h' => hnil ((mapM_eq_nil_iff htxs).mp h')] at hlist
    rw [if_neg hnil]
    simp [hparse, hheaderText, Json.getString, Header.fromText_toText _ _ hheader, hid, hlist,
      readTexts_map_str, htxsBack, hsigText, jsonToString_signatureToJson hsig, hvalidator,
      hkeyText, sigKeyFromString_toString hkey, hsigsText, mapM_fromJson_toJson hsigs, bind,
      Except.bind, pure, Except.pure]

end Blocks

end CosiCoin
