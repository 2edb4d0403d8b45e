import CosiCoin.WireRoundTrip

/-!
# COSICOIN: the domain of the JSON codec of blocks

`to_string` creates a list in the document when the first element is pushed, and
`from_string` asks for the lists of transactions, inputs and outputs without
looking whether they are there.  So a block comes back from its text if and only
if none of these lists is empty; otherwise `from_string` throws
(`codec_restores_iff`).
-/

namespace CosiCoin

open JsonText

/-- A block with whole or absent keys, full signatures and strings in UTF-8. -/
structure Block.Codable (b : Block) : Prop where
  prevBlockDigest : isUtf8 b.header.prevBlockDigest = true
  merkleRoot : isUtf8 b.header.merkleRoot = true
  nextKey : b.validatorNextPublicKey.Printable
  validatorSig : ∀ s ∈ b.validatorSig, s.length = keyLen / 8
  txKeys : ∀ t ∈ b.txs, (t.publicKey.S0 = [] ∧ t.publicKey.S1 = []) ∨ t.publicKey.Printable
  senderSigs : ∀ t ∈ b.txs, ∀ s ∈ t.senderSig, s.length = keyLen / 8
  sigKeys : ∀ sig ∈ b.validatorSigs, sig.publicKey.Printable
  validatorSigs : ∀ sig ∈ b.validatorSigs, ∀ s ∈ sig.signature, s.length = keyLen / 8

/-- The block has a transaction, and each transaction an input and an output. -/
def Block.HasTransfers (b : Block) : Prop :=
  b.txs ≠ [] ∧ ∀ t ∈ b.txs, t.inputs ≠ [] ∧ t.outputs ≠ []

section Restoring

theorem Block.Codable.printable
    {b : Block}
    (h : b.Codable) :
    b.Printable where
  prevBlockDigest := h.prevBlockDigest
  merkleRoot := h.merkleRoot
  transactions := by
    intro t ht
    refine ⟨fun s hs => le_of_eq (h.senderSigs t ht s hs), ?_⟩
    intro h0 _
    exact (h.txKeys t ht).resolve_left fun hnil => h0 hnil.1
  validatorSig s hs := le_of_eq (h.validatorSig s hs)
  publicKey := h.nextKey
  validatorSigs := by
    intro sig hsig
    exact ⟨fun s hs => le_of_eq (h.validatorSigs sig hsig s hs), h.sigKeys sig hsig⟩

/-- A transaction of such a block comes back, unless a list is missing. -/
theorem Block.Codable.restored_transaction
    {b : Block} {t : Transaction}
    (h : b.Codable)
    (ht : t ∈ b.txs) :
    t.restored = if t.inputs ≠ [] ∧ t.outputs ≠ [] then .ok t else .error "key not found" := by
  split_ifs with hlists
  · apply (Transaction.restored_eq_ok_iff t).mpr
    refine ⟨hlists.1, hlists.2, h.senderSigs t ht, ?_⟩
    rcases h.txKeys t ht with ⟨h0, h1⟩ | hprintable
    · right
      cases hk : t.publicKey with
      | mk S0 S1 =>
          rw [hk] at h0 h1
          simp only at h0 h1
          rw [h0, h1]
    · exact Or.inl hprintable.full.ne_nil
  · unfold Transaction.restored
    rw [if_pos]
    by_contra hnone
    exact hlists (not_or.mp hnone)

/-- With all lists, only the flags of the block change. -/
theorem Block.Codable.restored_eq_ok
    {b : Block}
    (h : b.Codable)
    (hlists : b.HasTransfers) :
    b.restored = .ok { b with empty := false, isMutable := false } := by
  have htxs : b.txs.mapM Transaction.restored = .ok b.txs := by
    refine mapM_eq_ok_self_iff.mpr fun t ht => ?_
    rw [h.restored_transaction ht, if_pos (hlists.2 t ht)]
  have hsig : b.validatorSig.map pad = b.validatorSig :=
    map_eq_self_iff.mpr fun s hs => (pad_eq_self_iff s).mpr (h.validatorSig s hs)
  have hsigs : b.validatorSigs.map BlockSignature.restored = b.validatorSigs :=
    map_eq_self_iff.mpr fun sig hmem =>
      (BlockSignature.restored_eq_self_iff sig).mpr (h.validatorSigs sig hmem)
  unfold Block.restored
  rw [if_neg hlists.1, htxs, hsig, hsigs]
  rfl

/-- Without one of the lists there is an exception. -/
theorem Block.Codable.restored_eq_error
    {b : Block}
    (h : b.Codable)
    (hlists : ¬ b.HasTransfers) :
    ∃ e, b.restored = .error e := by
  cases hrestored : b.restored with
  | error e =>
      exact ⟨e, rfl⟩
  | ok b' =>
      unfold Block.restored at hrestored
      split_ifs at hrestored with hnil
      obtain ⟨txs, htxs, _⟩ := bind_eq_ok hrestored
      refine absurd ⟨hnil, ?_⟩ hlists
      intro t ht
      by_contra hnot
      -- the loop over the transactions stops at `t`
      obtain ⟨t', ht'⟩ := exists_of_mapM_eq_ok htxs t ht
      rw [h.restored_transaction ht, if_neg hnot] at ht'
      cases ht'

end Restoring

section Domain

variable [P : Platform] [LawfulPlatform P] [UnicodeJson P]

/--
`from_string(to_string(b))` restores the block exactly when none of its lists of
transfers is empty, and throws otherwise.
-/
theorem codec_restores_iff
    (b : Block)
    (h : b.Codable) :
    ∃ text, b.toText = .ok text ∧
      ((∃ b', Block.fromText text = .ok b' ∧ b'.SameContents b ∧
        b'.validatorSigs = b.validatorSigs) ↔ b.HasTransfers) ∧
      (¬ b.HasTransfers → ∃ e, Block.fromText text = .error e) := by
  obtain ⟨text, htext, _⟩ := Block.toText_utf8 h.printable
  have hback := Block.fromText_toText htext
  refine ⟨text, htext, ⟨?_, ?_⟩, ?_⟩
  · rintro ⟨b', hb', _⟩
    by_contra hnot
    obtain ⟨e, he⟩ := h.restored_eq_error hnot
    rw [hback, he] at hb'
    cases hb'
  · intro hlists
    refine ⟨_, hback.trans (h.restored_eq_ok hlists), ?_, rfl⟩
    exact ⟨rfl, rfl, rfl, rfl, rfl, rfl⟩
  · intro hnot
    rw [hback]
    exact h.restored_eq_error hnot

end Domain

section Instances

section SignedBlock

variable [P : Platform]

theorem length_of_mem_sign_uniformKey
    (m : Str) (k : UInt8) :
    ∀ s ∈ sign m (uniformKey k).privateKey, s.length = keyLen / 8 := by
  intro s hs
  rw [sign, if_pos (uniformKey_wellFormed k).1] at hs
  obtain ⟨i, hi, rfl⟩ := List.mem_map.mp hs
  rw [uniformKey, keyGen_privateKey_entry _ (List.mem_range.mp hi)]
  split_ifs <;> exact List.length_replicate

/-- A transfer with the key of its sender. -/
def keyedTransfer : Transaction :=
  { inputs := [⟨0, 0⟩], outputs := [⟨10, 1⟩], publicKey := (uniformKey 2).publicKey }

/-- The block of that transfer, signed by its sender, by validator 1 and by validator 2. -/
def signedTransferBlock : Block where
  txs := [{ keyedTransfer with
    senderSig := sign keyedTransfer.getDigest (uniformKey 2).privateKey }]
  validatorId := 1
  validatorSig := sign [] (uniformKey 1).privateKey
  validatorNextPublicKey := (uniformKey 3).publicKey
  validatorSigs := [⟨sign [] (uniformKey 4).privateKey, (uniformKey 4).publicKey, 2, 1⟩]
  empty := false
  isMutable := false

theorem signedTransferBlock_codable
    [LawfulPlatform P] :
    signedTransferBlock.Codable := by
  unfold signedTransferBlock
  constructor <;> dsimp only
  · rfl
  · rfl
  · exact SigKey.printable_keyGen _
  · exact length_of_mem_sign_uniformKey _ 1
  · exact List.forall_mem_singleton.mpr (Or.inr (SigKey.printable_keyGen _))
  · intro t ht
    rw [List.mem_singleton.mp ht]
    dsimp only
    exact length_of_mem_sign_uniformKey _ 2
  · exact List.forall_mem_singleton.mpr (SigKey.printable_keyGen _)
  · intro sig hsig
    rw [List.mem_singleton.mp hsig]
    dsimp only
    exact length_of_mem_sign_uniformKey _ 4

end SignedBlock

/-- A block with a signed transfer and the signatures of two validators is restored. -/
theorem signedTransferBlock_is_restored :
    letI := textPlatform
    ∃ text b', signedTransferBlock.toText = .ok text ∧ Block.fromText text = .ok b' ∧
      b'.SameContents signedTransferBlock ∧
      b'.validatorSigs = signedTransferBlock.validatorSigs := by
  let _ := textPlatform
  obtain ⟨text, htext, hiff, _⟩ := codec_restores_iff signedTransferBlock signedTransferBlock_codable
  have hlists : signedTransferBlock.HasTransfers := by
    refine ⟨List.cons_ne_nil _ _, ?_⟩
    intro t ht
    obtain rfl := List.mem_singleton.mp ht
    exact ⟨List.cons_ne_nil _ _, List.cons_ne_nil _ _⟩
  obtain ⟨b', hb', hsame, hsigs⟩ := hiff.mpr hlists
  exact ⟨text, b', htext, hb', hsame, hsigs⟩

end Instances

end CosiCoin
