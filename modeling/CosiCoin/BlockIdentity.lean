import CosiCoin.MerkleRoots

/-!
# COSICOIN: what the header ID says about a block

The protocol knows a block by `Header::getID`, the hash of the previous digest
followed by the Merkle root, without a separator.  The root is empty or has the
64 characters of a hash, so the two parts are told apart when both blocks have
transactions or both have none.  The root in turn binds the digests of the
transactions once their number is known: an odd level repeats its last hash.

Two blocks of different numbers of transactions may therefore have the same ID
(`equal_ids_of_different_contents`).
-/

namespace CosiCoin

open MerkleTrees

section Building

variable [Platform]

/-- `Block(id, prevBlockDigest)`, `addTransaction` for each transaction, `finalize`. -/
def Block.build (id : UInt64) (prevBlockDigest : Str) (txs : List Transaction) :
    Except String Block :=
  txs.foldlM Block.addTransaction (Block.new id prevBlockDigest) >>= Block.finalize

omit [Platform] in
theorem foldlM_addTransaction
    {txs : List Transaction} :
    ∀ {b : Block}, b.isMutable = true →
      txs.foldlM Block.addTransaction b = .ok { b with txs := b.txs ++ txs } := by
  induction txs with
  | nil =>
      intro b _
      rw [List.append_nil]
      rfl
  | cons t txs ih =>
      intro b hmut
      have hadd : b.addTransaction t = .ok { b with txs := b.txs ++ [t] } := by
        rw [Block.addTransaction, if_pos hmut]
      have hrest := @ih { b with txs := b.txs ++ [t] } hmut
      rw [List.foldlM_cons, hadd]
      simpa [bind, Except.bind] using hrest

/-- Building a block succeeds. -/
theorem build_eq_ok
    (id : UInt64) (prevBlockDigest : Str) (txs : List Transaction) :
    Block.build id prevBlockDigest txs = .ok { Block.new id prevBlockDigest with
      txs := txs
      isMutable := false
      header := Header.calculateMerkleRoot { prevBlockDigest := prevBlockDigest } txs } := by
  have hmut : (Block.new id prevBlockDigest).isMutable = true := rfl
  rw [Block.build, foldlM_addTransaction hmut]
  rfl

/-- What a built block holds. -/
theorem build_spec
    {id : UInt64} {prevBlockDigest : Str} {txs : List Transaction} {b : Block}
    (h : Block.build id prevBlockDigest txs = .ok b) :
    b.txs = txs ∧ b.header.prevBlockDigest = prevBlockDigest ∧
      b.header.merkleRoot =
        (Header.calculateMerkleRoot { prevBlockDigest := prevBlockDigest } txs).merkleRoot := by
  rw [build_eq_ok] at h
  obtain rfl := Except.ok.inj h
  refine ⟨rfl, ?_, rfl⟩
  unfold Header.calculateMerkleRoot
  split_ifs
  · rfl
  · rfl

/-- All strings hashed on the way from the transactions to the ID. -/
def Block.identityStrings (b : Block) : List Str :=
  (b.header.prevBlockDigest ++ b.header.merkleRoot) :: Header.merkleStrings b.txs

/-- The root of a list of transactions is empty or a hash. -/
theorem length_merkleRoot
    (hlength : ∀ s : Str, (hash s).length = 64)
    (h : Header) (txs : List Transaction) :
    (h.calculateMerkleRoot txs).merkleRoot.length = if txs = [] then 0 else 64 := by
  split_ifs with hne
  · rw [Header.calculateMerkleRoot, if_pos hne]
    rfl
  · obtain ⟨r, hroot, _, hstored⟩ := Header.calculateMerkleRoot_eq_root h hne
    rw [hstored]
    refine forall_root (P := fun s => s.length = 64) (fun a b => hlength _) ?_ hroot
    intro a ha
    obtain ⟨t, _, rfl⟩ := List.mem_map.mp ha
    exact hlength _

end Building

/--
Blocks with the same header ID agree in the previous digest followed by the
Merkle root.  If both or none of them have transactions, they agree in the two
parts, and if they have the same number of transactions, in the digests of these.
-/
theorem headerID_binds
    [Platform]
    (id id' : UInt64) (prev prev' : Str) (txs txs' : List Transaction) (b b' : Block)
    (hb : Block.build id prev txs = .ok b)
    (hb' : Block.build id' prev' txs' = .ok b')
    (hlength : ∀ s : Str, (hash s).length = 64)
    (hinj : Set.InjOn hash {s | s ∈ b.identityStrings ∨ s ∈ b'.identityStrings})
    (hid : b.header.getID = b'.header.getID) :
    prev ++ b.header.merkleRoot = prev' ++ b'.header.merkleRoot ∧
    ((txs = [] ↔ txs' = []) → prev = prev' ∧ b.header.merkleRoot = b'.header.merkleRoot) ∧
    (txs.length = txs'.length →
      prev = prev' ∧ txs.map Transaction.getDigest = txs'.map Transaction.getDigest) := by
  obtain ⟨htxs, hprev, hroot⟩ := build_spec hb
  obtain ⟨htxs', hprev', hroot'⟩ := build_spec hb'
  have hstrings : prev ++ b.header.merkleRoot = prev' ++ b'.header.merkleRoot := by
    rw [← hprev, ← hprev']
    exact hinj (Or.inl List.mem_cons_self) (Or.inr List.mem_cons_self) hid
  have hparts : (txs = [] ↔ txs' = []) →
      prev = prev' ∧ b.header.merkleRoot = b'.header.merkleRoot := by
    intro hiff
    refine List.append_inj' hstrings ?_
    rw [hroot, hroot', length_merkleRoot hlength, length_merkleRoot hlength]
    simp only [hiff]
  refine ⟨hstrings, hparts, ?_⟩
  intro hlen
  have hiff : txs = [] ↔ txs' = [] := by
    rw [← List.length_eq_zero_iff, ← List.length_eq_zero_iff, hlen]
  obtain ⟨heq, hroots⟩ := hparts hiff
  refine ⟨heq, ?_⟩
  rw [hroot, hroot'] at hroots
  refine Header.digests_eq_of_merkleRoot_eq hlength ?_ hlen hroots
  refine hinj.mono ?_
  rintro s (hs | hs)
  · exact Or.inl (List.mem_cons_of_mem _ (htxs.symm ▸ hs))
  · exact Or.inr (List.mem_cons_of_mem _ (htxs'.symm ▸ hs))

section Collisions

/-- The transaction with number 1 of a sender, without inputs and outputs. -/
def bareTransaction (senderID : UInt16) : Transaction :=
  { txID := 1, senderID := senderID }

theorem bareTransaction_getStringDigest
    (senderID : UInt16) :
    (bareTransaction senderID).getStringDigest = [49] := by
  show decimal 1 ++ [] ++ [] = [49]
  decide

variable [Platform]

/-- Strings with different hashes are told apart. -/
theorem injOn_of_nodup
    {strings : List Str} {S : Set Str}
    (h : (strings.map hash).Nodup)
    (hS : ∀ s ∈ S, s ∈ strings) :
    Set.InjOn hash S := by
  intro s hs s' hs' heq
  exact List.inj_on_of_nodup_map h (hS s hs) (hS s' hs') heq

/-- A block of copies of the bare transaction of a sender. -/
def copiesBlock (senderID : UInt16) (prevBlockDigest : Str) (copies : Nat) : Block :=
  { Block.new 0 prevBlockDigest with
    txs := List.replicate copies (bareTransaction senderID)
    isMutable := false
    header := Header.calculateMerkleRoot { prevBlockDigest := prevBlockDigest }
      (List.replicate copies (bareTransaction senderID)) }

theorem copiesBlock_built
    (senderID : UInt16) (prevBlockDigest : Str) (copies : Nat) :
    Block.build 0 prevBlockDigest (List.replicate copies (bareTransaction senderID)) =
      .ok (copiesBlock senderID prevBlockDigest copies) :=
  build_eq_ok 0 prevBlockDigest _

/-- The hash of two copies of the bare transaction. -/
def copiesHash : Str :=
  hash (hash [49] ++ hash [49])

/-- Three or four copies of a transaction have the same root. -/
theorem copiesBlock_root
    (senderID : UInt16) {copies : Nat}
    (h : copies = 3 ∨ copies = 4) :
    (copiesBlock senderID [] copies).header =
      { prevBlockDigest := [], merkleRoot := hash (copiesHash ++ copiesHash) } := by
  rcases h with rfl | rfl
  all_goals
    simp [copiesBlock, Header.calculateMerkleRoot, Header.merkleLoop, Header.duplicateLast,
      Header.hashPairs, List.replicate, Transaction.getDigest, bareTransaction_getStringDigest,
      copiesHash]

/-- The strings hashed for three or four copies. -/
def copiesStrings : List Str :=
  [[49], hash [49] ++ hash [49], copiesHash ++ copiesHash, hash (copiesHash ++ copiesHash)]

theorem copiesBlock_identityStrings_subset
    (senderID : UInt16) {copies : Nat}
    (h : copies = 3 ∨ copies = 4) :
    (copiesBlock senderID [] copies).identityStrings ⊆ copiesStrings := by
  rw [Block.identityStrings, copiesBlock_root senderID h]
  rcases h with rfl | rfl
  all_goals
    simp [copiesStrings, copiesBlock, Header.merkleStrings, Header.loopStrings,
      Header.pairStrings, Header.duplicateLast, Header.hashPairs, List.replicate,
      Transaction.getDigest, bareTransaction_getStringDigest, copiesHash]

theorem copiesBlock_one_identityStrings
    (senderID : UInt16) :
    (copiesBlock senderID [] 1).identityStrings = [hash [49], [49]] := by
  simp [Block.identityStrings, copiesBlock, Header.calculateMerkleRoot, Header.merkleLoop,
    Header.merkleStrings, Header.loopStrings, Transaction.getDigest,
    bareTransaction_getStringDigest]

theorem copiesBlock_zero_identityStrings
    (senderID : UInt16) (prevBlockDigest : Str) :
    (copiesBlock senderID prevBlockDigest 0).identityStrings = [prevBlockDigest] := by
  simp [Block.identityStrings, copiesBlock, Header.calculateMerkleRoot, Header.merkleStrings,
    Header.loopStrings]

end Collisions

theorem copiesStrings_digests_nodup :
    letI := referencePlatform
    (copiesStrings.map hash).Nodup := by
  decide +kernel

/--
The digest of a transaction can stand in the previous digest instead of the root,
and a last transaction can be repeated, without changing the ID.
-/
theorem equal_ids_of_different_contents :
    letI := referencePlatform
    (∃ b b' : Block, Block.build 0 [] [bareTransaction 0] = .ok b ∧
      Block.build 0 (bareTransaction 0).getDigest [] = .ok b' ∧
      Set.InjOn hash {s | s ∈ b.identityStrings ∨ s ∈ b'.identityStrings} ∧
      b.header.getID = b'.header.getID ∧
      b.header.prevBlockDigest ≠ b'.header.prevBlockDigest) ∧
    ∃ b b' : Block, Block.build 0 [] (List.replicate 3 (bareTransaction 0)) = .ok b ∧
      Block.build 0 [] (List.replicate 4 (bareTransaction 0)) = .ok b' ∧
      Set.InjOn hash {s | s ∈ b.identityStrings ∨ s ∈ b'.identityStrings} ∧
      b.header.getID = b'.header.getID ∧
      b.txs.map Transaction.getDigest ≠ b'.txs.map Transaction.getDigest := by
  let _ := referencePlatform
  constructor
  · have hnodup : ([hash [49], [49]].map hash).Nodup := by
      decide +kernel
    refine ⟨_, _, copiesBlock_built 0 [] 1, copiesBlock_built 0 (hash [49]) 0, ?_, ?_, ?_⟩
    · refine injOn_of_nodup hnodup ?_
      rintro s (hs | hs)
      · rwa [copiesBlock_one_identityStrings] at hs
      · rw [copiesBlock_zero_identityStrings] at hs
        exact List.mem_cons.mpr (Or.inl (List.mem_singleton.mp hs))
    · show hash ([] ++ hash [49]) = hash (hash [49] ++ [])
      rw [List.nil_append, List.append_nil]
    · intro hempty
      have hlen := congrArg List.length hempty
      exact absurd hlen (by decide +kernel)
  · refine ⟨_, _, copiesBlock_built 0 [] 3, copiesBlock_built 0 [] 4, ?_, ?_, ?_⟩
    · refine injOn_of_nodup copiesStrings_digests_nodup ?_
      rintro s (hs | hs)
      · exact copiesBlock_identityStrings_subset 0 (Or.inl rfl) hs
      · exact copiesBlock_identityStrings_subset 0 (Or.inr rfl) hs
    · rw [copiesBlock_root 0 (Or.inl rfl), copiesBlock_root 0 (Or.inr rfl)]
    · intro hdigests
      have hlen := congrArg List.length hdigests
      simp [copiesBlock] at hlen

/-- Three copies of the transactions of two senders, which have the same digests. -/
theorem three_copies_are_bound :
    letI := referencePlatform
    (copiesBlock 0 [] 3).header.getID = (copiesBlock 1 [] 3).header.getID ∧
      (List.replicate 3 (bareTransaction 0)).map Transaction.getDigest =
        (List.replicate 3 (bareTransaction 1)).map Transaction.getDigest := by
  let _ := referencePlatform
  have hid : (copiesBlock 0 [] 3).header.getID = (copiesBlock 1 [] 3).header.getID := by
    rw [copiesBlock_root 0 (Or.inl rfl), copiesBlock_root 1 (Or.inl rfl)]
  have hinj : Set.InjOn hash {s | s ∈ (copiesBlock 0 [] 3).identityStrings ∨
      s ∈ (copiesBlock 1 [] 3).identityStrings} := by
    refine injOn_of_nodup copiesStrings_digests_nodup ?_
    rintro s (hs | hs)
    · exact copiesBlock_identityStrings_subset 0 (Or.inl rfl) hs
    · exact copiesBlock_identityStrings_subset 1 (Or.inl rfl) hs
  have hbinds := headerID_binds 0 0 [] [] _ _ _ _ (copiesBlock_built 0 [] 3)
    (copiesBlock_built 1 [] 3) (fun s => (Sha256.isHexDigest_digest s).1) hinj hid
  exact ⟨hid, (hbinds.2.2 rfl).2⟩

end CosiCoin
