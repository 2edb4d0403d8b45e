import CosiCoin.MerkleRoots
import CosiCoin.BlockText
import CosiCoin.WireRoundTrip

/-!
# COSICOIN: frozen blocks

The functions of a block as one state machine.  A call returns an answer or
throws, and in both cases it leaves a block behind.  A block is open until the
first `finalize`; from then on its number, its transactions and its header stay
as they are, and the root in the header is the Merkle root of the transactions.

Signing stores the signer and the next key before the digest is computed, so a
call of `sign` that throws may leave these two fields changed.  The last section
says for which arguments signing is all or nothing.
-/

namespace CosiCoin

open MerkleTrees

/-- A call of a function of a block, with its arguments. -/
inductive BlockCall where
  | addTransaction (tx : Transaction)
  | finalize
  | sign (signingKey : SigKey) (validatorId : UInt16) (nextPublicKey : SigKey)
  | addValidatorSignature (sig : BlockSignature)
  | removeSignatures
  | getDigest
  | verifySignature (publicKey : SigKey)
  | verify (utxolist : UTXOlist) (receiverIDs : List UInt32)
  | verifyTxConsist (newTx : Transaction)
  | toProtoBlock
  | toText

/-- What a call returns. -/
inductive BlockAnswer where
  | done
  | text (s : Str)
  | verdict (v : Bool)
  | wire (p : ProtoBlock)

/-- The calls that only an open block allows. -/
def BlockCall.NeedsOpen : BlockCall → Prop
  | .addTransaction _ | .finalize => True
  | _ => False

/-- The calls that only a finalized block allows. -/
def BlockCall.NeedsFrozen : BlockCall → Prop
  | .sign _ _ _ | .getDigest | .verifySignature _ | .toProtoBlock => True
  | _ => False

namespace Block

/--
A block as the constructors with a number and a digest, or without arguments,
leave it.  The constructors do not set the validator id.
-/
inductive Constructed : Block → Prop
  | numbered
      (id : UInt64) (prevBlockDigest : Str) (v : UInt16) :
      Constructed { Block.new id prevBlockDigest with validatorId := v }
  | empty
      (v : UInt16) :
      Constructed { ({} : Block) with validatorId := v }

theorem Constructed.isMutable
    {b : Block}
    (h : b.Constructed) :
    b.isMutable = true := by
  cases h <;> rfl

/-- The fields that identify a block, and its freeze flag. -/
structure SameCore (b b' : Block) : Prop where
  id : b'.id = b.id
  txs : b'.txs = b.txs
  header : b'.header = b.header
  isMutable : b'.isMutable = b.isMutable

theorem SameCore.refl
    (b : Block) :
    b.SameCore b :=
  ⟨rfl, rfl, rfl, rfl⟩

theorem SameCore.trans
    {a b c : Block}
    (hab : a.SameCore b)
    (hbc : b.SameCore c) :
    a.SameCore c :=
  ⟨hbc.id.trans hab.id, hbc.txs.trans hab.txs, hbc.header.trans hab.header,
    hbc.isMutable.trans hab.isMutable⟩

section Calls

variable [Platform]

/-- The outcome of a function that either throws at once or changes the block. -/
def updated (b : Block) : Except String Block → Except String BlockAnswer × Block
  | .ok b' => (.ok .done, b')
  | .error e => (.error e, b)

/-- The outcome of `sign`, which may throw after it has changed the block. -/
def outcome : Except (String × Block) Block → Except String BlockAnswer × Block
  | .ok b' => (.ok .done, b')
  | .error thrown => (.error thrown.1, thrown.2)

/-- One call: what it returns or throws, and the block it leaves. -/
def call (b : Block) : BlockCall → Except String BlockAnswer × Block
  | .addTransaction tx => b.updated (b.addTransaction tx)
  | .finalize => b.updated b.finalize
  | .sign signingKey validatorId nextPublicKey =>
      outcome (b.sign signingKey validatorId nextPublicKey)
  | .addValidatorSignature sig => (.ok .done, b.addValidatorSignature sig)
  | .removeSignatures => (.ok .done, b.removeSignatures)
  | .getDigest => (b.getDigest.map .text, b)
  | .verifySignature publicKey => ((b.verifySignature publicKey).map .verdict, b)
  | .verify utxolist receiverIDs => (.ok (.verdict (b.verify utxolist receiverIDs)), b)
  | .verifyTxConsist newTx => (.ok (.verdict (b.verifyTxConsist newTx)), b)
  | .toProtoBlock => (b.toProtoBlock.map .wire, b)
  | .toText => (b.toText.map .text, b)

/-- The block after a sequence of calls. -/
def calls (b : Block) (cs : List BlockCall) : Block :=
  cs.foldl (fun b c => (b.call c).2) b

/-- The call throws. -/
def Throws (b : Block) (c : BlockCall) : Prop :=
  ∃ e, (b.call c).1 = .error e

theorem calls_append
    (b : Block)
    (cs cs' : List BlockCall) :
    b.calls (cs ++ cs') = (b.calls cs).calls cs' :=
  List.foldl_append

/-- Signing touches none of the core fields, whether it returns or throws. -/
theorem sameCore_sign
    (b : Block)
    (key : SigKey) (v : UInt16) (next : SigKey) :
    (∀ b', b.sign key v next = .ok b' → b.SameCore b') ∧
      ∀ e b', b.sign key v next = .error (e, b') → b.SameCore b' := by
  refine ⟨?_, ?_⟩
  · intro b' h
    obtain ⟨_, digest, _, rfl⟩ := sign_eq_ok h
    exact ⟨rfl, rfl, rfl, rfl⟩
  · intro e b' h
    unfold sign at h
    split_ifs at h with hmutable
    · obtain ⟨_, rfl⟩ := Prod.mk.inj (Except.error.inj h)
      exact SameCore.refl b
    · dsimp only at h
      split at h
      · obtain ⟨_, rfl⟩ := Prod.mk.inj (Except.error.inj h)
        exact ⟨rfl, rfl, rfl, rfl⟩
      · cases h

/--
What a call can do: append a transaction to an open block, freeze an open
block, or leave the core fields alone.
-/
theorem call_cases
    (b : Block)
    (c : BlockCall) :
    (∃ tx, c = .addTransaction tx ∧ b.isMutable = true ∧
      b.call c = (.ok .done, { b with txs := b.txs ++ [tx] })) ∨
    (c = .finalize ∧ b.isMutable = true ∧
      b.call c = (.ok .done,
        { b with isMutable := false, header := b.header.calculateMerkleRoot b.txs })) ∨
    ((c.NeedsOpen → b.isMutable = false ∧ b.Throws c) ∧ b.SameCore (b.call c).2) := by
  cases c with
  | addTransaction tx =>
      cases hmut : b.isMutable with
      | true =>
          refine Or.inl ⟨tx, rfl, rfl, ?_⟩
          simp [call, updated, Block.addTransaction, hmut]
      | false =>
          refine Or.inr (Or.inr ⟨fun _ => ⟨rfl, ?_⟩, ?_⟩)
          · simp [Throws, call, updated, Block.addTransaction, hmut]
          · simpa [call, updated, Block.addTransaction, hmut] using SameCore.refl b
  | finalize =>
      cases hmut : b.isMutable with
      | true =>
          refine Or.inr (Or.inl ⟨rfl, rfl, ?_⟩)
          simp [call, updated, Block.finalize, hmut]
      | false =>
          refine Or.inr (Or.inr ⟨fun _ => ⟨rfl, ?_⟩, ?_⟩)
          · simp [Throws, call, updated, Block.finalize, hmut]
          · simpa [call, updated, Block.finalize, hmut] using SameCore.refl b
  | sign key v next =>
      refine Or.inr (Or.inr ⟨False.elim, ?_⟩)
      obtain ⟨hok, herror⟩ := b.sameCore_sign key v next
      rw [call]
      cases hsign : b.sign key v next with
      | ok b' => exact hok b' hsign
      | error thrown => exact herror thrown.1 thrown.2 hsign
  | addValidatorSignature sig => exact Or.inr (Or.inr ⟨False.elim, rfl, rfl, rfl, rfl⟩)
  | removeSignatures => exact Or.inr (Or.inr ⟨False.elim, rfl, rfl, rfl, rfl⟩)
  | getDigest => exact Or.inr (Or.inr ⟨False.elim, SameCore.refl b⟩)
  | verifySignature key => exact Or.inr (Or.inr ⟨False.elim, SameCore.refl b⟩)
  | verify utxolist ids => exact Or.inr (Or.inr ⟨False.elim, SameCore.refl b⟩)
  | verifyTxConsist tx => exact Or.inr (Or.inr ⟨False.elim, SameCore.refl b⟩)
  | toProtoBlock => exact Or.inr (Or.inr ⟨False.elim, SameCore.refl b⟩)
  | toText => exact Or.inr (Or.inr ⟨False.elim, SameCore.refl b⟩)

/-- A call that throws leaves the core fields alone. -/
theorem sameCore_of_throws
    {b : Block} {c : BlockCall}
    (h : b.Throws c) :
    b.SameCore (b.call c).2 := by
  obtain ⟨e, he⟩ := h
  rcases b.call_cases c with ⟨tx, _, _, hcall⟩ | ⟨_, _, hcall⟩ | ⟨_, hsame⟩
  · rw [hcall] at he
    cases he
  · rw [hcall] at he
    cases he
  · exact hsame

/-- On an open block the calls that need a digest throw. -/
theorem throws_of_open
    {b : Block}
    (hopen : b.isMutable = true)
    {c : BlockCall}
    (hc : c.NeedsFrozen) :
    b.Throws c := by
  cases c with
  | sign key v next =>
      exact ⟨"Cannot sign mutable block.", by simp [call, outcome, Block.sign, hopen]⟩
  | getDigest =>
      exact ⟨"Cannot digest mutable block.", by simp [call, Block.getDigest, hopen, Except.map]⟩
  | verifySignature key =>
      refine ⟨"Cannot digest mutable block.", ?_⟩
      simp [call, Block.verifySignature, Block.getDigest, hopen, Except.map]
  | toProtoBlock =>
      exact ⟨"Cannot convert mutable block.",
        by simp [call, Block.toProtoBlock, hopen, Except.map]⟩
  | addTransaction tx => cases hc
  | finalize => cases hc
  | addValidatorSignature sig => cases hc
  | removeSignatures => cases hc
  | verify utxolist ids => cases hc
  | verifyTxConsist tx => cases hc
  | toText => cases hc

/-- On a frozen block a call keeps the core fields, and those for open blocks throw. -/
theorem call_of_frozen
    {b : Block}
    (hfrozen : b.isMutable = false)
    (c : BlockCall) :
    (c.NeedsOpen → b.Throws c) ∧ b.SameCore (b.call c).2 := by
  rcases b.call_cases c with ⟨tx, _, hopen, _⟩ | ⟨_, hopen, _⟩ | ⟨hthrows, hsame⟩
  · rw [hfrozen] at hopen
    cases hopen
  · rw [hfrozen] at hopen
    cases hopen
  · exact ⟨fun hc => (hthrows hc).2, hsame⟩

/-- Only `finalize` freezes a block. -/
theorem call_open
    {b : Block}
    (hopen : b.isMutable = true)
    {c : BlockCall}
    (hc : c ≠ .finalize) :
    (b.call c).2.isMutable = true := by
  rcases b.call_cases c with ⟨tx, _, _, hcall⟩ | ⟨hfinal, _⟩ | ⟨_, hsame⟩
  · rw [hcall]
    exact hopen
  · exact absurd hfinal hc
  · exact hsame.isMutable.trans hopen

/-- A block is open until the first `finalize`. -/
theorem calls_open
    {b : Block}
    (hopen : b.isMutable = true)
    {cs : List BlockCall}
    (hcs : .finalize ∉ cs) :
    (b.calls cs).isMutable = true := by
  induction cs generalizing b with
  | nil => exact hopen
  | cons c cs ih =>
      have hc : c ≠ .finalize := fun h => hcs (h ▸ List.mem_cons_self)
      exact ih (call_open hopen hc) fun hmem => hcs (List.mem_cons_of_mem _ hmem)

/-- No sequence of calls changes the core fields of a frozen block. -/
theorem sameCore_calls
    {b : Block}
    (hfrozen : b.isMutable = false)
    (cs : List BlockCall) :
    b.SameCore (b.calls cs) := by
  induction cs generalizing b with
  | nil => exact SameCore.refl b
  | cons c cs ih =>
      have hsame := (call_of_frozen hfrozen c).2
      exact hsame.trans (ih (hsame.isMutable.trans hfrozen))

/-- The Merkle root of a list of transactions; the empty string if there is none. -/
def rootOf (txs : List Transaction) : Str :=
  (root Header.hashPair (txs.map Transaction.getDigest)).getD []

theorem calculateMerkleRoot_eq_rootOf
    (h : Header)
    (txs : List Transaction) :
    (h.calculateMerkleRoot txs).merkleRoot = rootOf txs := by
  by_cases hnil : txs = []
  · subst hnil
    simp [Header.calculateMerkleRoot, rootOf, root]
  · obtain ⟨r, hroot, _, hstored⟩ := Header.calculateMerkleRoot_eq_root h hnil
    rw [hstored, rootOf, hroot]
    rfl

/-- The first `finalize` returns and stores the root of the transactions. -/
theorem call_finalize_of_open
    {b : Block}
    (hopen : b.isMutable = true) :
    (b.call .finalize).1 = .ok .done ∧
      (b.call .finalize).2.isMutable = false ∧
      (b.call .finalize).2.header.merkleRoot = rootOf (b.call .finalize).2.txs := by
  rcases b.call_cases .finalize with ⟨tx, hc, _⟩ | ⟨_, _, hcall⟩ | ⟨hthrows, _⟩
  · cases hc
  · rw [hcall]
    exact ⟨rfl, rfl, calculateMerkleRoot_eq_rootOf _ _⟩
  · obtain ⟨hfrozen, _⟩ := hthrows trivial
    rw [hopen] at hfrozen
    cases hfrozen

/--
From its first `finalize` on a block is frozen, whatever is called before and
after, and a call that throws changes none of the core fields in either phase.
-/
theorem finalized_block_is_frozen
    {start : Block}
    (hstart : start.Constructed)
    {before : List BlockCall}
    (hbefore : .finalize ∉ before)
    (after : List BlockCall) :
    let opened := start.calls before
    let final := start.calls (before ++ [.finalize])
    let later := start.calls (before ++ .finalize :: after)
    (∀ c : BlockCall, c.NeedsFrozen → opened.Throws c) ∧
    (∀ c, opened.Throws c → opened.SameCore (opened.call c).2) ∧
    ¬ opened.Throws .finalize ∧
    (later.id = final.id ∧ later.txs = final.txs ∧ later.header = final.header) ∧
    later.header.merkleRoot = rootOf later.txs ∧
    (∀ c : BlockCall, c.NeedsOpen → later.Throws c) ∧
    (∀ c, later.Throws c → later.SameCore (later.call c).2) := by
  intro opened final later
  have hopen : opened.isMutable = true := calls_open hstart.isMutable hbefore
  obtain ⟨hdone, hfrozen, hroot⟩ := call_finalize_of_open hopen
  have hfinal : final = (opened.call .finalize).2 := calls_append start before [.finalize]
  have hlater : later = final.calls after := by
    rw [hfinal]
    exact calls_append start before (.finalize :: after)
  rw [← hfinal] at hfrozen hroot
  have hsame : final.SameCore later := hlater ▸ sameCore_calls hfrozen after
  refine ⟨fun c hc => throws_of_open hopen hc, fun c hc => sameCore_of_throws hc, ?_,
    ⟨hsame.id, hsame.txs, hsame.header⟩, ?_, ?_, fun c hc => sameCore_of_throws hc⟩
  · rintro ⟨e, he⟩
    rw [hdone] at he
    cases he
  · rw [hsame.header, hsame.txs]
    exact hroot
  · intro c hc
    exact (call_of_frozen (hsame.isMutable.trans hfrozen) c).1 hc

end Calls

/-- A block with one transaction, finalized and then called twice more. -/
theorem finalized_block_is_frozen_once :
    letI := textPlatform
    let later := (Block.new 1 []).calls
      ([.addTransaction {}] ++ .finalize :: [.removeSignatures, .finalize])
    later.Throws .finalize ∧ later.header.merkleRoot = rootOf later.txs := by
  let _ := textPlatform
  have hbefore : BlockCall.finalize ∉ [BlockCall.addTransaction {}] := by
    rw [List.mem_singleton]
    exact BlockCall.noConfusion
  obtain ⟨_, _, _, _, hroot, hthrows, _⟩ := finalized_block_is_frozen
    (Constructed.numbered 1 [] 0) hbefore [.removeSignatures, .finalize]
  exact ⟨hthrows .finalize trivial, hroot⟩

section Signing

variable [P : Platform]

/-- Signatures collected later, one after the other. -/
def addValidatorSignatures (b : Block) (sigs : List BlockSignature) : Block :=
  sigs.foldl addValidatorSignature b

/--
Signing throws and leaves the block as it was, or returns a block whose
signature verifies, also after further signatures have been collected.
-/
def SignsAtomically (b : Block) (pair : Signature) (v : UInt16) (next : SigKey) : Prop :=
  match b.sign pair.privateKey v next with
  | .error thrown => thrown.2 = b
  | .ok signed => ∀ sigs, (signed.addValidatorSignatures sigs).ValidUnder pair.publicKey

/-- The signature is checked without the signatures collected later. -/
theorem validUnder_addValidatorSignatures
    {b : Block} {key : SigKey}
    (h : b.ValidUnder key)
    (sigs : List BlockSignature) :
    (b.addValidatorSignatures sigs).ValidUnder key := by
  induction sigs generalizing b with
  | nil => exact h
  | cons sig sigs ih => exact ih (b := b.addValidatorSignature sig) h

variable [UnicodeJson P]

/-- The keys that can stand in a digest: those with an empty half, and those that can be written. -/
theorem exists_getDigest_iff
    (b : Block) :
    (∃ digest, b.getDigest = .ok digest) ↔
      b.isMutable = false ∧
        (b.validatorNextPublicKey.S0 ≠ [] ∧ b.validatorNextPublicKey.S1 ≠ [] →
          b.validatorNextPublicKey.Printable) := by
  constructor
  · rintro ⟨digest, hdigest⟩
    refine ⟨frozen_of_getDigest hdigest, fun hboth => exists_sigKeyToString_iff.mp ?_⟩
    unfold getDigest at hdigest
    rw [if_neg (by simp [frozen_of_getDigest hdigest]), if_pos hboth] at hdigest
    cases hkey : sigKeyToString b.validatorNextPublicKey with
    | error e =>
        rw [hkey] at hdigest
        cases hdigest
    | ok text => exact ⟨text, rfl⟩
  · rintro ⟨hfrozen, hkey⟩
    by_cases hboth : b.validatorNextPublicKey.S0 ≠ [] ∧ b.validatorNextPublicKey.S1 ≠ []
    · obtain ⟨text, htext⟩ := exists_sigKeyToString_iff.mpr (hkey hboth)
      exact exists_getDigest hfrozen htext
    · exact ⟨_, by simp only [getDigest, hfrozen, if_neg hboth]; rfl⟩

/--
Signing is all or nothing exactly on open blocks, with a next key that can
stand in a digest, or when the signer and the next key are the stored ones.
-/
theorem sign_all_or_nothing_iff
    (b : Block)
    {pair : Signature}
    (hpair : pair.WellFormed)
    (v : UInt16)
    (next : SigKey) :
    b.SignsAtomically pair v next ↔
      b.isMutable = true ∨
      (next.S0 ≠ [] ∧ next.S1 ≠ [] → next.Printable) ∨
      (v = b.validatorId ∧ next = b.validatorNextPublicKey) := by
  have hdigest := exists_getDigest_iff
    { b with validatorId := v, validatorNextPublicKey := next }
  unfold SignsAtomically
  cases hsign : b.sign pair.privateKey v next with
  | ok signed =>
      -- the digest was computed, so the key can stand in it
      obtain ⟨_, digest, hget, rfl⟩ := sign_eq_ok hsign
      have hkey := ((exists_getDigest_iff _).mp ⟨digest, hget⟩).2
      have hvalid := (validUnder_of_sign hpair hsign).1
      exact ⟨fun _ => Or.inr (Or.inl hkey),
        fun _ sigs => validUnder_addValidatorSignatures hvalid sigs⟩
  | error thrown =>
      unfold sign at hsign
      split_ifs at hsign with hmutable
      · obtain rfl := Except.error.inj hsign
        exact ⟨fun _ => Or.inl hmutable, fun _ => rfl⟩
      · dsimp only at hsign
        split at hsign
        · rename_i e hget
          obtain rfl := Except.error.inj hsign
          have hkey : ¬ (next.S0 ≠ [] ∧ next.S1 ≠ [] → next.Printable) := by
            intro h
            obtain ⟨digest, hok⟩ := hdigest.mpr ⟨by simpa using hmutable, h⟩
            rw [hok] at hget
            cases hget
          constructor
          · intro hsame
            have hv := congrArg Block.validatorId hsame
            have hnext := congrArg Block.validatorNextPublicKey hsame
            exact Or.inr (Or.inr ⟨hv, hnext⟩)
          · rintro (h | h | ⟨rfl, rfl⟩)
            · exact absurd h hmutable
            · exact absurd h hkey
            · rfl
        · cases hsign

end Signing

/-- A next key with one entry in each half. -/
def stubKey : SigKey where
  S0 := [[]]
  S1 := [[]]

/-- A finalized block without transactions. -/
def finalizedBlock : Block :=
  { isMutable := false }

/-- A finalized block that is signed with a stub as the next key keeps the signer and the stub. -/
theorem sign_leaves_signer_behind :
    letI := textPlatform
    (uniformKey 1).WellFormed ∧
      ¬ finalizedBlock.SignsAtomically (uniformKey 1) 7 stubKey := by
  let _ := textPlatform
  refine ⟨uniformKey_wellFormed 1, ?_⟩
  have hsign : finalizedBlock.sign (uniformKey 1).privateKey 7 stubKey =
      .error ("Cannot convert SigKey to string, invalid signature key length (S0: 1, S1: 1)",
        { finalizedBlock with validatorId := 7, validatorNextPublicKey := stubKey }) :=
    rfl
  intro h
  unfold SignsAtomically at h
  rw [hsign] at h
  exact absurd (congrArg Block.validatorId h) (by decide)

/-- Without a next key the block is signed. -/
theorem sign_all_or_nothing_without_key :
    letI := textPlatform
    finalizedBlock.SignsAtomically (uniformKey 1) 7 {} := by
  let _ := textPlatform
  exact (sign_all_or_nothing_iff finalizedBlock (uniformKey_wellFormed 1) 7 {}).mpr
    (Or.inr (Or.inl fun h => absurd rfl h.1))

end Block

end CosiCoin
