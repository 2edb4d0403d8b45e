import CosiCoin.BlockModel
import Mathlib.Data.List.Forall2

/-!
# COSICOIN: equality of transactions and blocks

`operator==` of `Transaction` and of `Block` compare field by field and list by
list, the elements of a list at each position with their own `operator!=`.  That
of `Input`, `SigKey` and `Header` is the negation of `operator==`.  That of
`Output` asks for a different value and a different receiver, so outputs that
agree in one of the two are taken for equal.

Two transactions are equal exactly when the operator says so, unless they differ
in nothing but outputs, each of which agrees with its counterpart in the value or
in the receiver; two blocks, unless such transactions are all they differ in
(`equality_structural_iff`).
-/

namespace CosiCoin

section Operators

/-- `operator!=` of `Input`. -/
def Input.ne (i j : Input) : Bool :=
  i.txID != j.txID || i.outputIndex != j.outputIndex

/-- `operator!=` of `Output`. -/
def Output.ne (o o' : Output) : Bool :=
  o.value != o'.value && o.receiverID != o'.receiverID

/-- `operator!=` of `SigKey`. -/
def SigKey.ne (k k' : SigKey) : Bool :=
  k.S0 != k'.S0 || k.S1 != k'.S1

/-- `operator!=` of `Header`. -/
def Header.ne (h h' : Header) : Bool :=
  !(h.prevBlockDigest == h'.prevBlockDigest && h.merkleRoot == h'.merkleRoot)

/-- Compare the sizes of two vectors, then the elements at each position with `ne`. -/
def sameElements {α : Type} (ne : α → α → Bool) (l l' : List α) : Bool :=
  l.length == l'.length && !(l.zip l').any fun p => ne p.1 p.2

/-- `operator==` of `Transaction`. -/
def Transaction.equals (t t' : Transaction) : Bool :=
  sameElements Input.ne t.inputs t'.inputs &&
    sameElements Output.ne t.outputs t'.outputs &&
    !(t.senderSig != t'.senderSig) &&
    !(t.senderID != t'.senderID) &&
    !(t.txID != t'.txID) &&
    !t.publicKey.ne t'.publicKey

/-- The comparison of two entries of `validatorSigs_`. -/
def BlockSignature.ne (s s' : BlockSignature) : Bool :=
  s.validatorId != s'.validatorId || s.signature != s'.signature || s.round != s'.round ||
    s.publicKey.ne s'.publicKey

/-- `operator==` of `Block`. -/
def Block.equals (b b' : Block) : Bool :=
  !(b.id != b'.id) &&
    !b.header.ne b'.header &&
    sameElements (fun t t' => !t.equals t') b.txs b'.txs &&
    !(b.validatorSig != b'.validatorSig) &&
    !(b.validatorId != b'.validatorId) &&
    !b.validatorNextPublicKey.ne b'.validatorNextPublicKey &&
    sameElements BlockSignature.ne b.validatorSigs b'.validatorSigs

end Operators

section Elements

theorem Input.ne_eq_false_iff
    (i j : Input) :
    i.ne j = false ↔ i = j := by
  cases i
  cases j
  simp [Input.ne]

/-- Outputs that agree in the value or in the receiver. -/
def Output.Overlaps (o o' : Output) : Prop :=
  o.value = o'.value ∨ o.receiverID = o'.receiverID

theorem Output.ne_eq_false_iff
    (o o' : Output) :
    o.ne o' = false ↔ o.Overlaps o' := by
  simp [Output.ne, Output.Overlaps, or_iff_not_imp_left]

theorem SigKey.ne_eq_false_iff
    (k k' : SigKey) :
    k.ne k' = false ↔ k = k' := by
  cases k
  cases k'
  simp [SigKey.ne]

theorem Header.ne_eq_false_iff
    (h h' : Header) :
    h.ne h' = false ↔ h = h' := by
  cases h
  cases h'
  simp [Header.ne]

theorem BlockSignature.ne_eq_false_iff
    (s s' : BlockSignature) :
    s.ne s' = false ↔ s = s' := by
  cases s
  cases s'
  simp only [BlockSignature.ne, Bool.or_eq_false_iff, bne_eq_false_iff_eq,
    SigKey.ne_eq_false_iff, BlockSignature.mk.injEq]
  tauto

variable {α : Type} {ne : α → α → Bool} {l l' : List α}

theorem sameElements_iff :
    sameElements ne l l' = true ↔ List.Forall₂ (fun a b => ne a b = false) l l' := by
  rw [List.forall₂_iff_zip, sameElements, Bool.and_eq_true, beq_iff_eq, Bool.not_eq_true',
    List.any_eq_false]
  simp

/-- A comparison that is exact on elements is exact on vectors. -/
theorem sameElements_iff_eq
    (hne : ∀ a b, ne a b = false ↔ a = b) :
    sameElements ne l l' = true ↔ l = l' := by
  rw [sameElements_iff]
  simp only [hne, List.forall₂_eq_eq_eq]

end Elements

section Confusion

/-- Transactions that differ only in outputs that overlap one by one. -/
structure Transaction.ConfusedWith (t t' : Transaction) : Prop where
  others : t' = { t with outputs := t'.outputs }
  overlap : List.Forall₂ Output.Overlaps t.outputs t'.outputs
  differ : t.outputs ≠ t'.outputs

/-- The fields that `operator==` of `Block` compares are equal. -/
structure Block.Agrees (b b' : Block) : Prop where
  id : b.id = b'.id
  header : b.header = b'.header
  txs : b.txs = b'.txs
  validatorSig : b.validatorSig = b'.validatorSig
  validatorId : b.validatorId = b'.validatorId
  validatorNextPublicKey : b.validatorNextPublicKey = b'.validatorNextPublicKey
  validatorSigs : b.validatorSigs = b'.validatorSigs

/-- Blocks that differ only in transactions that are confused with each other. -/
structure Block.ConfusedWith (b b' : Block) : Prop where
  others : Block.Agrees { b with txs := b'.txs } b'
  confused : List.Forall₂ (fun t t' => t = t' ∨ Transaction.ConfusedWith t t') b.txs b'.txs
  differ : b.txs ≠ b'.txs

/-- What `operator==` of `Transaction` decides. -/
theorem Transaction.equals_iff
    (t t' : Transaction) :
    t.equals t' = true ↔
      t' = { t with outputs := t'.outputs } ∧
        List.Forall₂ Output.Overlaps t.outputs t'.outputs := by
  have houtputs : sameElements Output.ne t.outputs t'.outputs = true ↔
      List.Forall₂ Output.Overlaps t.outputs t'.outputs := by
    rw [sameElements_iff]
    simp only [Output.ne_eq_false_iff]
  simp only [Transaction.equals, Bool.and_eq_true, Bool.not_eq_true', bne_eq_false_iff_eq,
    sameElements_iff_eq Input.ne_eq_false_iff, houtputs, SigKey.ne_eq_false_iff]
  constructor
  · rintro ⟨⟨⟨⟨⟨hinputs, hoverlap⟩, hsig⟩, hsender⟩, htx⟩, hkey⟩
    refine ⟨?_, hoverlap⟩
    rw [hinputs, hsig, hsender, htx, hkey]
  · rintro ⟨hothers, hoverlap⟩
    rw [hothers]
    exact ⟨⟨⟨⟨⟨rfl, hoverlap⟩, rfl⟩, rfl⟩, rfl⟩, rfl⟩

/-- The operator accepts equal transactions and those it confuses. -/
theorem Transaction.equals_iff_or
    (t t' : Transaction) :
    t.equals t' = true ↔ t = t' ∨ t.ConfusedWith t' := by
  rw [Transaction.equals_iff]
  constructor
  · rintro ⟨hothers, hoverlap⟩
    by_cases hout : t.outputs = t'.outputs
    · left
      rw [hothers, ← hout]
    · exact Or.inr ⟨hothers, hoverlap, hout⟩
  · rintro (rfl | h)
    · exact ⟨rfl, List.forall₂_same.mpr fun o _ => Or.inl rfl⟩
    · exact ⟨h.others, h.overlap⟩

theorem Transaction.ConfusedWith.ne
    {t t' : Transaction}
    (h : t.ConfusedWith t') :
    t ≠ t' := by
  rintro rfl
  exact h.differ rfl

/-- The operator accepts blocks that agree and those it confuses. -/
theorem Block.equals_iff_or
    (b b' : Block) :
    b.equals b' = true ↔ b.Agrees b' ∨ b.ConfusedWith b' := by
  have htxs : sameElements (fun t t' => !t.equals t') b.txs b'.txs = true ↔
      List.Forall₂ (fun t t' => t = t' ∨ Transaction.ConfusedWith t t') b.txs b'.txs := by
    rw [sameElements_iff]
    simp only [Bool.not_eq_false', Transaction.equals_iff_or]
  simp only [Block.equals, Bool.and_eq_true, Bool.not_eq_true', bne_eq_false_iff_eq, htxs,
    sameElements_iff_eq BlockSignature.ne_eq_false_iff, SigKey.ne_eq_false_iff,
    Header.ne_eq_false_iff]
  constructor
  · rintro ⟨⟨⟨⟨⟨⟨hid, hheader⟩, hconfused⟩, hsig⟩, hval⟩, hkey⟩, hsigs⟩
    by_cases hsame : b.txs = b'.txs
    · exact Or.inl ⟨hid, hheader, hsame, hsig, hval, hkey, hsigs⟩
    · exact Or.inr ⟨⟨hid, hheader, rfl, hsig, hval, hkey, hsigs⟩, hconfused, hsame⟩
  · rintro (h | h)
    · refine ⟨⟨⟨⟨⟨⟨h.id, h.header⟩, ?_⟩, h.validatorSig⟩, h.validatorId⟩,
        h.validatorNextPublicKey⟩, h.validatorSigs⟩
      rw [h.txs]
      exact List.forall₂_same.mpr fun t _ => Or.inl rfl
    · exact ⟨⟨⟨⟨⟨⟨h.others.id, h.others.header⟩, h.confused⟩, h.others.validatorSig⟩,
        h.others.validatorId⟩, h.others.validatorNextPublicKey⟩, h.others.validatorSigs⟩

end Confusion

/--
`operator==` decides structural equality of two transactions unless it confuses
them, and agreement of two blocks unless it confuses these.
-/
theorem equality_structural_iff
    (t t' : Transaction) (b b' : Block) :
    ((t.equals t' = true ↔ t = t') ↔ ¬ t.ConfusedWith t') ∧
    ((b.equals b' = true ↔ b.Agrees b') ↔ ¬ b.ConfusedWith b') := by
  constructor
  · rw [Transaction.equals_iff_or]
    constructor
    · intro hexact hconfused
      exact hconfused.ne (hexact.mp (Or.inr hconfused))
    · intro hnot
      exact or_iff_left hnot
  · rw [Block.equals_iff_or]
    constructor
    · intro hexact hconfused
      exact hconfused.differ (hexact.mp (Or.inr hconfused)).txs
    · intro hnot
      exact or_iff_left hnot

/-- A transaction that pays 10 to the given wallet. -/
def payingTen (receiverID : UInt32) : Transaction :=
  { outputs := [⟨10, receiverID⟩] }

/-- Payments of 10 to two wallets, and blocks of them, are equal for the operators. -/
theorem different_receivers_are_equal :
    ((payingTen 1).equals (payingTen 2) = true ∧ payingTen 1 ≠ payingTen 2) ∧
      Block.equals { txs := [payingTen 1] } { txs := [payingTen 2] } = true ∧
      ¬ Block.Agrees { txs := [payingTen 1] } { txs := [payingTen 2] } := by
  refine ⟨⟨by decide, by decide⟩, by decide, ?_⟩
  intro hagrees
  exact absurd hagrees.txs (by decide)

end CosiCoin
