import CosiCoin.BlockModel
import CosiCoin.MerkleTrees
import CosiCoin.ReferencePlatform
import Mathlib.Data.Set.Function

/-!
# COSICOIN: the Merkle root of a header

`calculateMerkleRoot` hashes every transaction and then, while more than one hash
is left, replaces the hashes by those of adjacent pairs, after repeating the last
one when their number is odd.  One turn of that loop is a level of a Merkle tree,
so the loop ends with its root.

The root binds the digests of transaction lists of the same length as long as the
hash tells the strings apart that were hashed on the way.  No hash of 64
characters tells all strings apart, so this is asked of `merkleStrings` only.
-/

namespace CosiCoin

open MerkleTrees

namespace Header

section Loop

theorem duplicateLast_cons_cons
    (a b : Str) (rest : List Str) :
    duplicateLast (a :: b :: rest) = a :: b :: duplicateLast rest := by
  unfold duplicateLast
  cases rest with
  | nil =>
      simp
  | cons c rest =>
      simp only [List.length_cons, List.getLastD_cons]
      split_ifs with hodd hodd' hodd'
      · rfl
      · omega
      · omega
      · rfl

variable [Platform]

/-- The hash of two children. -/
def hashPair (a b : Str) : Str :=
  hash (a ++ b)

/-- One turn of the loop is one level of the tree. -/
theorem hashPairs_duplicateLast
    (hashes : List Str) :
    hashPairs (duplicateLast hashes) = level hashPair hashes := by
  induction hashes using level.induct with
  | case1 =>
      simp [duplicateLast, hashPairs, level]
  | case2 a =>
      simp [duplicateLast, hashPairs, level, hashPair]
  | case3 a b rest ih =>
      rw [duplicateLast_cons_cons, hashPairs, ih, level, hashPair]

/-- With a turn for every hash, and with any more, the loop ends with the root. -/
theorem merkleLoop_eq_root
    {k : Nat} :
    ∀ {hashes : List Str}, hashes ≠ [] → hashes.length ≤ k →
      ∃ r, root hashPair hashes = some r ∧ merkleLoop k hashes = [r] := by
  induction k with
  | zero =>
      intro hashes hne hlen
      exact absurd (List.length_eq_zero_iff.mp (Nat.le_zero.mp hlen)) hne
  | succ k ih =>
      intro hashes hne hlen
      unfold merkleLoop
      by_cases hone : hashes.length > 1
      · rw [if_pos hone, hashPairs_duplicateLast, root_of_one_lt hone]
        have hlt : (level hashPair hashes).length < hashes.length := length_level_lt hone
        refine ih ?_ (by omega)
        rw [← List.length_pos_iff, length_level]
        omega
      · have hlen' : hashes.length = 1 := by
          have hpos := List.length_pos_iff.mpr hne
          omega
        obtain ⟨r, rfl⟩ := List.length_eq_one_iff.mp hlen'
        rw [if_neg hone]
        exact ⟨r, by rw [root], rfl⟩

/-- What `calculateMerkleRoot` stores. -/
theorem calculateMerkleRoot_eq_root
    (h : Header) {txs : List Transaction}
    (hne : txs ≠ []) :
    ∃ r, root hashPair (txs.map Transaction.getDigest) = some r ∧
      (∀ k, txs.length ≤ k → merkleLoop k (txs.map Transaction.getDigest) = [r]) ∧
      (h.calculateMerkleRoot txs).merkleRoot = r := by
  have hne' : txs.map Transaction.getDigest ≠ [] := by simpa using hne
  obtain ⟨r, hroot, hloop⟩ := merkleLoop_eq_root hne' (Nat.le_refl _)
  refine ⟨r, hroot, ?_, ?_⟩
  · intro k hk
    obtain ⟨r', hroot', hloop'⟩ := merkleLoop_eq_root (k := k) hne' (by simpa using hk)
    rw [hroot] at hroot'
    rw [hloop', Option.some.inj hroot']
  · unfold calculateMerkleRoot
    rw [if_neg hne]
    dsimp only
    rw [hloop]
    rfl

end Loop

section Strings

/-- The strings hashed in one turn of the loop. -/
def pairStrings : List Str → List Str
  | a :: b :: rest => (a ++ b) :: pairStrings rest
  | _ => []

theorem pairStrings_duplicateLast
    (hashes : List Str) :
    pairStrings (duplicateLast hashes) = (levelPairs hashes).map fun p => p.1 ++ p.2 := by
  induction hashes using level.induct with
  | case1 =>
      simp [duplicateLast, pairStrings, levelPairs]
  | case2 a =>
      simp [duplicateLast, pairStrings, levelPairs]
  | case3 a b rest ih =>
      rw [duplicateLast_cons_cons, pairStrings, ih, levelPairs, List.map_cons]

variable [Platform]

/-- The strings hashed by the loop, turn by turn. -/
def loopStrings : Nat → List Str → List Str
  | 0, _ => []
  | k + 1, hashes =>
      if hashes.length > 1 then
        pairStrings (duplicateLast hashes) ++ loopStrings k (hashPairs (duplicateLast hashes))
      else []

/-- All strings hashed by `calculateMerkleRoot`, those of the transactions first. -/
def merkleStrings (txs : List Transaction) : List Str :=
  txs.map Transaction.getStringDigest ++
    loopStrings txs.length (txs.map Transaction.getDigest)

theorem merkleStrings_pair
    (t s : Transaction) :
    merkleStrings [t, s] =
      [t.getStringDigest, s.getStringDigest, t.getDigest ++ s.getDigest] := by
  simp [merkleStrings, loopStrings, pairStrings, duplicateLast, hashPairs]

theorem loopStrings_eq
    {k : Nat} :
    ∀ {hashes : List Str}, hashes.length ≤ k →
      loopStrings k hashes = (combinedPairs hashPair hashes).map fun p => p.1 ++ p.2 := by
  induction k with
  | zero =>
      intro hashes hlen
      obtain rfl := List.length_eq_zero_iff.mp (Nat.le_zero.mp hlen)
      simp [loopStrings, combinedPairs]
  | succ k ih =>
      intro hashes hlen
      unfold loopStrings
      by_cases hone : hashes.length > 1
      · have hlt : (level hashPair hashes).length < hashes.length := length_level_lt hone
        rw [if_pos hone, pairStrings_duplicateLast, hashPairs_duplicateLast, ih (by omega),
          combinedPairs_of_one_lt hone, List.map_append]
      · rw [if_neg hone]
        cases hashes with
        | nil => simp [combinedPairs]
        | cons a rest =>
            cases rest with
            | nil => simp [combinedPairs]
            | cons b rest => simp at hone

/-- The root of the digests, when no two hashed strings collide, determines them. -/
theorem digests_eq_of_root_eq
    {txs txs' : List Transaction}
    (hlength : ∀ s : Str, (hash s).length = 64)
    (hinj : Set.InjOn hash {s | s ∈ merkleStrings txs ∨ s ∈ merkleStrings txs'})
    (hlen : txs.length = txs'.length)
    (h : root hashPair (txs.map Transaction.getDigest) =
      root hashPair (txs'.map Transaction.getDigest)) :
    txs.map Transaction.getDigest = txs'.map Transaction.getDigest := by
  have hmem : ∀ {ts : List Transaction} {p : Str × Str},
      p ∈ combinedPairs hashPair (ts.map Transaction.getDigest) →
        p.1 ++ p.2 ∈ merkleStrings ts ∧ p.1.length = 64 := by
    intro ts p hp
    constructor
    · rw [merkleStrings, loopStrings_eq (by simp)]
      exact List.mem_append_right _ (List.mem_map_of_mem hp)
    · refine (forall_combinedPairs (P := fun s => s.length = 64) (fun a b => hlength _) ?_ p hp).1
      intro a ha
      obtain ⟨t, _, rfl⟩ := List.mem_map.mp ha
      exact hlength _
  refine root_inj (by simpa using hlen) ?_ h
  intro p hp q hq heq
  have hstrings := hinj (Or.inl (hmem hp).1) (Or.inr (hmem hq).1) heq
  obtain ⟨hfst, hsnd⟩ := List.append_inj hstrings ((hmem hp).2.trans (hmem hq).2.symm)
  exact Prod.ext hfst hsnd

theorem digests_eq_of_merkleRoot_eq
    {h h' : Header} {txs txs' : List Transaction}
    (hlength : ∀ s : Str, (hash s).length = 64)
    (hinj : Set.InjOn hash {s | s ∈ merkleStrings txs ∨ s ∈ merkleStrings txs'})
    (hlen : txs.length = txs'.length)
    (hroots : (h.calculateMerkleRoot txs).merkleRoot = (h'.calculateMerkleRoot txs').merkleRoot) :
    txs.map Transaction.getDigest = txs'.map Transaction.getDigest := by
  by_cases hne : txs = []
  · subst hne
    rw [List.length_eq_zero_iff.mp hlen.symm]
  · have hne' : txs' ≠ [] := by
      have hpos := List.length_pos_iff.mpr hne
      exact List.ne_nil_of_length_pos (hlen ▸ hpos)
    obtain ⟨r, hroot, _, hstored⟩ := calculateMerkleRoot_eq_root h hne
    obtain ⟨r', hroot', _, hstored'⟩ := calculateMerkleRoot_eq_root h' hne'
    refine digests_eq_of_root_eq hlength hinj hlen ?_
    rw [hroot, hroot', ← hstored, ← hstored', hroots]

end Strings

/--
The loop of `calculateMerkleRoot` ends with the root of the Merkle tree.  If the
hash has 64 characters and tells the hashed strings apart, lists of the same
length with the same root have the same digests.
-/
theorem merkleRoot_reference_and_binding
    [Platform] :
    (∀ (h : Header) (txs : List Transaction), txs ≠ [] →
      ∃ r, root hashPair (txs.map Transaction.getDigest) = some r ∧
        (∀ k, txs.length ≤ k → merkleLoop k (txs.map Transaction.getDigest) = [r]) ∧
        (h.calculateMerkleRoot txs).merkleRoot = r) ∧
    ((∀ s : Str, (hash s).length = 64) →
      ∀ (h h' : Header) (txs txs' : List Transaction), txs.length = txs'.length →
        Set.InjOn hash {s | s ∈ merkleStrings txs ∨ s ∈ merkleStrings txs'} →
        (h.calculateMerkleRoot txs).merkleRoot = (h'.calculateMerkleRoot txs').merkleRoot →
        txs.map Transaction.getDigest = txs'.map Transaction.getDigest) := by
  refine ⟨fun h txs hne => calculateMerkleRoot_eq_root h hne, ?_⟩
  intro hlength h h' txs txs' hlen hinj hroots
  exact digests_eq_of_merkleRoot_eq hlength hinj hlen hroots

/-- Two copies of transaction 1, which the digest does not tell from those of another sender. -/
theorem two_copies_bound :
    letI := referencePlatform
    [({ txID := 1 } : Transaction), { txID := 1 }].map Transaction.getDigest =
      [({ txID := 1, senderID := 1 } : Transaction), { txID := 1, senderID := 1 }].map
        Transaction.getDigest := by
  let _ := referencePlatform
  have hstrings : ∀ s, s ∈ merkleStrings [{ txID := 1 }, { txID := 1 }] ∨
      s ∈ merkleStrings [{ txID := 1, senderID := 1 }, { txID := 1, senderID := 1 }] →
      s = [49] ∨ s = Sha256.digest [49] ++ Sha256.digest [49] := by
    intro s hs
    have hfirst : ({ txID := 1 } : Transaction).getStringDigest = [49] := rfl
    have hsecond : ({ txID := 1, senderID := 1 } : Transaction).getStringDigest = [49] := rfl
    simp only [merkleStrings_pair, Transaction.getDigest, hfirst, hsecond, or_self,
      List.mem_cons, List.not_mem_nil, or_false, or_self_left] at hs
    exact hs
  have hne : Sha256.digest [49] ≠ Sha256.digest (Sha256.digest [49] ++ Sha256.digest [49]) := by
    decide +kernel
  refine merkleRoot_reference_and_binding.2 (fun s => (Sha256.isHexDigest_digest s).1) {} {} _ _
    rfl ?_ rfl
  intro s hs s' hs' heq
  rcases hstrings s hs with rfl | rfl
  · rcases hstrings s' hs' with rfl | rfl
    · rfl
    · exact absurd heq hne
  · rcases hstrings s' hs' with rfl | rfl
    · exact absurd heq.symm hne
    · rfl

end Header

end CosiCoin
