import CosiCoin.DigestPreimages
import CosiCoin.ImpersonationControl
import CosiCoin.KeyChainRuns
import CosiCoin.OneTimeSignatures
import CosiCoin.SignatureMeaning

/-!
# COSICOIN: what can be signed without the private key

The signatures of lib/signature/hash.cc reveal one of two strings at each of 256
positions.  From the signatures of some texts under one key, exactly those texts
can be signed whose every bit occurs in one of them (`mixable_iff`).  A node signs
one text with each key.  Along a run of a sender, a block that verifies under one
of its keys has the first 32 characters of its digest in common with the message
signed with that key, or its signature holds a preimage of an entry the run has
not revealed (`accepted_block_was_signed`).
-/

namespace CosiCoin

section Texts

/-- The choices of a text. -/
def selection (text : Str) : Fin keyLen → Bool :=
  fun i => stringToBitset (crop text) i

/-- The strings of a signature. -/
def revealed (sig : List Str) : Fin keyLen → Str :=
  fun i => sig.getD i []

/-- The entries of a key. -/
def SigKey.entries (k : SigKey) : Fin keyLen → Bool → Str :=
  fun i bit => k.entry bit i

theorem selection_eq_iff
    (m m' : Str) :
    selection m = selection m' ↔ pad m = pad m' := by
  rw [← bits_eq_iff_pad]
  constructor
  · intro h i hi
    exact congrFun h ⟨i, hi⟩
  · intro h
    funext i
    exact h i i.isLt

/-- A digest of 64 characters is cut to its first 32. -/
theorem pad_of_length
    {m : Str}
    (hm : 32 ≤ m.length) :
    pad m = m.take 32 := by
  apply List.ext_getElem
  · simp [pad, keyLen, hm]
  · intro i hi _
    have hlt : i < m.length := by
      simp [pad, keyLen] at hi
      omega
    simp [pad, List.getD_eq_getElem?_getD, hlt]

variable [Platform]

/-- `Verify` compares every revealed string with the chosen entry. -/
theorem verify_eq_one_iff
    (m : Str) (sig : List Str) (k : SigKey) :
    verify m sig k = 1 ↔
      k.FullLength ∧ sig.length = keyLen ∧
        OneTimeSignatures.Verifies hash k.entries (selection m) (revealed sig) := by
  constructor
  · intro h
    obtain ⟨hfull, hlen⟩ := length_of_verify h
    exact ⟨hfull, hlen, fun i => (entry_eq_hash_of_verify h i.isLt).symm⟩
  · rintro ⟨hfull, hlen, hver⟩
    unfold verify
    rw [if_pos ⟨hfull, hlen⟩, if_pos]
    rw [List.all_eq_true]
    intro i hi
    exact beq_iff_eq.mpr (hver ⟨i, List.mem_range.mp hi⟩).symm

end Texts

section Mixtures

variable [Platform]

/-- A signature each of whose strings stands at its place in one of the others. -/
def PutTogether (sigs : List (List Str)) (sig : List Str) : Prop :=
  sig.length = keyLen ∧ ∀ i < keyLen, ∃ s ∈ sigs, s.getD i [] = sig.getD i []

/-- The signatures of some texts with their choices. -/
def signedTexts (s : Signature) (texts : List Str) : List ((Fin keyLen → Bool) × (Fin keyLen → Str)) :=
  texts.map fun t => (selection t, revealed (sign t s.privateKey))

theorem signedTexts_verify
    {s : Signature}
    (hs : s.WellFormed)
    {texts : List Str} :
    ∀ p ∈ signedTexts s texts,
      OneTimeSignatures.Verifies hash s.publicKey.entries p.1 p.2 := by
  intro p hp
  obtain ⟨t, _, rfl⟩ := List.mem_map.mp hp
  exact ((verify_eq_one_iff t _ _).mp (verify_sign hs t)).2.2

/--
From the signatures of some texts, a signature of `m` can be put together exactly
if each bit of `m` occurs at its position in one of the texts.
-/
theorem mixable_iff
    {s : Signature}
    (hs : s.WellFormed)
    (hsep : s.publicKey.Separated)
    (texts : List Str)
    (m : Str) :
    (∃ sig, PutTogether (texts.map fun t => sign t s.privateKey) sig ∧
        verify m sig s.publicKey = 1) ↔
      OneTimeSignatures.Covered (texts.map selection) (selection m) := by
  constructor
  · rintro ⟨sig, ⟨_, hsig⟩, hver⟩ i
    obtain ⟨s', hs', hget⟩ := hsig i i.isLt
    obtain ⟨t, ht, rfl⟩ := List.mem_map.mp hs'
    refine ⟨selection t, List.mem_map_of_mem ht, ?_⟩
    -- the string was revealed for one bit, and the two entries differ
    have hentry := entry_eq_hash_of_verify hver i.isLt
    rw [← hget, sign_getD hs.1 t i.isLt, ← hs.hash_entry i.isLt] at hentry
    exact (hsep.entry_inj i.isLt hentry).symm
  · intro hcov
    have hmap : (signedTexts s texts).map Prod.fst = texts.map selection := by
      simp [signedTexts, Function.comp_def]
    rw [← hmap] at hcov
    obtain ⟨strings, hmix⟩ := hcov.exists_mixed
    have hver := hmix.verifies (signedTexts_verify hs)
    refine ⟨List.ofFn strings, ⟨List.length_ofFn, ?_⟩, ?_⟩
    · intro i hi
      obtain ⟨p, hp, _, hstring⟩ := hmix ⟨i, hi⟩
      obtain ⟨t, ht, rfl⟩ := List.mem_map.mp hp
      refine ⟨sign t s.privateKey, List.mem_map_of_mem ht, ?_⟩
      simp only [revealed] at hstring
      rw [hstring]
      simp [List.getD_eq_getElem?_getD, hi]
    · rw [verify_eq_one_iff]
      refine ⟨hs.publicKey_fullLength, List.length_ofFn, ?_⟩
      have hrevealed : revealed (List.ofFn strings) = strings := by
        funext i
        simp [revealed, List.getD_eq_getElem?_getD]
      rw [hrevealed]
      exact hver

end Mixtures

/-- The bits of one byte can be mixed: 1 and 2 together cover 3, and not 4. -/
theorem mixable_bytes :
    letI := referencePlatform
    let pair := keyGen fun _ => (equalBytes 1, equalBytes 2)
    (∃ sig, PutTogether ([[1], [2]].map fun t => sign t pair.privateKey) sig ∧
      verify [3] sig pair.publicKey = 1) ∧
    ¬ ∃ sig, PutTogether ([[1], [2]].map fun t => sign t pair.privateKey) sig ∧
      verify [4] sig pair.publicKey = 1 := by
  let _ := referencePlatform
  have hne : hash (equalBytes 1) ≠ hash (equalBytes 2) := by
    show Sha256.digest (equalBytes 1) ≠ Sha256.digest (equalBytes 2)
    decide +kernel
  have hmix := mixable_iff (keyGen_wellFormed fun _ => (equalBytes 1, equalBytes 2))
    (keyGen_publicKey_separated hne) [[1], [2]]
  refine ⟨(hmix [3]).mpr ?_, fun h => ?_⟩
  · intro i
    revert i
    unfold keyLen
    decide +kernel
  · obtain ⟨c, hc, hbit⟩ := (hmix [4]).mp h ⟨2, by decide⟩
    revert hc hbit
    simp only [List.map_cons, List.map_nil, List.mem_cons, List.not_mem_nil, or_false]
    rintro (rfl | rfl) <;> decide +kernel

section Senders

variable [P : Platform]

/-- The digests a run has signed with a private key. -/
def signedDigests (log : List (SigKey × Message)) (key : SigKey) : List Str :=
  log.filterMap fun p => if p.1 = key then p.2.block.getDigest.toOption else none

theorem mem_signedDigests
    {log : List (SigKey × Message)} {key : SigKey} {d : Str}
    (h : d ∈ signedDigests log key) :
    ∃ (i : Nat) (m : Message), log[i]? = some (key, m) ∧ m.block.getDigest = .ok d := by
  obtain ⟨p, hp, hd⟩ := List.mem_filterMap.mp h
  split_ifs at hd with hkey
  obtain ⟨i, hi⟩ := List.getElem?_of_mem hp
  refine ⟨i, p.2, ?_, ?_⟩
  · rw [hi, ← hkey]
  · cases hdigest : p.2.block.getDigest with
    | ok d' =>
        rw [hdigest] at hd
        rw [Option.some.inj hd]
    | error e =>
        rw [hdigest] at hd
        cases hd

/-- With no pair drawn twice, key `i` signs message `i` and no other. -/
theorem SenderKeys.index_eq
    {id : UInt16} {urandom : Nat → Draw} {log : List (SigKey × Message)} {nd : Node}
    (hinv : SenderKeys id urandom log nd)
    (hfresh : Set.InjOn (fun i => keyGen (urandom i)) (Set.Iio nd.drawn))
    {i j : Nat} {m : Message}
    (hi : i ≤ log.length)
    (hj : log[j]? = some ((keyGen (urandom i)).privateKey, m)) :
    j = i := by
  obtain ⟨hlt, hget⟩ := List.getElem?_eq_some_iff.mp hj
  have hkeys := congrArg (fun l => l[j]?) hinv.keys
  simp only [List.getElem?_map, List.getElem?_range hlt, hj, Option.map_some,
    Option.some.injEq] at hkeys
  have hdrawn := hinv.drawn
  refine hfresh ?_ ?_ (keyGen_eq_of_privateKey_eq hkeys.symm)
  · exact Set.mem_Iio.mpr (by omega)
  · exact Set.mem_Iio.mpr (by omega)

/-- The digests of a block and of message `i` of the run agree in 32 characters. -/
def SharesDigest (log : List (SigKey × Message)) (i : Nat) (digest : Str) : Prop :=
  ∃ p digest', log[i]? = some p ∧ p.2.block.getDigest = .ok digest' ∧
    digest.take 32 = digest'.take 32

variable [LawfulPlatform P]

theorem length_of_getDigest
    {b : Block} {digest : Str}
    (h : b.getDigest = .ok digest) :
    digest.length = 64 := by
  obtain ⟨text, _, rfl⟩ := getDigest_eq_hash h
  exact (LawfulPlatform.hash_hex text).1

/--
A receiver that holds a key the sender has announced, and accepts a block with it,
accepts a message the sender has signed with that key, up to the characters of the
digest that are not signed, or the block's signature holds a preimage of an entry
no message of the sender has revealed.
-/
theorem accepted_block_was_signed
    {id : UInt16} {n f : Nat} {isLead : Bool} {urandom : Nat → Draw}
    {erasedRead : Nat → Str → Str}
    {log : List (SigKey × Message)} {nd rc rc' : Node} {b : Block} {digest : Str} {i : Nat}
    (hrun : Sending (Node.new id n f isLead urandom erasedRead) log nd)
    (hfresh : Set.InjOn (fun i => keyGen (urandom i)) (Set.Iio nd.drawn))
    (hi : i ≤ log.length)
    (hkey : rc.valSigKeys.lookup b.validatorId = some (keyGen (urandom i)).publicKey)
    (hdigest : b.getDigest = .ok digest)
    (haccept : rc.checkBlockSig b = .ok (true, rc')) :
    SharesDigest log i digest ∨
      OneTimeSignatures.Inverts hash (keyGen (urandom i)).publicKey.entries
        ((signedDigests log (keyGen (urandom i)).privateKey).map selection)
        (selection digest) (revealed b.validatorSig) := by
  have hinv := hrun.senderKeys
  have hvalid : verify digest b.validatorSig (keyGen (urandom i)).publicKey = 1 := by
    rw [checkBlockSig_of_lookup hdigest hkey] at haccept
    exact beq_iff_eq.mp (Prod.mk.inj (Except.ok.inj haccept)).1
  obtain ⟨_, _, hver⟩ := (verify_eq_one_iff _ _ _).mp hvalid
  rcases hver.covered_or_inverts
    ((signedDigests log (keyGen (urandom i)).privateKey).map selection) with hcov | hinverts
  · left
    obtain ⟨c, hc⟩ := hcov.exists_mem ⟨0, by decide⟩
    obtain ⟨digest', hd', rfl⟩ := List.mem_map.mp hc
    obtain ⟨j, m, hj, hm⟩ := mem_signedDigests hd'
    obtain rfl := hinv.index_eq hfresh hi hj
    -- every digest signed with the key is that of message `j`
    have hunique : ∀ c' ∈ (signedDigests log (keyGen (urandom j)).privateKey).map selection,
        c' = selection digest' := by
      intro c' hc'
      obtain ⟨d, hd, rfl⟩ := List.mem_map.mp hc'
      obtain ⟨k, m', hk, hm'⟩ := mem_signedDigests hd
      obtain rfl := hinv.index_eq hfresh hi hk
      obtain rfl : m' = m := by simpa [hj] using hk.symm
      rw [hm] at hm'
      rw [Except.ok.inj hm']
    have hsame := (selection_eq_iff _ _).mp (hcov.eq_of_unique hunique)
    have hlen := length_of_getDigest hdigest
    have hlen' := length_of_getDigest hm
    rw [pad_of_length (by omega), pad_of_length (by omega)] at hsame
    exact ⟨_, digest', hj, hm, hsame.symm⟩
  · exact .inr hinverts

end Senders

/-- Validator 1 sends a block, and validator 2, which knows its first key, accepts it. -/
theorem first_block_was_signed :
    letI := referencePlatform
    ∃ (log : List (SigKey × Message)) (nd : Node) (b : Block) (digest : Str),
      Sending (Node.new 1 4 1 false numberedDraws keptRead) log nd ∧ log.length = 1 ∧
      (SharesDigest log 0 digest ∨
        OneTimeSignatures.Inverts hash (keyGen (numberedDraws 0)).publicKey.entries
          ((signedDigests log (keyGen (numberedDraws 0)).privateKey).map selection)
          (selection digest) (revealed b.validatorSig)) := by
  let _ := referencePlatform
  have h₀ : Sending (Node.new 1 4 1 false numberedDraws keptRead) [] _ := .start
  have hmut : ({ isMutable := false } : Block).isMutable = false := rfl
  obtain ⟨m, hm⟩ := exists_broadcastMessage h₀.senderKeys.pair_wellFormed hmut .send 0
  have h₁ := h₀.broadcast hmut hm
  obtain ⟨_, m', hsigns, hmm'⟩ := broadcastMessage_eq_ok hm
  obtain rfl : m = m' := by simpa using hmm'
  obtain ⟨⟨hid, hvalid, _⟩, _⟩ := Signs.chain h₀.senderKeys.pair_wellFormed hsigns
  obtain ⟨_, digest, _, hdigest⟩ := hsigns
  have hverify := (Block.validUnder_iff hdigest).mp hvalid
  let rc : Node :=
    { Node.new 2 4 1 false numberedDraws keptRead with
      valSigKeys := AList.insert m.block.validatorId (keyGen (numberedDraws 0)).publicKey ∅ }
  have hkey : rc.valSigKeys.lookup m.block.validatorId =
      some (keyGen (numberedDraws 0)).publicKey := AList.lookup_insert _
  have haccept := checkBlockSig_of_lookup hdigest hkey
  rw [h₀.senderKeys.pair, List.length_nil] at hverify
  rw [beq_iff_eq.mpr hverify] at haccept
  refine ⟨_, _, m.block, digest, h₁, rfl,
    accepted_block_was_signed h₁ ?_ (Nat.zero_le _) hkey hdigest haccept⟩
  refine numberedDraws_injOn.mono ?_
  intro k hk
  rw [h₁.senderKeys.drawn] at hk
  exact Set.mem_Iio.mpr ((Set.mem_Iio.mp hk).trans (Nat.lt_succ_self 2))

end CosiCoin
