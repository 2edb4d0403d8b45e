import CosiCoin.Sha256Streaming

/-!
# COSICOIN: collisions of the digest

Identifiers, names of files and signed texts are all digests.  Two different
messages of one digest lead to two different inputs of `SHA256::processBlock` with
one output, found among the blocks that are compressed for the two messages
(`digest_eq_cases`).  The padding carries the length in its last eight bytes, which
is what makes this true of messages of different lengths; from 2^61 bytes on the
length wraps around.
-/

namespace CosiCoin
namespace SHA256

open Sha256 (Words hexDigit hexWord digest padded)

section Injectivity

theorem hexDigit_injective
    {m n : Nat}
    (hm : m < 16)
    (hn : n < 16)
    (h : hexDigit m = hexDigit n) :
    m = n := by
  have hnat := congrArg UInt8.toNat h
  simp only [hexDigit, UInt8.toNat_ofNat'] at hnat
  split_ifs at hnat <;> omega

theorem hexWord_injective
    {w w' : UInt32}
    (h : hexWord w = hexWord w') :
    w = w' := by
  have hdigit : ∀ i < 8, w.toNat / 16 ^ (7 - i) % 16 = w'.toNat / 16 ^ (7 - i) % 16 := by
    intro i hi
    have hget := congrArg (fun s => s[i]?) h
    simp only [hexWord, List.getElem?_map, List.getElem?_range hi, Option.map_some,
      Option.some.injEq] at hget
    exact hexDigit_injective (Nat.mod_lt _ (by omega)) (Nat.mod_lt _ (by omega)) hget
  have h0 := hdigit 0 (by omega)
  have h1 := hdigit 1 (by omega)
  have h2 := hdigit 2 (by omega)
  have h3 := hdigit 3 (by omega)
  have h4 := hdigit 4 (by omega)
  have h5 := hdigit 5 (by omega)
  have h6 := hdigit 6 (by omega)
  have h7 := hdigit 7 (by omega)
  have hw := w.toNat_lt
  have hw' := w'.toNat_lt
  apply UInt32.toNat_inj.mp
  simp only [Nat.reduceSub, Nat.reducePow] at h0 h1 h2 h3 h4 h5 h6 h7
  omega

/-- The text of a digest determines its eight words. -/
theorem digestWords_of_digest_eq
    {m m' : Str}
    (h : digest m = digest m') :
    digestWords m = digestWords m' := by
  have hwords : ∀ data : Str, digest data =
      hexWord (digestWords data).a ++ hexWord (digestWords data).b ++
        hexWord (digestWords data).c ++ hexWord (digestWords data).d ++
        hexWord (digestWords data).e ++ hexWord (digestWords data).f ++
        hexWord (digestWords data).g ++ hexWord (digestWords data).h := fun _ => rfl
  rw [hwords, hwords] at h
  generalize digestWords m = r at h ⊢
  generalize digestWords m' = r' at h ⊢
  obtain ⟨h, hh⟩ := List.append_inj' h (by simp)
  obtain ⟨h, hg⟩ := List.append_inj' h (by simp)
  obtain ⟨h, hf⟩ := List.append_inj' h (by simp)
  obtain ⟨h, he⟩ := List.append_inj' h (by simp)
  obtain ⟨h, hd⟩ := List.append_inj' h (by simp)
  obtain ⟨h, hc⟩ := List.append_inj' h (by simp)
  obtain ⟨ha, hb⟩ := List.append_inj' h (by simp)
  cases r
  cases r'
  simp only [Words.mk.injEq]
  exact ⟨hexWord_injective ha, hexWord_injective hb, hexWord_injective hc, hexWord_injective hd,
    hexWord_injective he, hexWord_injective hf, hexWord_injective hg, hexWord_injective hh⟩

theorem lengthBytes_injective
    {x y : UInt64}
    (h : lengthBytes x = lengthBytes y) :
    x = y := by
  have hbyte : ∀ k : UInt64, ((x >>> k) &&& 0xFF).toUInt8 = ((y >>> k) &&& 0xFF).toUInt8 →
      x.toNat / 2 ^ (k.toNat % 64) % 256 = y.toNat / 2 ^ (k.toNat % 64) % 256 := by
    intro k hk
    rw [byte_of_UInt64, byte_of_UInt64] at hk
    have hnat := congrArg UInt8.toNat hk
    rw [UInt8.toNat_ofNat', UInt8.toNat_ofNat'] at hnat
    exact hnat
  have hzero : ∀ z : UInt64, z >>> 0 = z := fun z => UInt64.shiftRight_zero
  simp only [lengthBytes, List.cons.injEq, and_true] at h
  obtain ⟨e7, e6, e5, e4, e3, e2, e1, e0⟩ := h
  have h7 := hbyte 56 e7
  have h6 := hbyte 48 e6
  have h5 := hbyte 40 e5
  have h4 := hbyte 32 e4
  have h3 := hbyte 24 e3
  have h2 := hbyte 16 e2
  have h1 := hbyte 8 e1
  have h0 := hbyte 0 (by rw [hzero, hzero]; exact e0)
  have hx := x.toNat_lt
  have hy := y.toNat_lt
  apply UInt64.toNat_inj.mp
  simp only [UInt64.reduceToNat, Nat.reduceMod, Nat.reducePow] at h0 h1 h2 h3 h4 h5 h6 h7
  omega

end Injectivity

section LastBlock

/-- The last eight bytes of the padded message are its length. -/
theorem last_block_drop
    {m head block : Str} {k : Nat}
    (hpadded : padded m = head ++ block)
    (hhead : head.length = 64 * k)
    (hblock : block.length = 64) :
    block.drop 56 = lengthBytes (8 * UInt64.ofNat m.length) := by
  have hsplit : ∃ front, padded m = front ++ lengthBytes (8 * UInt64.ofNat m.length) := by
    rw [padded_eq_bufferPadding, bufferPadding, ← List.cons_append, ← List.append_assoc]
    exact ⟨_, rfl⟩
  obtain ⟨front, hfront⟩ := hsplit
  have hlen : front.length = head.length + 56 := by
    have htotal := congrArg List.length (hfront.symm.trans hpadded)
    rw [List.length_append, List.length_append, length_lengthBytes, hblock] at htotal
    omega
  calc
    block.drop 56 = (head ++ block).drop (head.length + 56) := by
      rw [List.drop_length_add_append]
    _ = (front ++ lengthBytes (8 * UInt64.ofNat m.length)).drop front.length := by
      rw [← hpadded, hfront, hlen]
    _ = lengthBytes (8 * UInt64.ofNat m.length) := by
      rw [List.drop_left]

/-- Below 2^61 bytes the stored length determines the length. -/
theorem length_of_lengthBytes_eq
    {m m' : Str}
    (hm : m.length < 2 ^ 61)
    (hm' : m'.length < 2 ^ 61)
    (h : lengthBytes (8 * UInt64.ofNat m.length) = lengthBytes (8 * UInt64.ofNat m'.length)) :
    m.length = m'.length := by
  have hnat := congrArg UInt64.toNat (lengthBytes_injective h)
  simp only [UInt64.toNat_mul, UInt64.toNat_ofNat', UInt64.reduceToNat] at hnat
  omega

/-- Messages of one length have different padded messages. -/
theorem eq_of_padded_eq
    {m m' : Str}
    (hlen : m.length = m'.length)
    (h : padded m = padded m') :
    m = m' := by
  rw [padded_eq_bufferPadding, padded_eq_bufferPadding] at h
  exact (List.append_inj h hlen).1

/-- The inputs of the compression function for a message. -/
def compressed (m : Str) : List (Words × Str) :=
  BlockStreaming.inputs 64 processBlock ((padded m).length / 64) (padded m) Sha256.seed

/-- Two messages of one digest are equal, or inputs of the compression function
met for them collide. -/
theorem digest_eq_cases
    (m m' : Str)
    (hm : m.length < 2 ^ 61)
    (hm' : m'.length < 2 ^ 61) :
    m = m' ∨ digest m ≠ digest m' ∨
      BlockStreaming.Collide processBlock (compressed m) (compressed m') := by
  by_cases heq : m = m'
  · exact .inl heq
  by_cases hdigest : digest m = digest m'
  · refine .inr (.inr ?_)
    have hwords := digestWords_of_digest_eq hdigest
    rw [digestWords_eq_feed, digestWords_eq_feed] at hwords
    have hk : (padded m).length / 64 = (m.length + 8) / 64 + 1 := by
      rw [Sha256.length_padded]
      omega
    have hk' : (padded m').length / 64 = (m'.length + 8) / 64 + 1 := by
      rw [Sha256.length_padded]
      omega
    obtain ⟨head, block, hpadded, hhead, hblock⟩ :=
      BlockStreaming.exists_last_block (Sha256.length_padded m)
    obtain ⟨head', block', hpadded', hhead', hblock'⟩ :=
      BlockStreaming.exists_last_block (Sha256.length_padded m')
    have hlast : block = block' → m.length = m'.length := by
      intro h
      apply length_of_lengthBytes_eq hm hm'
      rw [← last_block_drop hpadded hhead hblock, ← last_block_drop hpadded' hhead' hblock', h]
    rw [hk, hk', hpadded, hpadded'] at hwords
    rw [compressed, compressed, hk, hk', hpadded, hpadded']
    refine BlockStreaming.collide_of_feed_eq hhead hhead' hblock hblock' ?_ ?_ hwords
    · intro h
      rw [hlast h]
    · intro h
      have hlen := hlast (List.append_inj' h (hblock.trans hblock'.symm)).2
      exact heq (eq_of_padded_eq hlen (hpadded.trans (h.trans hpadded'.symm)))
  · exact .inr (.inl hdigest)

/-- Two texts of one byte. -/
theorem digest_of_one_byte :
    [97] = ([98] : Str) ∨ digest [97] ≠ digest [98] ∨
      BlockStreaming.Collide processBlock (compressed [97]) (compressed [98]) :=
  digest_eq_cases [97] [98] (by simp) (by simp)

end LastBlock

end SHA256
end CosiCoin
