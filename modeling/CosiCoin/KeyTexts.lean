import CosiCoin.WireRoundTrip

/-!
# COSICOIN: which documents are read as keys

`SigKey_to_string` refuses a key unless both halves have 256 entries.
`SigKey_from_string` tests the length of S0 twice and that of S1 never.  A
shorter S1 is refused all the same, since the missing entries read as null; a
longer one is cut to its first 256 entries.

So the texts read as keys are those with 256 strings in S0 and at least 256
strings in S1 (`sigKeyFromString_eq_ok_iff`), and reading is exact for all
documents but those in which S1 goes on after the 256 strings.
-/

namespace CosiCoin

open JsonText

section Halves

/-- The member is an array of exactly 256 strings. -/
def Json.HasHalf (j : Json) (name : Str) (half : List Str) : Prop :=
  j.at name = .ok (.arr (half.map .str)) ∧ half.length = keyLen

/-- The document has the two halves of a key. -/
def Json.HasKey (j : Json) (k : SigKey) : Prop :=
  j.HasHalf nameS0 k.S0 ∧ j.HasHalf nameS1 k.S1

/-- S0 has 256 strings, and S1 has further elements after 256 strings. -/
def Json.LongSecondHalf (j : Json) : Prop :=
  ∃ k : SigKey, j.HasHalf nameS0 k.S0 ∧ k.S1.length = keyLen ∧
    ∃ rest, rest ≠ [] ∧ j.at nameS1 = .ok (.arr (k.S1.map .str ++ rest))

/-- Reading `k` strings looks at the first `k` elements only. -/
theorem firstStrings_eq_ok_iff
    {n : Nat} {e : List Json} {l : List Str} :
    firstStrings n e = .ok l ↔ l.length = n ∧ ∃ rest, e = l.map .str ++ rest := by
  induction n generalizing e l with
  | zero =>
      constructor
      · intro h
        obtain rfl := Except.ok.inj h
        exact ⟨rfl, e, rfl⟩
      · rintro ⟨hlen, _⟩
        rw [List.length_eq_zero_iff.mp hlen]
        rfl
  | succ n ih =>
      constructor
      · intro h
        cases e with
        | nil => cases h
        | cons j e' =>
            cases j with
            | str s =>
                rw [firstStrings] at h
                cases hrest : firstStrings n e' with
                | error err =>
                    rw [hrest] at h
                    cases h
                | ok l' =>
                    rw [hrest] at h
                    obtain rfl := Except.ok.inj h
                    obtain ⟨hlen, rest, rfl⟩ := ih.mp hrest
                    exact ⟨by rw [List.length_cons, hlen], rest, rfl⟩
            | _ => cases h
      · rintro ⟨hlen, rest, rfl⟩
        obtain ⟨s, l', rfl⟩ := List.exists_cons_of_length_eq_add_one hlen
        have hread := ih.mpr ⟨Nat.succ.inj hlen, rest, rfl⟩
        rw [List.map_cons, List.cons_append, firstStrings, hread]
        rfl

/-- Some strings of a member can be read exactly if it is an array that starts with them. -/
theorem elements_firstStrings_iff
    {j : Json} {l : List Str} :
    (∃ e, j.elements = .ok e ∧ firstStrings keyLen e = .ok l) ↔
      l.length = keyLen ∧ ∃ rest, j = .arr (l.map .str ++ rest) := by
  constructor
  · rintro ⟨e, he, hl⟩
    obtain ⟨hlen, rest, rfl⟩ := firstStrings_eq_ok_iff.mp hl
    refine ⟨hlen, rest, ?_⟩
    cases j with
    | arr elements =>
        rw [Json.elements] at he
        rw [Except.ok.inj he]
    | null =>
        -- null has no elements, and 256 strings were read
        have hnil := (List.append_eq_nil_iff.mp (Except.ok.inj he).symm).1
        rw [List.map_eq_nil_iff.mp hnil] at hlen
        exact absurd hlen (by decide)
    | bool b => cases he
    | num n => cases he
    | str s => cases he
    | obj members => cases he
  · rintro ⟨hlen, rest, rfl⟩
    exact ⟨_, rfl, firstStrings_eq_ok_iff.mpr ⟨hlen, rest, rfl⟩⟩

end Halves

section Reading

variable [P : Platform]
variable {text : Str} {j : Json}

/-- The documents read as a key, and the key that is read. -/
theorem sigKeyFromString_eq_ok_iff
    (hparse : parse text = .ok j)
    (k : SigKey) :
    sigKeyFromString text = .ok k ↔
      j.HasHalf nameS0 k.S0 ∧ k.S1.length = keyLen ∧
        ∃ rest, j.at nameS1 = .ok (.arr (k.S1.map .str ++ rest)) := by
  constructor
  · intro h
    obtain ⟨j', hj, h⟩ := bind_eq_ok h
    obtain rfl := Except.ok.inj (hparse.symm.trans hj)
    obtain ⟨s0, hs0, h⟩ := bind_eq_ok h
    dsimp only at h
    split_ifs at h with hsize
    · cases h
    · obtain ⟨s1, hs1, h⟩ := bind_eq_ok h
      obtain ⟨e0, he0, h⟩ := bind_eq_ok h
      obtain ⟨e1, he1, h⟩ := bind_eq_ok h
      obtain ⟨S0, h0, h⟩ := bind_eq_ok h
      obtain ⟨S1, h1, h⟩ := bind_eq_ok h
      obtain rfl := Except.ok.inj h
      obtain ⟨hlen0, rest0, rfl⟩ := elements_firstStrings_iff.mp ⟨e0, he0, h0⟩
      obtain ⟨hlen1, rest1, rfl⟩ := elements_firstStrings_iff.mp ⟨e1, he1, h1⟩
      -- the length test leaves nothing after the 256 strings of S0
      have hnil : rest0 = [] := by
        rw [not_not, Json.size, List.length_append, List.length_map, hlen0] at hsize
        exact List.length_eq_zero_iff.mp (by omega)
      rw [hnil, List.append_nil] at hs0
      exact ⟨⟨hs0, hlen0⟩, hlen1, rest1, hs1⟩
  · rintro ⟨⟨hs0, hlen0⟩, hlen1, rest, hs1⟩
    have hsize : Json.size (.arr (k.S0.map .str)) = keyLen := by
      rw [Json.size, List.length_map, hlen0]
    have h0 : firstStrings keyLen (k.S0.map .str) = .ok k.S0 :=
      firstStrings_eq_ok_iff.mpr ⟨hlen0, [], by rw [List.append_nil]⟩
    have h1 : firstStrings keyLen (k.S1.map .str ++ rest) = .ok k.S1 :=
      firstStrings_eq_ok_iff.mpr ⟨hlen1, rest, rfl⟩
    simp [sigKeyFromString, hparse, hs0, hsize, hs1, Json.elements, h0, h1, bind, Except.bind,
      pure, Except.pure]

/-- The text is read as a key exactly if its document is one, and the key is the one it has. -/
structure DecodesExactly (text : Str) (j : Json) : Prop where
  accepts : (∃ k, sigKeyFromString text = .ok k) ↔ ∃ k, j.HasKey k
  reads : ∀ k, j.HasKey k → sigKeyFromString text = .ok k
  rewrites : ∀ k, sigKeyFromString text = .ok k →
    ∃ text' j', sigKeyToString k = .ok text' ∧ parse text' = .ok j' ∧
      j'.at nameS0 = j.at nameS0 ∧ j'.at nameS1 = j.at nameS1

theorem sigKeyFromString_of_hasKey
    (hparse : parse text = .ok j)
    {k : SigKey}
    (h : j.HasKey k) :
    sigKeyFromString text = .ok k := by
  refine (sigKeyFromString_eq_ok_iff hparse k).mpr ⟨h.1, h.2.2, [], ?_⟩
  rw [List.append_nil]
  exact h.2.1

/-- What is read, unless S1 goes on after 256 strings, is the key of the document. -/
theorem hasKey_of_sigKeyFromString
    (hparse : parse text = .ok j)
    (hshort : ¬ j.LongSecondHalf)
    {k : SigKey}
    (h : sigKeyFromString text = .ok k) :
    j.HasKey k := by
  obtain ⟨h0, hlen1, rest, h1⟩ := (sigKeyFromString_eq_ok_iff hparse k).mp h
  have hnil : rest = [] := by
    by_contra hne
    exact hshort ⟨k, h0, hlen1, rest, hne, h1⟩
  rw [hnil, List.append_nil] at h1
  exact ⟨h0, h1, hlen1⟩

/-- A document with a long second half is read, and has no key. -/
theorem not_decodesExactly_of_longSecondHalf
    (hparse : parse text = .ok j)
    (hlong : j.LongSecondHalf) :
    ¬ DecodesExactly text j := by
  obtain ⟨k, h0, hlen1, rest, hne, h1⟩ := hlong
  intro h
  have hread := (sigKeyFromString_eq_ok_iff hparse k).mpr ⟨h0, hlen1, rest, h1⟩
  obtain ⟨k', _, h1', hlen1'⟩ := h.accepts.mp ⟨k, hread⟩
  have hsame := Json.arr.inj (Except.ok.inj (h1.symm.trans h1'))
  have hlength := congrArg List.length hsame
  rw [List.length_append, List.length_map, List.length_map, hlen1, hlen1'] at hlength
  exact hne (List.length_eq_zero_iff.mp (by omega))

variable [LawfulPlatform P] [UnicodeJson P]

/-- A key that was read is written to a document with the same halves. -/
theorem exists_rewritten
    {k : SigKey}
    (hread : sigKeyFromString text = .ok k)
    (hkey : j.HasKey k) :
    ∃ text' j', sigKeyToString k = .ok text' ∧ parse text' = .ok j' ∧
      j'.at nameS0 = j.at nameS0 ∧ j'.at nameS1 = j.at nameS1 := by
  have hprintable := printable_of_sigKeyFromString hread
  obtain ⟨text', htext', _⟩ := sigKeyToString_utf8 hprintable
  have hdump := htext'
  rw [sigKeyToString, if_pos hprintable.full] at hdump
  refine ⟨text', _, htext', LawfulPlatform.parse_dump hdump, ?_, ?_⟩
  · rw [hkey.1.1]
    rfl
  · rw [hkey.2.1]
    rfl

/--
For every document, reading is exact if and only if S1 does not go on after 256
strings next to an S0 of 256 strings; and every printable key comes back from
its text.
-/
theorem key_decoding_exact_iff :
    (∀ (text : Str) (j : Json), parse text = .ok j →
      (DecodesExactly text j ↔ ¬ j.LongSecondHalf)) ∧
    ∀ k : SigKey, k.Printable →
      ∃ text, sigKeyToString k = .ok text ∧ sigKeyFromString text = .ok k := by
  refine ⟨?_, ?_⟩
  · intro text j hparse
    constructor
    · intro h hlong
      exact not_decodesExactly_of_longSecondHalf hparse hlong h
    · intro hshort
      refine ⟨⟨?_, ?_⟩, fun k => sigKeyFromString_of_hasKey hparse, ?_⟩
      · rintro ⟨k, hread⟩
        exact ⟨k, hasKey_of_sigKeyFromString hparse hshort hread⟩
      · rintro ⟨k, hkey⟩
        exact ⟨k, sigKeyFromString_of_hasKey hparse hkey⟩
      · intro k hread
        exact exists_rewritten hread (hasKey_of_sigKeyFromString hparse hshort hread)
  · intro k hprintable
    obtain ⟨text, htext, _⟩ := sigKeyToString_utf8 hprintable
    exact ⟨text, htext, sigKeyFromString_toString htext⟩

end Reading

section Instances

/-- A half of 256 empty strings. -/
def blankHalf : List Str := List.replicate keyLen []

theorem isUtf8_of_mem_replicate_nil
    {n : Nat} {s : Str}
    (hs : s ∈ List.replicate n []) :
    isUtf8 s = true := by
  rw [List.eq_of_mem_replicate hs]
  rfl

/-- A document whose second half has `n` empty strings is the document of some text. -/
theorem exists_text_of_blank
    (n : Nat) :
    letI := textPlatform
    ∃ text, parse text = .ok (keyDocument blankHalf (List.replicate n [])) := by
  let _ := textPlatform
  have hunicode : isUnicode (keyDocument blankHalf (List.replicate n [])) = true :=
    isUnicode_keyDocument (fun _ => isUtf8_of_mem_replicate_nil)
      fun _ => isUtf8_of_mem_replicate_nil
  obtain ⟨text, htext, _⟩ := UnicodeJson.dump_unicode (P := textPlatform) hunicode
  exact ⟨text, LawfulPlatform.parse_dump htext⟩

end Instances

/-- The text of a key of 512 empty strings is read exactly. -/
theorem blank_key_decodes_exactly :
    letI := textPlatform
    ∃ text, parse text = .ok (keyDocument blankHalf blankHalf) ∧
      DecodesExactly text (keyDocument blankHalf blankHalf) := by
  let _ := textPlatform
  obtain ⟨text, hparse⟩ := exists_text_of_blank keyLen
  refine ⟨text, hparse, (key_decoding_exact_iff.1 text _ hparse).mpr ?_⟩
  rintro ⟨k, _, hlen, rest, hne, h1⟩
  have hsame := congrArg List.length (Json.arr.inj (Except.ok.inj h1))
  rw [List.length_append, List.length_map, List.length_map, hlen, List.length_replicate] at hsame
  exact hne (List.length_eq_zero_iff.mp (by omega))

/-- A text with 257 strings in S1 is read as a key. -/
theorem long_second_half_is_read :
    letI := textPlatform
    ∃ text, parse text = .ok (keyDocument blankHalf (List.replicate (keyLen + 1) [])) ∧
      (∃ k, sigKeyFromString text = .ok k) ∧
      ¬ DecodesExactly text (keyDocument blankHalf (List.replicate (keyLen + 1) [])) := by
  let _ := textPlatform
  obtain ⟨text, hparse⟩ := exists_text_of_blank (keyLen + 1)
  have hsecond : (keyDocument blankHalf (List.replicate (keyLen + 1) [])).at nameS1 =
      .ok (.arr (blankHalf.map .str ++ [.str []])) := by
    have hsplit : (List.replicate (keyLen + 1) ([] : Str)).map Json.str =
        blankHalf.map .str ++ [.str []] := by
      rw [List.replicate_succ', List.map_append]
      rfl
    rw [← hsplit]
    rfl
  have hfirst : (keyDocument blankHalf (List.replicate (keyLen + 1) [])).HasHalf nameS0 blankHalf :=
    ⟨rfl, List.length_replicate⟩
  refine ⟨text, hparse, ⟨⟨blankHalf, blankHalf⟩, ?_⟩, ?_⟩
  · exact (sigKeyFromString_eq_ok_iff hparse _).mpr ⟨hfirst, List.length_replicate, _, hsecond⟩
  · exact not_decodesExactly_of_longSecondHalf hparse
      ⟨⟨blankHalf, blankHalf⟩, hfirst, List.length_replicate, _, List.cons_ne_nil _ _, hsecond⟩

end CosiCoin
