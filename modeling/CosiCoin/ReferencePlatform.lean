import CosiCoin.Sha256Digest

/-!
# COSICOIN: the reference platform

A concrete `Platform`: `hash` is the SHA-256 digest, and `dump` and `parse`
are the JSON text of the key documents the validators exchange, the object
with the members S0 and S1, each a non-empty array of hexadecimal strings.
On such documents `nlohmann::json::dump` writes exactly this text (no member
needs an escape and no white space is inserted).  Documents that no concrete
run of this development builds are outside the fragment and are refused.

`referencePlatform_lawful` shows that the laws assumed of the platform are
consistent with the real functions.
-/

namespace CosiCoin
namespace Reference

/-- A string literal of the text. -/
def quoted (s : Str) : Str :=
  34 :: s ++ [34]

/-- The elements of a non-empty array of strings, separated by commas. -/
def dumpStrings : List Str → Str
  | [] => []
  | [s] => quoted s
  | s :: rest => quoted s ++ 44 :: dumpStrings rest

/-- The text up to the first element of S0: the brace, the name and a bracket. -/
def openS0 : Str := [123, 34, 83, 48, 34, 58, 91]

/-- The text between the last element of S0 (after its bracket) and S1. -/
def openS1 : Str := [44, 34, 83, 49, 34, 58, 91]

/-- The JSON text of a key document. -/
def dumpKeys (S0 S1 : List Str) : Str :=
  openS0 ++ (dumpStrings S0 ++ 93 :: (openS1 ++ (dumpStrings S1 ++ [93, 125])))

/-- Text that is written without escapes. -/
def isPlain (s : Str) : Bool :=
  s.all isHexDigit

/-- The strings of an array all of whose elements are plain strings. -/
def plainStrings : List Json → Option (List Str)
  | [] => some []
  | .str s :: rest =>
      if isPlain s then (plainStrings rest).map (s :: ·) else none
  | _ => none

/-- `dump` on the fragment of key documents. -/
def dump : Json → Except String Str
  | .obj [(n0, .arr a), (n1, .arr b)] =>
      match plainStrings a, plainStrings b with
      | some S0, some S1 =>
          if n0 = nameS0 ∧ n1 = nameS1 ∧ S0 ≠ [] ∧ S1 ≠ [] then .ok (dumpKeys S0 S1)
          else .error "not a key document"
      | _, _ => .error "not a key document"
  | _ => .error "not a key document"

/-- Read one string literal. -/
def parseQuoted : Str → Option (Str × Str)
  | c :: rest =>
      if c = 34 then
        match rest.dropWhile (· ≠ 34) with
        | _ :: after => some (rest.takeWhile (· ≠ 34), after)
        | [] => none
      else none
  | [] => none

/-- Read the elements of an array and its closing bracket. -/
def parseStrings : Nat → Str → Option (List Str × Str)
  | 0, _ => none
  | k + 1, text =>
      match parseQuoted text with
      | some (s, c :: rest) =>
          if c = 44 then (parseStrings k rest).map fun p => (s :: p.1, p.2)
          else if c = 93 then some ([s], rest)
          else none
      | _ => none

/-- `parse` on the fragment of key documents. -/
def parse (text : Str) : Except String Json :=
  match parseStrings text.length (text.drop openS0.length) with
  | some (S0, rest) =>
      match parseStrings text.length (rest.drop openS1.length) with
      | some (S1, tail) =>
          if tail = [125] then .ok (keyDocument S0 S1) else .error "parse error"
      | none => .error "parse error"
  | none => .error "parse error"

theorem ne_quote_of_isHexDigit
    {c : UInt8}
    (hc : isHexDigit c = true) :
    c ≠ 34 := by
  rintro rfl
  revert hc
  decide

theorem parseQuoted_quoted
    {s : Str}
    (hs : isPlain s = true)
    (rest : Str) :
    parseQuoted (quoted s ++ rest) = some (s, rest) := by
  have hne : ∀ c ∈ s, decide (c ≠ 34) = true := by
    intro c hc
    exact decide_eq_true (ne_quote_of_isHexDigit (List.all_eq_true.mp hs c hc))
  have htake : (s ++ 34 :: rest).takeWhile (· ≠ 34) = s := by
    rw [List.takeWhile_append_of_pos hne]
    simp
  have hdrop : (s ++ 34 :: rest).dropWhile (· ≠ 34) = 34 :: rest := by
    rw [List.dropWhile_append_of_pos hne]
    simp
  simp only [quoted, List.cons_append, List.append_assoc, List.nil_append, parseQuoted,
    if_true, htake, hdrop]

/-- Reading undoes writing for the elements of an array. -/
theorem parseStrings_dumpStrings
    (l : List Str) :
    ∀ (k : Nat) (rest : Str), l ≠ [] → l.length ≤ k →
      (∀ s ∈ l, isPlain s = true) →
      parseStrings k (dumpStrings l ++ 93 :: rest) = some (l, rest) := by
  induction l with
  | nil =>
      intro k rest hne
      exact absurd rfl hne
  | cons s l ih =>
      intro k rest _ hk hplain
      have hs : isPlain s = true := hplain s (by simp)
      cases k with
      | zero =>
          simp at hk
      | succ k =>
          cases l with
          | nil =>
              simp [dumpStrings, parseStrings, parseQuoted_quoted hs]
          | cons t l =>
              have htail := ih k rest (by simp) (by simpa using hk)
                (fun u hu => hplain u (List.mem_cons_of_mem _ hu))
              have hshape :
                  dumpStrings (s :: t :: l) ++ 93 :: rest =
                    quoted s ++ 44 :: (dumpStrings (t :: l) ++ 93 :: rest) := by
                simp [dumpStrings]
              rw [hshape]
              simp only [parseStrings, parseQuoted_quoted hs, if_true, htail,
                Option.map_some]

theorem length_le_dumpStrings :
    ∀ l : List Str, l.length ≤ (dumpStrings l).length
  | [] => by simp
  | [s] => by simp [dumpStrings, quoted]
  | s :: t :: l => by
      have ih := length_le_dumpStrings (t :: l)
      simp only [dumpStrings, quoted, List.length_append, List.length_cons] at ih ⊢
      omega

theorem plainStrings_spec :
    ∀ {a : List Json} {S : List Str}, plainStrings a = some S →
      a = S.map .str ∧ ∀ s ∈ S, isPlain s = true
  | [], S, h => by
      simp only [plainStrings, Option.some.injEq] at h
      subst h
      simp
  | .str s :: rest, S, h => by
      simp only [plainStrings] at h
      split_ifs at h with hs
      obtain ⟨T, hT, rfl⟩ := Option.map_eq_some_iff.mp h
      obtain ⟨rfl, hplain⟩ := plainStrings_spec hT
      refine ⟨rfl, ?_⟩
      intro t ht
      rcases List.mem_cons.mp ht with rfl | ht
      · exact hs
      · exact hplain t ht
  | .null :: _, _, h => by simp [plainStrings] at h
  | .bool _ :: _, _, h => by simp [plainStrings] at h
  | .num _ :: _, _, h => by simp [plainStrings] at h
  | .arr _ :: _, _, h => by simp [plainStrings] at h
  | .obj _ :: _, _, h => by simp [plainStrings] at h

theorem plainStrings_map_str
    {S : List Str}
    (hS : ∀ s ∈ S, isPlain s = true) :
    plainStrings (S.map .str) = some S := by
  induction S with
  | nil => rfl
  | cons s S ih =>
      simp [plainStrings, hS s (by simp), ih (fun t ht => hS t (List.mem_cons_of_mem _ ht))]

/-- What a successful `dump` has written. -/
theorem dump_eq_ok
    {j : Json} {text : Str}
    (h : dump j = .ok text) :
    ∃ S0 S1 : List Str,
      j = keyDocument S0 S1 ∧ text = dumpKeys S0 S1 ∧ S0 ≠ [] ∧ S1 ≠ [] ∧
      (∀ s ∈ S0, isPlain s = true) ∧ (∀ s ∈ S1, isPlain s = true) := by
  unfold dump at h
  split at h
  · split at h
    · split_ifs at h with hc
      obtain ⟨rfl, rfl, h0, h1⟩ := hc
      rename_i S0 S1 hS0 hS1
      obtain ⟨rfl, hp0⟩ := plainStrings_spec hS0
      obtain ⟨rfl, hp1⟩ := plainStrings_spec hS1
      exact ⟨S0, S1, rfl, (Except.ok.inj h).symm, h0, h1, hp0, hp1⟩
    · cases h
  · cases h

/-- Reading undoes writing for a key document. -/
theorem parse_dumpKeys
    {S0 S1 : List Str}
    (h0 : S0 ≠ []) (h1 : S1 ≠ [])
    (hp0 : ∀ s ∈ S0, isPlain s = true) (hp1 : ∀ s ∈ S1, isPlain s = true) :
    parse (dumpKeys S0 S1) = .ok (keyDocument S0 S1) := by
  have hl0 := length_le_dumpStrings S0
  have hl1 := length_le_dumpStrings S1
  have hlen : S0.length ≤ (dumpKeys S0 S1).length ∧ S1.length ≤ (dumpKeys S0 S1).length := by
    simp only [dumpKeys, List.length_append, List.length_cons]
    omega
  have hfirst :
      (dumpKeys S0 S1).drop openS0.length =
        dumpStrings S0 ++ 93 :: (openS1 ++ (dumpStrings S1 ++ [93, 125])) := by
    simp [dumpKeys]
  have hsecond :
      (openS1 ++ (dumpStrings S1 ++ [93, 125])).drop openS1.length =
        dumpStrings S1 ++ 93 :: [125] := by
    simp
  unfold parse
  rw [hfirst, parseStrings_dumpStrings S0 _ _ h0 hlen.1 hp0]
  simp only
  rw [hsecond, parseStrings_dumpStrings S1 _ _ h1 hlen.2 hp1]
  simp

theorem isPlain_of_isHexDigest
    {s : Str}
    (hs : IsHexDigest s) :
    isPlain s = true :=
  List.all_eq_true.mpr hs.2

end Reference

/-- SHA-256 with the JSON text of key documents. -/
@[reducible] def referencePlatform : Platform where
  hash := Sha256.digest
  dump := Reference.dump
  parse := Reference.parse

/-- The laws of the platform hold for the reference functions. -/
instance referencePlatform_lawful : LawfulPlatform referencePlatform where
  hash_hex := Sha256.isHexDigest_digest
  parse_dump := by
    intro j text h
    obtain ⟨S0, S1, rfl, rfl, h0, h1, hp0, hp1⟩ := Reference.dump_eq_ok h
    exact Reference.parse_dumpKeys h0 h1 hp0 hp1
  parse_nil := by
    intro j h
    cases h
  dump_keyDocument := by
    intro S0 S1 hS0 hS1 h0 h1
    refine ⟨Reference.dumpKeys S0 S1, ?_⟩
    show Reference.dump (keyDocument S0 S1) = _
    have hp0 := Reference.plainStrings_map_str
      (fun s hs => Reference.isPlain_of_isHexDigest (hS0 s hs))
    have hp1 := Reference.plainStrings_map_str
      (fun s hs => Reference.isPlain_of_isHexDigest (hS1 s hs))
    simp [Reference.dump, keyDocument, hp0, hp1, h0, h1]

end CosiCoin
