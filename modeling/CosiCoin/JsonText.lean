import CosiCoin.PlatformLibraries
import Mathlib.Data.List.Basic

/-!
# COSICOIN: the text of JSON documents

What `nlohmann::json` writes for documents whose strings are UTF-8 and whose
numbers fit `uint64_t`, and how this is read back.  Other strings make `dump`
throw.  A `Layout` says which white space is written between the parts of a
document: none in `dump()` (`compact`), a new line and four blanks for each level
in `dump(4)` (`indented`).

The reader skips white space in front of every part, so one argument covers all
layouts: `parseValue_print` shows that a written document is read back, whatever
follows it.
-/

namespace CosiCoin
namespace JsonText

section Induction

/-- Induction over documents: what holds of all parts holds of the whole. -/
theorem nestedInduction
    {motive : Json → Prop}
    (null : motive .null)
    (bool : ∀ b, motive (.bool b))
    (num : ∀ n, motive (.num n))
    (str : ∀ s, motive (.str s))
    (arr : ∀ elements, (∀ j ∈ elements, motive j) → motive (.arr elements))
    (obj : ∀ members, (∀ m ∈ members, motive m.2) → motive (.obj members)) :
    ∀ j, motive j
  | .null => null
  | .bool b => bool b
  | .num n => num n
  | .str s => str s
  | .arr elements => arr elements fun j _ => nestedInduction null bool num str arr obj j
  | .obj members => obj members fun m _ => nestedInduction null bool num str arr obj m.2
termination_by j => sizeOf j
decreasing_by
  · have hsize := List.sizeOf_lt_of_mem ‹_ ∈ elements›
    simp only [Json.arr.sizeOf_spec]
    omega
  · have hsize := List.sizeOf_lt_of_mem ‹_ ∈ members›
    obtain ⟨name, j⟩ := m
    simp only [Prod.mk.sizeOf_spec] at hsize
    simp only [Json.obj.sizeOf_spec]
    omega

end Induction

section Writing

/-- A blank, a tab or a line end. -/
def isBlank (c : UInt8) : Bool :=
  c == 32 || c == 9 || c == 10 || c == 13

/-- The white space between the parts of a document. -/
structure Layout where
  line : Nat → Str
  gap : Str
  line_blank : ∀ depth, ∀ c ∈ line depth, isBlank c = true
  gap_blank : ∀ c ∈ gap, isBlank c = true

/-- `dump()`. -/
def compact : Layout where
  line _ := []
  gap := []
  line_blank _ _ hc := absurd hc List.not_mem_nil
  gap_blank _ hc := absurd hc List.not_mem_nil

/-- `dump(4)`. -/
def indented : Layout where
  line depth := 10 :: List.replicate (4 * depth) 32
  gap := [32]
  line_blank depth c hc := by
    rcases List.mem_cons.mp hc with rfl | hc
    · rfl
    · rw [List.eq_of_mem_replicate hc]
      rfl
  gap_blank c hc := by
    rw [List.mem_singleton.mp hc]
    rfl

/-- The letter behind the backslash, for characters with a short escape. -/
def escapeLetter (c : UInt8) : Option UInt8 :=
  if c = 8 then some 98
  else if c = 9 then some 116
  else if c = 10 then some 110
  else if c = 12 then some 102
  else if c = 13 then some 114
  else if c = 34 then some 34
  else if c = 92 then some 92
  else none

/-- A digit as `%x` writes it. -/
def hexDigit (d : UInt8) : UInt8 :=
  if d < 10 then 48 + d else 87 + d

/-- The characters written for a byte of a string. -/
def escapeByte (c : UInt8) : Str :=
  match escapeLetter c with
  | some letter => [92, letter]
  | none => if c < 32 then [92, 117, 48, 48, hexDigit (c / 16), hexDigit (c % 16)] else [c]

/-- The characters of a string literal. -/
def escape (s : Str) : Str :=
  s.flatMap escapeByte

/-- A string literal. -/
def quoted (s : Str) : Str :=
  34 :: (escape s ++ [34])

/-- What follows the first item of an array or an object. -/
def joinTail (L : Layout) (depth : Nat) (close : UInt8) : List Str → Str
  | [] => L.line depth ++ [close]
  | item :: rest => 44 :: (L.line (depth + 1) ++ (item ++ joinTail L depth close rest))

/-- The items of an array or an object between its brackets. -/
def enclose (L : Layout) (depth : Nat) (opening close : UInt8) : List Str → Str
  | [] => [opening, close]
  | item :: rest => opening :: (L.line (depth + 1) ++ (item ++ joinTail L depth close rest))

mutual

/-- The text of a document at some depth. -/
def print (L : Layout) (depth : Nat) : Json → Str
  | .null => [110, 117, 108, 108]
  | .bool true => [116, 114, 117, 101]
  | .bool false => [102, 97, 108, 115, 101]
  | .num n => decimal n
  | .str s => quoted s
  | .arr elements => enclose L depth 91 93 (printElements L (depth + 1) elements)
  | .obj members => enclose L depth 123 125 (printMembers L (depth + 1) members)

/-- The texts of the elements of an array. -/
def printElements (L : Layout) (depth : Nat) : List Json → List Str
  | [] => []
  | j :: rest => print L depth j :: printElements L depth rest

/-- The texts of the members of an object. -/
def printMembers (L : Layout) (depth : Nat) : List (Str × Json) → List Str
  | [] => []
  | m :: rest => printMember L depth m :: printMembers L depth rest

/-- The text of a member. -/
def printMember (L : Layout) (depth : Nat) : Str × Json → Str
  | (name, j) => quoted name ++ 58 :: (L.gap ++ print L depth j)

end

/-- The states of the automaton of `serializer::decode`. -/
inductive Utf8State where
  | accept
  | reject
  | tail1
  | tail2
  | tail3
  | afterE0
  | afterED
  | afterF0
  | afterF4
deriving DecidableEq

/-- A byte after the first one of a character. -/
def isTail (c : UInt8) : Bool :=
  128 ≤ c && c ≤ 191

/-- `serializer::decode`: overlong forms, surrogates and numbers above 10FFFF are rejected. -/
def utf8Step : Utf8State → UInt8 → Utf8State
  | .accept, c =>
      if c < 128 then .accept
      else if c < 194 then .reject
      else if c < 224 then .tail1
      else if c = 224 then .afterE0
      else if c = 237 then .afterED
      else if c < 240 then .tail2
      else if c = 240 then .afterF0
      else if c < 244 then .tail3
      else if c = 244 then .afterF4
      else .reject
  | .reject, _ => .reject
  | .tail1, c => if isTail c then .accept else .reject
  | .tail2, c => if isTail c then .tail1 else .reject
  | .tail3, c => if isTail c then .tail2 else .reject
  | .afterE0, c => if 160 ≤ c && c ≤ 191 then .tail1 else .reject
  | .afterED, c => if 128 ≤ c && c ≤ 159 then .tail1 else .reject
  | .afterF0, c => if 144 ≤ c && c ≤ 191 then .tail2 else .reject
  | .afterF4, c => if 128 ≤ c && c ≤ 143 then .tail2 else .reject

/-- Text in UTF-8. -/
def isUtf8 (s : Str) : Bool :=
  s.foldl utf8Step .accept == .accept

mutual

/-- A document with strings in UTF-8 and numbers of 64 bits. -/
def isUnicode : Json → Bool
  | .null => true
  | .bool _ => true
  | .num n => n < 2 ^ 64
  | .str s => isUtf8 s
  | .arr elements => areUnicode elements
  | .obj members => areUnicodeMembers members

def areUnicode : List Json → Bool
  | [] => true
  | j :: rest => isUnicode j && areUnicode rest

def areUnicodeMembers : List (Str × Json) → Bool
  | [] => true
  | m :: rest => isUnicodeMember m && areUnicodeMembers rest

def isUnicodeMember : Str × Json → Bool
  | (name, j) => isUtf8 name && isUnicode j

end

/-- `dump`, which throws at a byte that is not UTF-8. -/
def dump (L : Layout) (j : Json) : Except String Str :=
  if isUnicode j then .ok (print L 0 j) else .error "invalid UTF-8 byte"

end Writing

section Reading

/-- The characters 0-9. -/
def isDigit (c : UInt8) : Bool :=
  48 ≤ c && c ≤ 57

def skipBlank (text : Str) : Str :=
  text.dropWhile isBlank

/-- The number of some digits. -/
def readDigits (digits : Str) : Nat :=
  Nat.ofDigitChars 10 (digits.map fun c => Char.ofNat c.toNat) 0

/-- The character of a short escape. -/
def unescapeLetter (letter : UInt8) : Option UInt8 :=
  if letter = 98 then some 8
  else if letter = 116 then some 9
  else if letter = 110 then some 10
  else if letter = 102 then some 12
  else if letter = 114 then some 13
  else if letter = 34 then some 34
  else if letter = 92 then some 92
  else if letter = 47 then some 47
  else none

/-- The value of a hexadecimal digit. -/
def hexValue (c : UInt8) : Option UInt8 :=
  if 48 ≤ c && c ≤ 57 then some (c - 48)
  else if 97 ≤ c && c ≤ 102 then some (c - 87)
  else if 65 ≤ c && c ≤ 70 then some (c - 55)
  else none

/-- The ASCII character of four hexadecimal digits. -/
def unescapeHex (a b h l : UInt8) : Option UInt8 :=
  if a = 48 ∧ b = 48 then
    match hexValue h, hexValue l with
    | some high, some low => if high < 8 then some (16 * high + low) else none
    | _, _ => none
  else none

/--
The string behind an opening quotation mark, and what follows it.  Of the escapes
with four digits only those of ASCII characters are read, which are the ones that
are written.
-/
def readString : Str → Option (Str × Str)
  | [] => none
  | c :: rest =>
      if c = 34 then some ([], rest)
      else if c = 92 then
        match rest with
        | [] => none
        | letter :: rest =>
            if letter = 117 then
              match rest with
              | a :: b :: h :: l :: rest =>
                  match unescapeHex a b h l with
                  | some d => (readString rest).map fun p => (d :: p.1, p.2)
                  | none => none
              | _ => none
            else
              match unescapeLetter letter with
              | some d => (readString rest).map fun p => (d :: p.1, p.2)
              | none => none
      else if c < 32 then none
      else (readString rest).map fun p => (c :: p.1, p.2)

/-- Items separated by commas, the closing bracket, and what follows it. -/
def parseItems {α : Type} (item : Str → Option (α × Str)) (close : UInt8) :
    Nat → Str → Option (List α × Str)
  | 0, _ => none
  | k + 1, text =>
      match item text with
      | none => none
      | some (a, rest) =>
          match skipBlank rest with
          | [] => none
          | c :: rest =>
              if c = 44 then (parseItems item close k rest).map fun p => (a :: p.1, p.2)
              else if c = close then some ([a], rest)
              else none

/-- An array or an object behind its opening bracket. -/
def parseEnclosed {α : Type} (item : Str → Option (α × Str)) (close : UInt8) (k : Nat)
    (text : Str) : Option (List α × Str) :=
  if (skipBlank text).head? = some close then some ([], (skipBlank text).tail)
  else parseItems item close k text

/-- A member: a name, a colon and a value. -/
def parseMember (value : Str → Option (Json × Str)) (text : Str) :
    Option ((Str × Json) × Str) :=
  match skipBlank text with
  | [] => none
  | c :: rest =>
      if c = 34 then
        match readString rest with
        | none => none
        | some (name, rest) =>
            match skipBlank rest with
            | [] => none
            | c :: rest =>
                if c = 58 then (value rest).map fun p => ((name, p.1), p.2) else none
      else none

/-- A fixed word. -/
def parseWord (text : Str) : Option (Json × Str) :=
  if text.take 4 = [110, 117, 108, 108] then some (.null, text.drop 4)
  else if text.take 4 = [116, 114, 117, 101] then some (.bool true, text.drop 4)
  else if text.take 5 = [102, 97, 108, 115, 101] then some (.bool false, text.drop 5)
  else none

/-- A document and what follows it; the nesting is bounded by the first argument. -/
def parseValue : Nat → Str → Option (Json × Str)
  | 0, _ => none
  | k + 1, text =>
      match skipBlank text with
      | [] => none
      | c :: rest =>
          if c = 34 then (readString rest).map fun p => (.str p.1, p.2)
          else if c = 91 then
            (parseEnclosed (parseValue k) 93 k rest).map fun p => (.arr p.1, p.2)
          else if c = 123 then
            (parseEnclosed (parseMember (parseValue k)) 125 k rest).map fun p => (.obj p.1, p.2)
          else if isDigit c then
            some (.num (readDigits ((c :: rest).takeWhile isDigit)), (c :: rest).dropWhile isDigit)
          else parseWord (c :: rest)

/-- `i >> j`: read one document and leave the rest.  Its strings have to be UTF-8. -/
def read (text : Str) : Except String Json :=
  match parseValue (text.length + 1) text with
  | some (j, _) => if isUnicode j then .ok j else .error "ill-formed UTF-8 byte"
  | none => .error "syntax error while parsing"

/-- `json::parse`: nothing but white space may follow the document. -/
def parse (text : Str) : Except String Json :=
  match parseValue (text.length + 1) text with
  | some (j, rest) =>
      if skipBlank rest ≠ [] then .error "expected end of input"
      else if isUnicode j then .ok j
      else .error "ill-formed UTF-8 byte"
  | none => .error "syntax error while parsing"

end Reading

section Pieces

/-- White space only. -/
def AllBlank (ws : Str) : Prop :=
  ∀ c ∈ ws, isBlank c = true

/-- A number that ends here is not continued. -/
def Stops (rest : Str) : Prop :=
  ∀ c ∈ rest.head?, isDigit c = false

theorem skipBlank_append
    {ws : Str}
    (h : AllBlank ws)
    (text : Str) :
    skipBlank (ws ++ text) = skipBlank text :=
  List.dropWhile_append_of_pos h

theorem skipBlank_cons
    {c : UInt8}
    (h : isBlank c = false)
    (text : Str) :
    skipBlank (c :: text) = c :: text := by
  rw [skipBlank, List.dropWhile_cons_of_neg (by simp [h])]

theorem not_isDigit_of_isBlank
    {c : UInt8}
    (h : isBlank c = true) :
    isDigit c = false := by
  simp only [isBlank, Bool.or_eq_true, beq_iff_eq] at h
  rcases h with ((rfl | rfl) | rfl) | rfl <;> rfl

/-- White space and a closing bracket end a number. -/
theorem stops_append
    {ws text : Str}
    (h : AllBlank ws)
    (htext : Stops text) :
    Stops (ws ++ text) := by
  cases ws with
  | nil =>
      exact htext
  | cons c ws =>
      intro c' hc'
      obtain rfl := Option.some.inj hc'
      exact not_isDigit_of_isBlank (h _ List.mem_cons_self)

theorem stops_cons
    {c : UInt8}
    (h : isDigit c = false)
    (rest : Str) :
    Stops (c :: rest) := by
  intro c' hc'
  obtain rfl := Option.some.inj hc'
  exact h

/-- Short escapes are read back. -/
theorem unescapeLetter_escapeLetter
    {c letter : UInt8}
    (h : escapeLetter c = some letter) :
    letter ≠ 117 ∧ unescapeLetter letter = some c := by
  unfold escapeLetter at h
  split_ifs at h with h8 h9 h10 h12 h13 h34 h92
  all_goals
    obtain rfl := Option.some.inj h
    subst_vars
    exact ⟨by decide, rfl⟩

/-- The escapes of the other control characters are read back. -/
theorem unescapeHex_hexDigit
    {c : UInt8}
    (h : c < 32) :
    unescapeHex 48 48 (hexDigit (c / 16)) (hexDigit (c % 16)) = some c := by
  have hall : ∀ n < 32, unescapeHex 48 48 (hexDigit (UInt8.ofNat n / 16))
      (hexDigit (UInt8.ofNat n % 16)) = some (UInt8.ofNat n) := by
    decide
  have hc := hall c.toNat (UInt8.lt_iff_toNat_lt.mp h)
  rwa [UInt8.ofNat_toNat] at hc

/-- The characters of a byte are read back. -/
theorem readString_escapeByte
    (c : UInt8) (text : Str) :
    readString (escapeByte c ++ text) = (readString text).map fun p => (c :: p.1, p.2) := by
  unfold escapeByte
  cases hletter : escapeLetter c with
  | some letter =>
      obtain ⟨hne, hback⟩ := unescapeLetter_escapeLetter hletter
      show readString (92 :: letter :: text) = _
      rw [readString.eq_def]
      simp [hne, hback]
  | none =>
      dsimp only
      split_ifs with hlow
      · show readString (92 :: 117 :: 48 :: 48 :: _ :: _ :: text) = _
        rw [readString.eq_def]
        simp [unescapeHex_hexDigit hlow]
      · have hquote : c ≠ 34 := by
          rintro rfl
          cases hletter
        have hslash : c ≠ 92 := by
          rintro rfl
          cases hletter
        show readString (c :: text) = _
        rw [readString.eq_def]
        simp [hquote, hslash, hlow]

/-- A string literal is read back. -/
theorem readString_escape
    (s rest : Str) :
    readString (escape s ++ 34 :: rest) = some (s, rest) := by
  induction s with
  | nil =>
      rw [escape, List.flatMap_nil, List.nil_append, readString.eq_def]
      exact if_pos rfl
  | cons c s ih =>
      rw [escape, List.flatMap_cons, List.append_assoc, readString_escapeByte]
      show (readString (escape s ++ 34 :: rest)).map _ = _
      rw [ih]
      rfl

theorem toNat_of_digit
    {d : Char}
    (h : d.isDigit = true) :
    48 ≤ d.toNat ∧ d.toNat ≤ 57 :=
  Char.isDigit_iff_toNat.mp h

theorem toNat_toUInt8_of_digit
    {d : Char}
    (h : d.isDigit = true) :
    d.toUInt8.toNat = d.toNat := by
  have hbound : d.val.toNat ≤ 57 := (toNat_of_digit h).2
  rw [Char.toUInt8, UInt32.toNat_toUInt8]
  exact Nat.mod_eq_of_lt (by omega)

/-- The characters of a number are digits. -/
theorem isDigit_of_mem_decimal
    {n : Nat} {c : UInt8}
    (h : c ∈ decimal n) :
    isDigit c = true := by
  obtain ⟨d, hd, rfl⟩ := List.mem_map.mp h
  obtain ⟨hlow, hhigh⟩ := toNat_of_digit (Nat.isDigit_of_mem_toDigits (by decide) (by decide) hd)
  have hbyte := toNat_toUInt8_of_digit (Nat.isDigit_of_mem_toDigits (by decide) (by decide) hd)
  rw [isDigit, Bool.and_eq_true, decide_eq_true_eq, decide_eq_true_eq, UInt8.le_iff_toNat_le,
    UInt8.le_iff_toNat_le, hbyte]
  exact ⟨hlow, hhigh⟩

theorem decimal_ne_nil
    (n : Nat) :
    decimal n ≠ [] := by
  simp [decimal]

theorem readDigits_decimal
    (n : Nat) :
    readDigits (decimal n) = n := by
  have hchars : (decimal n).map (fun c => Char.ofNat c.toNat) = Nat.toDigits 10 n := by
    rw [decimal, List.map_map]
    refine (List.map_congr_left ?_).trans (List.map_id _)
    intro d hd
    have hdigit := Nat.isDigit_of_mem_toDigits (by decide) (by decide) hd
    rw [Function.comp_apply, toNat_toUInt8_of_digit hdigit, Char.ofNat_toNat, id]
  rw [readDigits, hchars]
  exact Nat.ofDigitChars_ten_toDigits

end Pieces

section Items

variable {α : Type}
variable {item : Str → Option (α × Str)}
variable {write : α → Str}
variable (L : Layout) (depth : Nat)
variable {close : UInt8}

/-- The item is read back behind white space, whatever ends it. -/
def ReadsBack (item : Str → Option (α × Str)) (write : α → Str) (a : α) : Prop :=
  ∀ ws rest, AllBlank ws → Stops rest → item (ws ++ (write a ++ rest)) = some (a, rest)

/-- The bracket is neither white space nor a comma nor a digit. -/
structure IsBracket (close : UInt8) : Prop where
  notBlank : isBlank close = false
  notComma : close ≠ 44
  notDigit : isDigit close = false

theorem isBracket_squared : IsBracket 93 := by
  exact ⟨rfl, by decide, rfl⟩

theorem isBracket_braced : IsBracket 125 := by
  exact ⟨rfl, by decide, rfl⟩

theorem stops_joinTail
    (hclose : IsBracket close)
    (items : List Str) (rest : Str) :
    Stops (joinTail L depth close items ++ rest) := by
  cases items with
  | nil =>
      rw [joinTail, List.append_assoc]
      exact stops_append (L.line_blank depth) (stops_cons hclose.notDigit _)
  | cons item items =>
      exact stops_cons rfl _

/-- The items after the first one are read back up to the bracket. -/
theorem parseItems_joinTail
    (hclose : IsBracket close)
    {l : List α} (rest : Str) :
    ∀ {a : α} {k : Nat} {ws : Str}, AllBlank ws → l.length < k →
      (∀ b ∈ a :: l, ReadsBack item write b) →
      parseItems item close k
        (ws ++ (write a ++ (joinTail L depth close (l.map write) ++ rest))) =
        some (a :: l, rest) := by
  induction l with
  | nil =>
      intro a k ws hws hk hitems
      obtain ⟨k, rfl⟩ := Nat.exists_eq_succ_of_ne_zero (by omega : k ≠ 0)
      have hfirst := hitems a List.mem_cons_self ws _ hws
        (stops_joinTail L depth hclose ([].map write) rest)
      have hskip : skipBlank (joinTail L depth close (List.map write []) ++ rest) =
          close :: rest := by
        rw [List.map_nil, joinTail, List.append_assoc, skipBlank_append (L.line_blank depth),
          List.singleton_append, skipBlank_cons hclose.notBlank]
      unfold parseItems
      simp only [hfirst, hskip]
      rw [if_neg hclose.notComma]
      exact if_pos trivial
  | cons b l ih =>
      intro a k ws hws hk hitems
      obtain ⟨k, rfl⟩ := Nat.exists_eq_succ_of_ne_zero (by omega : k ≠ 0)
      obtain ⟨ha, hrest⟩ := List.forall_mem_cons.mp hitems
      have hfirst := ha ws _ hws (stops_joinTail L depth hclose ((b :: l).map write) rest)
      have hnext := ih (L.line_blank (depth + 1)) (by simpa using hk) hrest
      have hskip : skipBlank (joinTail L depth close (List.map write (b :: l)) ++ rest) =
          44 :: (L.line (depth + 1) ++
            (write b ++ (joinTail L depth close (l.map write) ++ rest))) := by
        rw [List.map_cons, joinTail, List.cons_append, skipBlank_cons rfl, List.append_assoc,
          List.append_assoc]
      unfold parseItems
      simp only [hfirst, hskip, hnext]
      rfl

/-- The items of an array or an object are read back. -/
theorem parseEnclosed_enclose
    (opening : UInt8)
    (hclose : IsBracket close)
    {l : List α} {k : Nat} (rest : Str)
    (hk : l.length ≤ k)
    (hitems : ∀ b ∈ l, ReadsBack item write b)
    (hstart : ∀ b ∈ l, ∃ c t, write b = c :: t ∧ isBlank c = false ∧ c ≠ close) :
    ∃ text, enclose L depth opening close (l.map write) ++ rest = opening :: text ∧
      parseEnclosed item close k text = some (l, rest) := by
  cases l with
  | nil =>
      refine ⟨close :: rest, rfl, ?_⟩
      rw [parseEnclosed, skipBlank_cons hclose.notBlank]
      exact if_pos rfl
  | cons a l =>
      obtain ⟨c, t, hwrite, hblank, hne⟩ := hstart a List.mem_cons_self
      refine ⟨L.line (depth + 1) ++
        (write a ++ (joinTail L depth close (l.map write) ++ rest)), ?_, ?_⟩
      · simp [enclose]
      · have hskip : skipBlank (L.line (depth + 1) ++
            (write a ++ (joinTail L depth close (l.map write) ++ rest))) =
            c :: (t ++ (joinTail L depth close (l.map write) ++ rest)) := by
          rw [skipBlank_append (L.line_blank (depth + 1)), hwrite, List.cons_append,
            skipBlank_cons hblank]
        rw [parseEnclosed, hskip, if_neg (by simpa using hne)]
        exact parseItems_joinTail L depth hclose rest (L.line_blank (depth + 1)) hk hitems

/-- The text between the brackets is as long as its items together. -/
theorem length_le_joinTail
    (close : UInt8) (items : List Str) :
    items.length + 1 ≤ (joinTail L depth close items).length ∧
      ∀ item ∈ items, item.length ≤ (joinTail L depth close items).length := by
  induction items with
  | nil =>
      simp [joinTail]
  | cons item items ih =>
      obtain ⟨hcount, hlength⟩ := ih
      simp only [joinTail, List.length_cons, List.length_append]
      refine ⟨by omega, ?_⟩
      intro t ht
      rcases List.mem_cons.mp ht with rfl | ht
      · omega
      · have := hlength t ht
        omega

theorem length_le_enclose
    (opening close : UInt8) (items : List Str) :
    items.length + 1 ≤ (enclose L depth opening close items).length ∧
      ∀ item ∈ items, item.length + 1 ≤ (enclose L depth opening close items).length := by
  cases items with
  | nil =>
      simp [enclose]
  | cons item items =>
      obtain ⟨hcount, hlength⟩ := length_le_joinTail L depth close items
      simp only [enclose, List.length_cons, List.length_append]
      refine ⟨by omega, ?_⟩
      intro t ht
      rcases List.mem_cons.mp ht with rfl | ht
      · omega
      · have := hlength t ht
        omega

end Items

section RoundTrip

theorem printElements_eq_map
    (L : Layout) (depth : Nat) (l : List Json) :
    printElements L depth l = l.map (print L depth) := by
  induction l with
  | nil =>
      rw [printElements, List.map_nil]
  | cons j l ih =>
      rw [printElements, ih, List.map_cons]

theorem printMembers_eq_map
    (L : Layout) (depth : Nat) (l : List (Str × Json)) :
    printMembers L depth l = l.map (printMember L depth) := by
  induction l with
  | nil =>
      rw [printMembers, List.map_nil]
  | cons m l ih =>
      rw [printMembers, ih, List.map_cons]

theorem isUnicode_of_mem
    {l : List Json}
    (h : areUnicode l = true) :
    ∀ j ∈ l, isUnicode j = true := by
  induction l with
  | nil =>
      intro j hj
      cases hj
  | cons j l ih =>
      rw [areUnicode, Bool.and_eq_true] at h
      exact List.forall_mem_cons.mpr ⟨h.1, ih h.2⟩

theorem isUnicodeMember_of_mem
    {l : List (Str × Json)}
    (h : areUnicodeMembers l = true) :
    ∀ m ∈ l, isUnicodeMember m = true := by
  induction l with
  | nil =>
      intro m hm
      cases hm
  | cons m l ih =>
      rw [areUnicodeMembers, Bool.and_eq_true] at h
      exact List.forall_mem_cons.mpr ⟨h.1, ih h.2⟩

/-- The first character of a document: no white space and no closing bracket. -/
theorem print_start
    (L : Layout) (depth : Nat) (j : Json) :
    ∃ c t, print L depth j = c :: t ∧ isBlank c = false ∧ c ≠ 93 := by
  cases j with
  | null =>
      exact ⟨_, _, by rw [print], rfl, by decide⟩
  | bool b =>
      cases b with
      | false => exact ⟨_, _, by rw [print], rfl, by decide⟩
      | true => exact ⟨_, _, by rw [print], rfl, by decide⟩
  | num n =>
      obtain ⟨c, t, hct⟩ := List.exists_cons_of_ne_nil (decimal_ne_nil n)
      have hdigit : isDigit c = true := isDigit_of_mem_decimal (by rw [hct]; exact List.mem_cons_self)
      refine ⟨c, t, by rw [print, hct], ?_, ?_⟩
      · cases hblank : isBlank c with
        | false => rfl
        | true => rw [not_isDigit_of_isBlank hblank] at hdigit; cases hdigit
      · rintro rfl
        cases hdigit
  | str s =>
      exact ⟨_, _, by rw [print, quoted], rfl, by decide⟩
  | arr l =>
      rw [print]
      cases printElements L (depth + 1) l with
      | nil => exact ⟨_, _, rfl, rfl, by decide⟩
      | cons t l => exact ⟨_, _, rfl, rfl, by decide⟩
  | obj l =>
      rw [print]
      cases printMembers L (depth + 1) l with
      | nil => exact ⟨_, _, rfl, rfl, by decide⟩
      | cons t l => exact ⟨_, _, rfl, rfl, by decide⟩

theorem printMember_start
    (L : Layout) (depth : Nat) (m : Str × Json) :
    ∃ c t, printMember L depth m = c :: t ∧ isBlank c = false ∧ c ≠ 125 := by
  obtain ⟨name, j⟩ := m
  rw [printMember, quoted, List.cons_append]
  exact ⟨_, _, rfl, rfl, by decide⟩

theorem parseValue_skip
    {ws : Str}
    (h : AllBlank ws)
    (k : Nat) (text : Str) :
    parseValue (k + 1) (ws ++ text) = parseValue (k + 1) text := by
  unfold parseValue
  rw [skipBlank_append h]

/-- A number is read back if it is not continued. -/
theorem parseValue_decimal
    (n k : Nat) {rest : Str}
    (hrest : Stops rest) :
    parseValue (k + 1) (decimal n ++ rest) = some (.num n, rest) := by
  have htake : (decimal n ++ rest).takeWhile isDigit = decimal n := by
    rw [List.takeWhile_append_of_pos fun _ => isDigit_of_mem_decimal]
    cases rest with
    | nil => simp
    | cons c rest => simp [hrest c rfl]
  have hdrop : (decimal n ++ rest).dropWhile isDigit = rest := by
    rw [List.dropWhile_append_of_pos fun _ => isDigit_of_mem_decimal]
    cases rest with
    | nil => simp
    | cons c rest => simp [hrest c rfl]
  obtain ⟨c, t, hct, hblank, _⟩ := print_start compact 0 (.num n)
  rw [print] at hct
  have hdigit : isDigit c = true := isDigit_of_mem_decimal (by rw [hct]; exact List.mem_cons_self)
  have hskip : skipBlank (decimal n ++ rest) = c :: (t ++ rest) := by
    rw [hct, List.cons_append, skipBlank_cons hblank]
  have hne : ∀ d, isDigit d = false → c ≠ d := by
    rintro d hd rfl
    rw [hd] at hdigit
    cases hdigit
  unfold parseValue
  rw [hskip]
  simp only [hne 34 rfl, hne 91 rfl, hne 123 rfl, hdigit, if_false, if_true]
  rw [← List.cons_append, ← hct, htake, hdrop, readDigits_decimal]

/-- A member is read back if its value is. -/
theorem parseMember_printMember
    {L : Layout} {depth : Nat} {value : Str → Option (Json × Str)} {j : Json}
    (name : Str)
    (hvalue : ReadsBack value (print L depth) j) :
    ReadsBack (parseMember value) (printMember L depth) (name, j) := by
  intro ws rest hws hrest
  have htext : printMember L depth (name, j) ++ rest =
      34 :: (escape name ++ 34 :: (58 :: (L.gap ++ (print L depth j ++ rest)))) := by
    simp [printMember, quoted]
  rw [htext, parseMember, skipBlank_append hws, skipBlank_cons rfl]
  simp only [if_true, readString_escape]
  rw [skipBlank_cons rfl]
  simp only [if_true, hvalue L.gap rest L.gap_blank hrest, Option.map_some]

theorem parseValue_quoted
    (k : Nat) (s rest : Str) :
    parseValue (k + 1) (quoted s ++ rest) = some (.str s, rest) := by
  unfold parseValue
  rw [quoted, List.cons_append, List.append_assoc, skipBlank_cons rfl]
  simp [readString_escape]

/-- What starts without white space may stand behind some. -/
theorem readsBack_of_parseValue
    {write : Json → Str} {j : Json} {k : Nat}
    (h : ∀ rest, Stops rest → parseValue (k + 1) (write j ++ rest) = some (j, rest)) :
    ReadsBack (parseValue (k + 1)) write j := by
  intro ws rest hws hrest
  rw [parseValue_skip hws]
  exact h rest hrest

/-- An array is read back if its elements are. -/
theorem readsBack_arr
    {L : Layout} {depth k : Nat} {l : List Json}
    (hk : l.length ≤ k)
    (hitems : ∀ b ∈ l, ReadsBack (parseValue k) (print L (depth + 1)) b) :
    ReadsBack (parseValue (k + 1)) (print L depth) (.arr l) := by
  refine readsBack_of_parseValue fun rest _ => ?_
  obtain ⟨text, htext, hparse⟩ := parseEnclosed_enclose L depth 91 isBracket_squared rest hk hitems
    fun b _ => print_start L (depth + 1) b
  rw [print, printElements_eq_map, htext]
  unfold parseValue
  rw [skipBlank_cons rfl]
  simp [hparse]

/-- An object is read back if its members are. -/
theorem readsBack_obj
    {L : Layout} {depth k : Nat} {l : List (Str × Json)}
    (hk : l.length ≤ k)
    (hitems : ∀ m ∈ l, ReadsBack (parseMember (parseValue k)) (printMember L (depth + 1)) m) :
    ReadsBack (parseValue (k + 1)) (print L depth) (.obj l) := by
  refine readsBack_of_parseValue fun rest _ => ?_
  obtain ⟨text, htext, hparse⟩ := parseEnclosed_enclose L depth 123 isBracket_braced rest hk hitems
    fun m _ => printMember_start L (depth + 1) m
  rw [print, printMembers_eq_map, htext]
  unfold parseValue
  rw [skipBlank_cons rfl]
  simp [hparse]

/-- The fuel for the text of a document is enough for its parts. -/
theorem exists_fuel
    {L : Layout} {depth k : Nat} {j : Json}
    (h : (print L depth j).length ≤ k) :
    ∃ k', k = k' + 1 := by
  obtain ⟨c, t, hstart, _⟩ := print_start L depth j
  rw [hstart, List.length_cons] at h
  exact Nat.exists_eq_succ_of_ne_zero (by omega)

/-- A document is read back behind white space, whatever ends it. -/
theorem parseValue_print
    (L : Layout) (j : Json) :
    ∀ (depth k : Nat), (print L depth j).length ≤ k →
      ReadsBack (parseValue k) (print L depth) j := by
  induction j using nestedInduction with
  | null =>
      intro depth k hk
      obtain ⟨k, rfl⟩ := exists_fuel hk
      refine readsBack_of_parseValue fun rest _ => ?_
      rw [print]
      rfl
  | bool b =>
      intro depth k hk
      obtain ⟨k, rfl⟩ := exists_fuel hk
      refine readsBack_of_parseValue fun rest _ => ?_
      cases b with
      | false =>
          rw [print]
          rfl
      | true =>
          rw [print]
          rfl
  | num n =>
      intro depth k hk
      obtain ⟨k, rfl⟩ := exists_fuel hk
      refine readsBack_of_parseValue fun rest hrest => ?_
      rw [print]
      exact parseValue_decimal n k hrest
  | str s =>
      intro depth k hk
      obtain ⟨k, rfl⟩ := exists_fuel hk
      refine readsBack_of_parseValue fun rest _ => ?_
      rw [print]
      exact parseValue_quoted k s rest
  | arr l ih =>
      intro depth k hk
      obtain ⟨k, rfl⟩ := exists_fuel hk
      rw [print, printElements_eq_map] at hk
      obtain ⟨hcount, hlength⟩ := length_le_enclose L depth 91 93 (l.map (print L (depth + 1)))
      rw [List.length_map] at hcount
      refine readsBack_arr (by omega) ?_
      intro b hb
      have hbound := hlength _ (List.mem_map_of_mem hb)
      exact ih b hb (depth + 1) k (by omega)
  | obj l ih =>
      intro depth k hk
      obtain ⟨k, rfl⟩ := exists_fuel hk
      rw [print, printMembers_eq_map] at hk
      obtain ⟨hcount, hlength⟩ :=
        length_le_enclose L depth 123 125 (l.map (printMember L (depth + 1)))
      rw [List.length_map] at hcount
      refine readsBack_obj (by omega) ?_
      rintro ⟨name, b⟩ hm
      have hbound := hlength _ (List.mem_map_of_mem hm)
      simp only [printMember, List.length_append, List.length_cons] at hbound
      have hvalue : (print L (depth + 1) b).length ≤ k := by omega
      exact parseMember_printMember name (ih _ hm (depth + 1) k hvalue)

/-- A written document is read back. -/
theorem read_dump
    {L : Layout} {j : Json} {text : Str}
    (h : dump L j = .ok text) :
    parse text = .ok j ∧ read text = .ok j := by
  unfold dump at h
  split_ifs at h with hunicode
  obtain rfl := Except.ok.inj h
  have hnil : AllBlank [] := fun _ hc => absurd hc List.not_mem_nil
  have hback := parseValue_print L j 0 ((print L 0 j).length + 1) (Nat.le_succ _) [] [] hnil
    (fun _ hc => absurd hc (by simp))
  rw [List.nil_append, List.append_nil] at hback
  rw [parse, read, hback]
  dsimp only
  rw [if_pos hunicode]
  exact ⟨if_neg (not_not_intro rfl), rfl⟩

/-- What is read has strings in UTF-8. -/
theorem isUnicode_of_parse
    {text : Str} {j : Json}
    (h : parse text = .ok j) :
    isUnicode j = true := by
  unfold parse at h
  split at h
  · split_ifs at h with hrest hunicode
    rw [← Except.ok.inj h]
    exact hunicode
  · cases h

/-- Every document in UTF-8 is written. -/
theorem exists_dump
    (L : Layout) {j : Json}
    (h : isUnicode j = true) :
    ∃ text, dump L j = .ok text :=
  ⟨_, if_pos h⟩

end RoundTrip

section Utf8Texts

theorem isUtf8_append
    {s t : Str}
    (hs : isUtf8 s = true)
    (ht : isUtf8 t = true) :
    isUtf8 (s ++ t) = true := by
  rw [isUtf8, beq_iff_eq] at hs ht ⊢
  rw [List.foldl_append, hs, ht]

/-- An ASCII character is complete and cannot complete another one. -/
theorem utf8Step_ascii
    {c : UInt8}
    (h : c < 128)
    (state : Utf8State) :
    utf8Step state c = if state = .accept then .accept else .reject := by
  have htail : ∀ low, 128 ≤ low → (decide (low ≤ c) : Bool) = false := by
    intro low hlow
    exact decide_eq_false (UInt8.not_le.mpr (UInt8.lt_of_lt_of_le h hlow))
  cases state with
  | accept => exact if_pos h
  | reject => rfl
  | tail1 => simp [utf8Step, isTail, htail 128 (by decide)]
  | tail2 => simp [utf8Step, isTail, htail 128 (by decide)]
  | tail3 => simp [utf8Step, isTail, htail 128 (by decide)]
  | afterE0 => simp [utf8Step, htail 160 (by decide)]
  | afterED => simp [utf8Step, htail 128 (by decide)]
  | afterF0 => simp [utf8Step, htail 144 (by decide)]
  | afterF4 => simp [utf8Step, htail 128 (by decide)]

/-- Some ASCII characters in a row have the effect of one. -/
theorem foldl_utf8Step_ascii
    {s : Str}
    (hne : s ≠ [])
    (h : ∀ c ∈ s, c < 128) :
    ∀ state, s.foldl utf8Step state = if state = .accept then .accept else .reject := by
  induction s with
  | nil =>
      exact absurd rfl hne
  | cons c s ih =>
      intro state
      obtain ⟨hc, hs⟩ := List.forall_mem_cons.mp h
      rw [List.foldl_cons, utf8Step_ascii hc]
      by_cases hnil : s = []
      · rw [hnil, List.foldl_nil]
      · rw [ih hnil hs]
        split_ifs <;> simp_all

theorem isUtf8_of_ascii
    {s : Str}
    (h : ∀ c ∈ s, c < 128) :
    isUtf8 s = true := by
  by_cases hnil : s = []
  · rw [hnil]
    rfl
  · rw [isUtf8, foldl_utf8Step_ascii hnil h]
    rfl

theorem isUtf8_cons
    {c : UInt8} {s : Str}
    (hc : c < 128)
    (hs : isUtf8 s = true) :
    isUtf8 (c :: s) = true := by
  have hfirst : isUtf8 [c] = true := isUtf8_of_ascii fun d hd => by rwa [List.mem_singleton.mp hd]
  exact isUtf8_append hfirst hs

/-- The characters written for a byte are the byte itself or ASCII, for an ASCII byte. -/
theorem escapeByte_ascii
    (c : UInt8) :
    escapeByte c = [c] ∨ (c < 128 ∧ escapeByte c ≠ [] ∧ ∀ d ∈ escapeByte c, d < 128) := by
  have hall : ∀ n < 256, escapeByte (UInt8.ofNat n) = [UInt8.ofNat n] ∨
      (UInt8.ofNat n < 128 ∧ escapeByte (UInt8.ofNat n) ≠ [] ∧
        ∀ d ∈ escapeByte (UInt8.ofNat n), d < 128) := by
    decide +kernel
  have hc := hall c.toNat c.toNat_lt
  rwa [UInt8.ofNat_toNat] at hc

/-- Escaping does not show in the automaton. -/
theorem foldl_utf8Step_escape
    (s : Str) :
    ∀ state, (escape s).foldl utf8Step state = s.foldl utf8Step state := by
  induction s with
  | nil =>
      intro state
      rfl
  | cons c s ih =>
      intro state
      rw [escape, List.flatMap_cons, List.foldl_append, List.foldl_cons]
      show (escape s).foldl utf8Step _ = _
      rw [ih]
      rcases escapeByte_ascii c with hsame | ⟨hc, hne, hascii⟩
      · rw [hsame]
        rfl
      · rw [foldl_utf8Step_ascii hne hascii, utf8Step_ascii hc]

theorem isUtf8_escape
    (s : Str) :
    isUtf8 (escape s) = isUtf8 s := by
  rw [isUtf8, isUtf8, foldl_utf8Step_escape]

theorem isUtf8_quoted
    {s : Str}
    (h : isUtf8 s = true) :
    isUtf8 (quoted s) = true :=
  isUtf8_cons (by decide) (isUtf8_append ((isUtf8_escape s).trans h) rfl)

theorem isUtf8_decimal
    (n : Nat) :
    isUtf8 (decimal n) = true := by
  apply isUtf8_of_ascii
  intro c hc
  have hdigit := isDigit_of_mem_decimal hc
  rw [isDigit, Bool.and_eq_true, decide_eq_true_eq, decide_eq_true_eq] at hdigit
  exact UInt8.lt_of_le_of_lt hdigit.2 (by decide)

theorem isUtf8_joinTail
    {close : UInt8} {items : List Str}
    (depth : Nat)
    (hclose : close < 128)
    (hitems : ∀ item ∈ items, isUtf8 item = true) :
    isUtf8 (joinTail compact depth close items) = true := by
  induction items with
  | nil =>
      exact isUtf8_cons hclose rfl
  | cons item items ih =>
      obtain ⟨hitem, hrest⟩ := List.forall_mem_cons.mp hitems
      have htail := isUtf8_append hitem (ih hrest)
      exact isUtf8_cons (by decide) htail

theorem isUtf8_enclose
    {opening close : UInt8} {items : List Str}
    (depth : Nat)
    (hopening : opening < 128)
    (hclose : close < 128)
    (hitems : ∀ item ∈ items, isUtf8 item = true) :
    isUtf8 (enclose compact depth opening close items) = true := by
  cases items with
  | nil =>
      exact isUtf8_cons hopening (isUtf8_cons hclose rfl)
  | cons item items =>
      obtain ⟨hitem, hrest⟩ := List.forall_mem_cons.mp hitems
      have htail := isUtf8_append hitem (isUtf8_joinTail depth hclose hrest)
      exact isUtf8_cons hopening htail

/-- The compact text of a document is UTF-8 itself, so it can be a string of another one. -/
theorem isUtf8_print
    (j : Json) :
    ∀ depth, isUnicode j = true → isUtf8 (print compact depth j) = true := by
  induction j using nestedInduction with
  | null =>
      intro depth _
      rw [print]
      rfl
  | bool b =>
      intro depth _
      cases b with
      | false =>
          rw [print]
          rfl
      | true =>
          rw [print]
          rfl
  | num n =>
      intro depth _
      rw [print]
      exact isUtf8_decimal n
  | str s =>
      intro depth h
      rw [isUnicode] at h
      rw [print]
      exact isUtf8_quoted h
  | arr l ih =>
      intro depth h
      rw [isUnicode] at h
      rw [print, printElements_eq_map]
      refine isUtf8_enclose depth (by decide) (by decide) ?_
      intro item hitem
      obtain ⟨b, hb, rfl⟩ := List.mem_map.mp hitem
      exact ih b hb (depth + 1) (isUnicode_of_mem h b hb)
  | obj l ih =>
      intro depth h
      rw [isUnicode] at h
      rw [print, printMembers_eq_map]
      refine isUtf8_enclose depth (by decide) (by decide) ?_
      intro item hitem
      obtain ⟨⟨name, b⟩, hm, rfl⟩ := List.mem_map.mp hitem
      have hmember := isUnicodeMember_of_mem h _ hm
      rw [isUnicodeMember, Bool.and_eq_true] at hmember
      have hvalue := ih _ hm (depth + 1) hmember.2
      exact isUtf8_append (isUtf8_quoted hmember.1) (isUtf8_cons (by decide) hvalue)

end Utf8Texts

end JsonText
end CosiCoin
