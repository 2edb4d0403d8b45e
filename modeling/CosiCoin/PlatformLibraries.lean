import Mathlib.Algebra.Ring.Nat
import Mathlib.Data.List.Basic

/-!
# COSICOIN: the libraries the code is linked against

The validators, wallets and the block database call two vendored libraries:
the SHA-256 class of lib/signature/sha256.cc and the JSON class of
include/json/json.hpp.  Everything above them only relies on three functions,

* `hash`, the 64 hexadecimal characters `signature::hash` returns;
* `dump`, `nlohmann::json::dump`, which throws on text that is not UTF-8;
* `parse`, `nlohmann::json::parse`, which throws on text that is not JSON.

They are collected in the class `Platform`.  What a proof relies on beyond
their types is a field of `LawfulPlatform`.
-/

namespace CosiCoin

/-- A `std::string`: a sequence of bytes. -/
abbrev Str := List UInt8

/-- `std::to_string` of an unsigned integer. -/
def decimal (n : Nat) : Str :=
  (Nat.toDigits 10 n).map Char.toUInt8

/-- The documents that occur as `nlohmann::json` values in the code. -/
inductive Json where
  | null
  | bool (b : Bool)
  | num (n : Nat)
  | str (s : Str)
  | arr (elements : List Json)
  | obj (members : List (Str × Json))

/-- The member name "S0". -/
def nameS0 : Str := [83, 48]

/-- The member name "S1". -/
def nameS1 : Str := [83, 49]

/-- The document built by `SigKey_to_string` from the two halves of a key. -/
def keyDocument (S0 S1 : List Str) : Json :=
  .obj [(nameS0, .arr (S0.map .str)), (nameS1, .arr (S1.map .str))]

/-- The characters 0-9 and a-f. -/
def isHexDigit (c : UInt8) : Bool :=
  (48 ≤ c && c ≤ 57) || (97 ≤ c && c ≤ 102)

/-- Text written by `SHA256::getHash`: 64 hexadecimal characters. -/
def IsHexDigest (s : Str) : Prop :=
  s.length = 64 ∧ ∀ c ∈ s, isHexDigit c = true

/-- The vendored functions the code calls. -/
class Platform where
  hash : Str → Str
  dump : Json → Except String Str
  parse : Str → Except String Json

export Platform (hash dump parse)

/-- The documented behaviour of the vendored functions. -/
class LawfulPlatform (P : Platform) : Prop where
  hash_hex : ∀ s, IsHexDigest (hash s)
  parse_dump : ∀ {j : Json} {s : Str}, dump j = .ok s → parse s = .ok j
  parse_nil : ∀ j : Json, parse [] ≠ .ok j
  dump_keyDocument :
    ∀ {S0 S1 : List Str},
      (∀ s ∈ S0, IsHexDigest s) → (∀ s ∈ S1, IsHexDigest s) →
      S0 ≠ [] → S1 ≠ [] →
      ∃ s, dump (keyDocument S0 S1) = .ok s

end CosiCoin
