import CosiCoin.LamportSignature

/-!
# COSICOIN: reading values out of JSON documents

The conversions that `nlohmann::json` performs where the code assigns a value to
a variable, and the range-based loops over a value.  A number is converted to the
width of the variable; a boolean is accepted for the narrow integer types but not
for `uint64_t`, which is the library's own type of unsigned numbers.
-/

namespace CosiCoin

/-- The bytes of a member name. -/
def ascii (name : List Char) : Str :=
  name.map Char.toUInt8

/-- The member name "txID". -/
def nameTxID : Str := ascii ['t', 'x', 'I', 'D']

/-- The member name "value". -/
def nameValue : Str := ascii ['v', 'a', 'l', 'u', 'e']

namespace Json

/-- Conversion to a `std::string`. -/
def getString : Json → Except String Str
  | .str s => .ok s
  | _ => .error "type must be string"

/-- Conversion to an integer type narrower than the library's own. -/
def getNumber : Json → Except String Nat
  | .num n => .ok n
  | .bool b => .ok b.toNat
  | _ => .error "type must be number"

/-- Conversion to a `uint16_t`. -/
def getUInt16 (j : Json) : Except String UInt16 :=
  j.getNumber.map .ofNat

/-- Conversion to a `uint32_t`. -/
def getUInt32 (j : Json) : Except String UInt32 :=
  j.getNumber.map .ofNat

/-- Conversion to a `uint64_t`. -/
def getUInt64 : Json → Except String UInt64
  | .num n => .ok (.ofNat n)
  | _ => .error "type must be number"

/-- The values of a range-based loop: a primitive value is a range of its own. -/
def items : Json → List Json
  | .null => []
  | .arr elements => elements
  | .obj members => members.map Prod.snd
  | .bool b => [.bool b]
  | .num n => [.num n]
  | .str s => [.str s]

@[simp] theorem getUInt16_num
    (n : UInt16) :
    getUInt16 (.num n.toNat) = .ok n := by
  simp [getUInt16, getNumber, Except.map]

@[simp] theorem getUInt32_num
    (n : UInt32) :
    getUInt32 (.num n.toNat) = .ok n := by
  simp [getUInt32, getNumber, Except.map]

@[simp] theorem getUInt64_num
    (n : UInt64) :
    getUInt64 (.num n.toNat) = .ok n := by
  simp [getUInt64]

end Json

end CosiCoin
