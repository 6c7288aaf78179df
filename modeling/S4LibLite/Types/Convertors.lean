import S4LibLite.Common.CStr
import S4LibLite.Lib.BackFill

/-!
# Integers to and from text (`s4convertors.h`)

`integer_to_string` fills its buffer from the end, two digits at a time. `integerToString` grows
the text at its front in the same order; `integerToStringIn` stores it in the buffer, and is
`none` where a store is outside. `IntConvertor::convert` reads a text back in `int64_t` and
`uint64_t` arithmetic, which wraps around.
-/

namespace S4LibLite

/-- `digit_pairs`. -/
def digitPairs : Bytes := lit <|
  "00010203040506070809" ++ "10111213141516171819" ++ "20212223242526272829"
    ++ "30313233343536373839" ++ "40414243444546474849" ++ "50515253545556575859"
    ++ "60616263646566676869" ++ "70717273747576777879" ++ "80818283848586878889"
    ++ "90919293949596979899"

/-- The two characters of pair `pos`, in front of the text written so far. -/
def pushPair (pos : ℕ) (p : Bytes) : Bytes :=
  digitPairs.getD (2 * pos) 0 :: digitPairs.getD (2 * pos + 1) 0 :: p

/-- The `while (number > 99)` loop of `integer_to_string`. -/
def integerToStringLoop (number : ℕ) (p : Bytes) : ℕ × Bytes :=
  if 99 < number then integerToStringLoop (number / 100) (pushPair (number % 100) p)
  else (number, p)
termination_by number

/-- `integer_to_string`: the characters from the returned pointer to the end of the buffer. -/
def integerToString (t : Int64) : Bytes :=
  -- UNSIGNED_VALUE_OF: the negation of INT64_MIN wraps to itself
  let number := (if t < 0 then (-t).toUInt64 else t.toUInt64).toNat
  let (number, p) := integerToStringLoop number []
  let p := if 9 < number then pushPair number p else digitChar number :: p
  if t < 0 then 45 :: p else p

/-- `IntConvertor::convert(signed_int)`. -/
def IntConvertor.convert (value : Int64) : Bytes := integerToString value

/-! ## The buffer -/

/-- `*--p`, twice. -/
def putPair {n : ℕ} (pos : ℕ) (p : BackFill UInt8 n) : Option (BackFill UInt8 n) :=
  (p.put (digitPairs.getD (2 * pos + 1) 0)).bind (BackFill.put (digitPairs.getD (2 * pos) 0))

/-- The `while (number > 99)` loop, in the buffer. -/
def integerToStringLoopIn {n : ℕ} (number : ℕ) (p : BackFill UInt8 n) :
    Option (ℕ × BackFill UInt8 n) :=
  if 99 < number then (putPair (number % 100) p).bind (integerToStringLoopIn (number / 100))
  else some (number, p)
termination_by number

/-- What the loop has left of the number. -/
def putLast {n : ℕ} (number : ℕ) (p : BackFill UInt8 n) : Option (BackFill UInt8 n) :=
  if 9 < number then putPair number p else p.put (digitChar number)

/-- `integer_to_string`, in the buffer. -/
def integerToStringIn {n : ℕ} (buf : Vector UInt8 n) (t : Int64) : Option (BackFill UInt8 n) :=
  let number := (if t < 0 then (-t).toUInt64 else t.toUInt64).toNat
  let p := (integerToStringLoopIn number (BackFill.start buf)).bind fun (number, p) =>
    putLast number p
  if t < 0 then p.bind (BackFill.put 45) else p

/-- The bytes of `buffer`: `std::numeric_limits<signed_int>::digits10 + 2`. -/
def intBufferSize : ℕ := 18 + 2

/-- `IntConvertor::convert(signed_int)`, in its buffer. -/
def IntConvertor.convertIn (buffer : Vector UInt8 intBufferSize) (value : Int64) :
    Option Bytes :=
  (integerToStringIn buffer value).map BackFill.text

/-! ## Reading -/

/-- `*str - '0'`, as an `unsigned_int`. -/
def unsignedDigit (c : UInt8) : UInt64 := (c.toInt8.toInt32 - 48).toInt64.toUInt64

/-- The `do … while (++str != end)` loop of `IntConvertor::convert`; `none` is `return false`. -/
def convertLoop (x : Int64) : Bytes → Option Int64
  | [] => some x
  | c :: str =>
    let c := unsignedDigit c
    if 9 < c then none else convertLoop ((10 * x).toUInt64 + c).toInt64 str

/-- `IntConvertor::convert(str, end, result)`: what it returns, and `result` behind it. -/
def IntConvertor.convertInto (str : Bytes) (result : Int64) : Bool × Int64 :=
  if str = [] then (false, result)
  else
    let isNegative := str.head? = some 45
    let str := if isNegative then str.tail else str
    if str = [] then (false, result)
    else
      match convertLoop 0 str with
      | none => (false, result)
      | some x => (true, if isNegative then -x else x)

/-- `Exception`. -/
structure Exception where
  type : Bytes
  detail : Bytes
deriving DecidableEq

/-- `FieldConvertError`. -/
def fieldConvertError (what : Bytes) : Exception := ⟨lit "Could not convert field", what⟩

/-- `IntConvertor::convert(value)`, of a string. -/
def IntConvertor.convertOrThrow (value : Bytes) : Except Exception Int64 :=
  let result := IntConvertor.convertInto value 0
  if result.1 then .ok result.2 else .error (fieldConvertError value)

end S4LibLite
