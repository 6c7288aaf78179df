import S4LibLite.Types.Convertors

/-!
# Security codes (`s4mktCode.h`, `s4mktCode.cpp`)

A security has four spellings: a market string (`"sh600997"`), a market code (the
market's base plus the digits, a `uint32_t`), a pure code (the digits as a number)
and a pure string. Arithmetic is `uint32_t` throughout: the bases and their ranges
lie below `2^32`, where it agrees with the `long` arithmetic of the larger constants.
-/

namespace S4LibLite.MktCode

/-! ## Constants -/

/-- `PRB_MK`. -/
def prbMK : UInt32 := 99999999
/-- `SH_PRB`. -/
def shPRB : UInt32 := 1700000000
/-- `SZ_PRB`. -/
def szPRB : UInt32 := 3300000000

/-- `SH_CODE_MIN`. -/
def shCodeMin : ℕ := 600000
/-- `SH_CODE_MAX`. -/
def shCodeMax : ℕ := 699999
/-- `SZ_CODE_MIN`. -/
def szCodeMin : ℕ := 0
/-- `SZ_CODE_MAX`. -/
def szCodeMax : ℕ := 399999

/-! ## Errors and output buffers -/

/-- The compiler the library is built with: the formatters differ. -/
inductive Compiler
  | msvc | other
deriving DecidableEq, Repr

/-- How a conversion ends without a result: it throws `CodeNameConvertError(what)`, or
`sprintf_s` meets a buffer that is too small. -/
inductive CodeError
  | codeNameConvert (what : Bytes)
  | invalidParameter
deriving DecidableEq, Repr

/-- Print `text` into a `char[size]` and make a string of it: `sprintf_s` on MSVC,
`snprintf` elsewhere. -/
def printInto (cc : Compiler) (size : ℕ) (text : Bytes) : Except CodeError Bytes :=
  match cc with
  | .msvc => if text.length < size then .ok text else .error .invalidParameter
  | .other => .ok (snprintf size text)

/-- `std::string::c_str()[i]`. -/
def cAt (s : Bytes) (i : ℕ) : UInt8 := s.getD i 0

/-- The digit loop of the string parsers: it starts behind the market and checks nothing. -/
def parseDigits (mktCode : Bytes) : UInt32 :=
  (mktCode.drop 2).foldl (fun c ch => c * 10 + charToUInt32 ch - 48) 0

/-! ## Pure codes -/

/-- `pureCodeInt_to_mktCodeStr`; the definition takes an `int`. -/
def pureCodeIntToMktCodeStr (cc : Compiler) (pureCode : Int32) : Except CodeError Bytes :=
  if shCodeMin ≤ pureCode.toInt ∧ pureCode.toInt ≤ shCodeMax then
    printInto cc 9 (lit "sh" ++ fmtD0 6 pureCode.toInt)
  else if szCodeMin ≤ pureCode.toInt ∧ pureCode.toInt ≤ szCodeMax then
    printInto cc 9 (lit "sz" ++ fmtD0 6 pureCode.toInt)
  else .error (.codeNameConvert (lit "unknow market for pureCode:" ++ fmtD0 1 pureCode.toInt))

/-- `pureCodeInt_to_pureCodeStr`; the definition takes an `int`. -/
def pureCodeIntToPureCodeStr (cc : Compiler) (pureCode : Int32) : Except CodeError Bytes :=
  if (shCodeMin ≤ pureCode.toInt ∧ pureCode.toInt ≤ shCodeMax) ∨
      (szCodeMin ≤ pureCode.toInt ∧ pureCode.toInt ≤ szCodeMax) then
    printInto cc 9 (fmtD0 6 pureCode.toInt)
  else .error (.codeNameConvert (lit "unknow market for pureCode:" ++ fmtD0 1 pureCode.toInt))

/-- `pureCodeInt_to_mktCodeInt`. -/
def pureCodeIntToMktCodeInt (pureCode : UInt32) : Except CodeError UInt32 :=
  if shCodeMin ≤ pureCode.toNat ∧ pureCode.toNat ≤ shCodeMax then .ok (shPRB + pureCode)
  else if szCodeMin ≤ pureCode.toNat ∧ pureCode.toNat ≤ szCodeMax then .ok (szPRB + pureCode)
  else .error (.codeNameConvert (lit "unknow market for pureCode:" ++ fmtD0 1 pureCode.toNat))

/-! ## Market strings -/

/-- `mktCodeStr_to_mktCodeInt`. -/
def mktCodeStrToMktCodeInt (mktCode : Bytes) : Except CodeError UInt32 :=
  let c := parseDigits mktCode
  if cAt mktCode 0 = 115 ∧ cAt mktCode 1 = 104 then .ok (shPRB + c)
  else if cAt mktCode 0 = 115 ∧ cAt mktCode 1 = 122 then .ok (szPRB + c)
  else .error (.codeNameConvert (lit "unknow code :" ++ mktCode))

/-- `mktCodeStr_to_pureCodeStr`. Behind the market it looks at `c_str()[3]`. -/
def mktCodeStrToPureCodeStr (mktCode : Bytes) : Except CodeError Bytes :=
  if cAt mktCode 0 = 115 ∧ cAt mktCode 1 = 104 then
    if cAt mktCode 3 = 54 then .ok (mktCode.drop 2)
    else .error (.codeNameConvert (lit "sh code error:" ++ mktCode))
  else if cAt mktCode 0 = 115 ∧ cAt mktCode 1 = 122 then
    if cAt mktCode 3 = 48 ∨ cAt mktCode 3 = 51 then .ok (mktCode.drop 2)
    else .error (.codeNameConvert (lit "sz code error:" ++ mktCode))
  else .error (.codeNameConvert (lit "unkonw code :" ++ mktCode))

/-- `mktCodeStr_to_pureCodeInt`. -/
def mktCodeStrToPureCodeInt (mktCode : Bytes) : Except CodeError UInt32 :=
  let c := parseDigits mktCode
  if cAt mktCode 0 = 115 ∧ cAt mktCode 1 = 104 then
    if shCodeMin ≤ c.toNat then .ok c
    else .error (.codeNameConvert (lit "sh code error:" ++ mktCode))
  else if cAt mktCode 0 = 115 ∧ cAt mktCode 1 = 122 then
    if c.toNat < shCodeMin then .ok c
    else .error (.codeNameConvert (lit "sz code error:" ++ mktCode))
  else .error (.codeNameConvert (lit "unkonw code :" ++ mktCode))

/-! ## Market codes -/

/-- The text of a market code in an error message. -/
def mktCodeText (mktCode : UInt32) : Bytes := IntConvertor.convert mktCode.toUInt64.toInt64

/-- The market ranges `[PRB, PRB + PRB_MK]` the decoders of market codes accept. -/
def inMarket (prb mktCode : UInt32) : Bool := prb ≤ mktCode && mktCode ≤ prb + prbMK

/-- `mktCodeInt_to_mktCodeStr`. Off MSVC the Shenzhen format pads to eight digits. -/
def mktCodeIntToMktCodeStr (cc : Compiler) (mktCode : UInt32) : Except CodeError Bytes :=
  if inMarket shPRB mktCode then
    let c := mktCode - shPRB
    match cc with
    | .msvc => printInto cc 11 (lit "sh" ++ fmtD0 6 c.toInt32.toInt)
    | .other => printInto cc 11 (lit "sh" ++ fmtD0 6 c.toInt32.toInt)
  else if inMarket szPRB mktCode then
    let c := mktCode - szPRB
    match cc with
    | .msvc => printInto cc 11 (lit "sz" ++ fmtD0 6 c.toInt32.toInt)
    | .other => printInto cc 11 (lit "sz" ++ fmtD0 8 c.toInt32.toInt)
  else .error (.codeNameConvert (lit "unkonw code :" ++ mktCodeText mktCode))

/-- `mktCodeInt_to_pureCodeStr`. -/
def mktCodeIntToPureCodeStr (cc : Compiler) (mktCode : UInt32) : Except CodeError Bytes :=
  if inMarket shPRB mktCode then
    let c := mktCode - shPRB
    if shCodeMin ≤ c.toNat then printInto cc 11 (fmtD0 6 c.toInt32.toInt)
    else .error (.codeNameConvert (lit "sh code error:" ++ mktCodeText mktCode))
  else if inMarket szPRB mktCode then
    let c := mktCode - szPRB
    if c.toNat < shCodeMin then printInto cc 11 (fmtD0 6 c.toInt32.toInt)
    else .error (.codeNameConvert (lit "sz code error:" ++ mktCodeText mktCode))
  else .error (.codeNameConvert (lit "unkonw code :" ++ mktCodeText mktCode))

/-- `mktCodeInt_to_pureCodeInt`. -/
def mktCodeIntToPureCodeInt (mktCode : UInt32) : Except CodeError UInt32 :=
  if inMarket shPRB mktCode then
    let c := mktCode - shPRB
    if c.toNat < shCodeMin then
      .error (.codeNameConvert (lit "sh code error:" ++ mktCodeText mktCode))
    else .ok c
  else if inMarket szPRB mktCode then
    let c := mktCode - szPRB
    if shCodeMin ≤ c.toNat then
      .error (.codeNameConvert (lit "sz code error:" ++ mktCodeText mktCode))
    else .ok c
  else .error (.codeNameConvert (lit "unkonw code :" ++ mktCodeText mktCode))

end S4LibLite.MktCode
