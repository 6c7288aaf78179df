import S4LibLite.Common.JsonText

/-!
# Searching a text for an object (`s4json_util.cpp`)

`searchJson` scans the characters of a `std::string` from its first brace on, through a
pointer into `c_str()`. It answers `none` where the scan leaves that array or an `int`
overflows. An `int` is an integer here, with `toCInt` where a `size_t` becomes one.
-/

namespace S4LibLite.Json

/-- `JSON_NO_START`. -/
def jsonNoStart : ℤ := -1
/-- `JSON_WAITING_STOP`. -/
def jsonWaitingStop : ℤ := -2
/-- `JSON_ILLEGAL_STOP`. -/
def jsonIllegalStop : ℤ := -3

/-- `INT_MAX`. -/
def intMax : ℤ := 2147483647

/-- `(int)n` for a `size_t`. -/
def toCInt (n : ℕ) : ℤ := (Int32.ofNat n).toInt

/-- `i++` on an `int`. -/
def incr (i : ℤ) : Option ℤ := if i < intMax then some (i + 1) else none

/-- What `searchJson` returns and leaves in its references; `ec` is written on failure only. -/
structure SearchResult where
  found : Bool
  start : ℤ
  stop : ℤ
  ec : Option ℤ
deriving DecidableEq, Repr

/-- The variables of the scan. `jsonstr` is the `std::stack`, its top first. -/
structure Scan where
  jsonstr : List UInt8
  endChar : UInt8
  isObject : Bool
  isArray : Bool
  stop : ℤ
deriving DecidableEq, Repr

/-- How the `switch` is left: on to the next character, with one skipped, by `return false`
with `JSON_ILLEGAL_STOP`, or with `json_end`. -/
inductive Turn
  | next (s : Scan)
  | skip (s : Scan)
  | illegal (s : Scan)
  | done (s : Scan)

namespace Scan

/-- As the loop is entered. -/
def init (start : ℤ) : Scan where
  jsonstr := []
  endChar := 0
  isObject := false
  isArray := false
  stop := start

/-- `jsonstr.push(c)`. -/
def push (c : UInt8) (s : Scan) : Scan := { s with jsonstr := c :: s.jsonstr }

/-- `jsonstr.pop()`. -/
def pop (s : Scan) : Scan := { s with jsonstr := s.jsonstr.tail }

/-- The cases of a closing character. -/
def close (opening : UInt8) (s : Scan) : Turn :=
  if s.jsonstr.head? ≠ some opening then .illegal s
  else if s.pop.jsonstr = [] then .done s.pop
  else .next s.pop

end Scan

/-- The `switch` on a character that is not the terminator. -/
def onChar (c : UInt8) (s : Scan) : Turn :=
  let s := { s with endChar := c }
  if c = 123 then
    if !s.isObject then .next ({ s with isObject := true }.push 123)
    else if s.jsonstr = [] then .done { s with stop := s.stop - 1 }
    else .next (s.push 123)
  else if c = 34 then
    if s.jsonstr.head? ≠ some 34 then .next (s.push c) else .next s.pop
  else if c = 91 then
    if !s.isArray then .next ({ s with isArray := true }.push 91)
    else if s.jsonstr = [] then .illegal s
    else .next (s.push 91)
  else if c = 93 then s.close 91
  else if c = 125 then s.close 123
  else if c = 92 then .skip s
  else .next s

/-- The loop, over the characters from `p` on with the terminator behind them: whether it is
left by `return false`, and its variables. -/
def scanLoop : Bytes → Scan → Option (Bool × Scan)
  | [], _ => none
  | c :: text, s =>
    if c = 0 then some (false, s)
    else
      match onChar c s with
      | .illegal s => some (true, s)
      | .done s => some (false, s)
      | .next s => (incr s.stop).bind fun stop => scanLoop text { s with stop := stop }
      | .skip s =>
        match text with
        | [] => none
        | _ :: text =>
          ((incr s.stop).bind incr).bind fun stop => scanLoop text { s with stop := stop }

/-- What follows the loop. -/
def searchEnd (start : ℤ) (startChar : UInt8) (s : Scan) : SearchResult :=
  if s.jsonstr = [] then
    if startChar = 123 then
      if s.endChar = 125 then ⟨true, start, s.stop, none⟩
      else ⟨false, start, s.stop, some jsonIllegalStop⟩
    else ⟨false, start, s.stop, some jsonIllegalStop⟩
  else ⟨false, start, s.stop, some jsonWaitingStop⟩

/-- `std::string::find`, as a `size_t`. -/
def find (c : UInt8) (str : Bytes) : ℕ := (str.findIdx? (· = c)).getD (UInt64.size - 1)

/-- `searchJson`. -/
def searchJson (str : Bytes) : Option SearchResult :=
  let start := toCInt (find 123 str)
  if toCInt str.length < start then some ⟨false, start, start, some jsonNoStart⟩
  else if 0 ≤ start ∧ start ≤ str.length then
    let text := str.drop start.toNat ++ [0]
    (scanLoop text (.init start)).map fun (returned, s) =>
      if returned then ⟨false, start, s.stop, some jsonIllegalStop⟩
      else searchEnd start (text.headD 0) s
  else none

end S4LibLite.Json
