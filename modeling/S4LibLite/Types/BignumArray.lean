import S4LibLite.Common.CStr
import S4LibLite.Lib.Capacity
import S4LibLite.Types.BignumPower

/-!
# Large numbers in their arrays (`bignum.cc`, `bignum.h`)

The bigits of a `Bignum` stand in an array of `kBigitCapacity`, and `EnsureCapacity` stops the
program where a function would need more of them; hidden bigits need none. The functions here ask
for the array where `bignum.cc` does, and give what the functions on unbounded lists give.

* `within`, `EnsureCapacity`;
* `addBignumIn`, `shiftLeftIn` and so on, the functions with their arrays;
* `Held`, a number in its array, and `Makes`, what a function makes of it;
* `makes_addBignum` and so on: the results are right and in their arrays, and numbers below `room`
  always have one.
-/

namespace S4LibLite

/-- `kMaxUint64DecimalDigits`. -/
def kMaxUint64DecimalDigits : ℕ := 19

namespace Bignum

open Capacity

/-! ## The functions -/

/-- `kBigitCapacity`. -/
def kBigitCapacity : ℕ := kMaxSignificantBits / 28

/-- `EnsureCapacity(size)`, and then `x`. -/
def within {α : Type*} (size : ℕ) (x : α) : Option α :=
  if size ≤ kBigitCapacity then some x else none

/-- `Align`. -/
def alignIn (a other : Bignum) : Option Bignum :=
  if a.exponent > other.exponent then
    within (a.bigits.length + (a.exponent - other.exponent)) (a.align other)
  else some a

/-- `AddBignum`. -/
def addBignumIn (a other : Bignum) : Option Bignum := do
  let a ← a.alignIn other
  within (1 + max a.bigitLength other.bigitLength - a.exponent) (a.addBignum other)

/-- `AddUInt64`. -/
def addUInt64In (a : Bignum) (operand : ℕ) : Option Bignum :=
  if operand = 0 then some a else a.addBignumIn (assignUInt64 operand)

/-- `SubtractBignum`. -/
def subtractBignumIn (a other : Bignum) : Option Bignum := do
  let a ← a.alignIn other
  some (a.subtractBignum other)

/-- `ShiftLeft`. -/
def shiftLeftIn (a : Bignum) (shiftAmount : ℕ) : Option Bignum :=
  if a.bigits = [] then some a else within (a.bigits.length + 1) (a.shiftLeft shiftAmount)

/-- `while (carry != 0)`: the array is asked for before every bigit behind those of `a`. -/
def grown (a product : Bignum) : Option Bignum :=
  if a.bigits.length < product.bigits.length then within product.bigits.length product
  else some product

/-- `MultiplyByUInt32`. -/
def multiplyByUInt32In (a : Bignum) (factor : ℕ) : Option Bignum :=
  a.grown (a.multiplyByUInt32 factor)

/-- `MultiplyByUInt64`. -/
def multiplyByUInt64In (a : Bignum) (factor : ℕ) : Option Bignum :=
  a.grown (a.multiplyByUInt64 factor)

/-- `kFive27`. -/
def kFive27 : ℕ := 0x6765c793fa10079d

/-- `kFive13`. -/
def kFive13 : ℕ := 1220703125

/-- `kFive1_to_12`. -/
def kFive1To12 : List ℕ :=
  [5, 25, 125, 625, 3125, 15625, 78125, 390625, 1953125, 9765625, 48828125, 244140625]

/-- A loop of `MultiplyByPowerOfTen`. -/
def powerLoopIn (power : ℕ) (multiply : Bignum → Option Bignum) (remaining : ℕ) (a : Bignum) :
    Option (ℕ × Bignum) :=
  if 0 < power ∧ power ≤ remaining then do
    let a ← multiply a
    powerLoopIn power multiply (remaining - power) a
  else some (remaining, a)
termination_by remaining

/-- `MultiplyByPowerOfTen`. -/
def multiplyByPowerOfTenIn (a : Bignum) (exponent : ℕ) : Option Bignum :=
  if exponent = 0 then some a
  else if a.bigits = [] then some a
  else do
    let after27 ← powerLoopIn 27 (·.multiplyByUInt64In kFive27) exponent a
    let after13 ← powerLoopIn 13 (·.multiplyByUInt32In kFive13) after27.1 after27.2
    let a ← (if 0 < after13.1 then
        after13.2.multiplyByUInt32In (kFive1To12.getD (after13.1 - 1) 0)
      else some after13.2)
    a.shiftLeftIn exponent

/-- `AssignDecimalString`, from `a` on. -/
def assignDecimalLoopIn (a : Bignum) (value : Bytes) : Option Bignum :=
  if kMaxUint64DecimalDigits ≤ value.length then do
    let a ← a.multiplyByPowerOfTenIn kMaxUint64DecimalDigits
    let a ← a.addUInt64In (decVal (value.take kMaxUint64DecimalDigits))
    assignDecimalLoopIn a (value.drop kMaxUint64DecimalDigits)
  else do
    let a ← a.multiplyByPowerOfTenIn value.length
    let a ← a.addUInt64In (decVal value)
    some a.clamp
termination_by value.length
decreasing_by
  rename_i h
  rw [kMaxUint64DecimalDigits] at h ⊢
  rw [List.length_drop]
  omega

/-- `Square`; an array that is long enough is too short for `UNIMPLEMENTED`. -/
def squareIn (a : Bignum) : Option Bignum := within (2 * a.bigits.length) a.square

/-- The second loop of `AssignPowerUInt16`. -/
def squareAndMultiplyIn (base powerExponent mask : ℕ) (a : Bignum) : Option Bignum :=
  if mask ≠ 0 then do
    let a ← a.squareIn
    let a ← (if powerExponent &&& mask ≠ 0 then a.multiplyByUInt32In base else some a)
    squareAndMultiplyIn base powerExponent (mask / 2) a
  else some a
termination_by mask

/-- `AssignPowerUInt16`; a `final_size` beyond an `int` is beyond the array. -/
def assignPowerUInt16In (base powerExponent : ℕ) : Option Bignum :=
  if powerExponent = 0 then some (assignUInt16 1)
  else do
    let odd := removeTwos base 0
    let small ← within (bitSize odd.1 * powerExponent / 28 + 2)
      (powerLoop64 odd.1 (bitSize odd.1) powerExponent (findMask powerExponent 1 / 4) odd.1 false)
    let a := assignUInt64 small.2.1
    let a ← (if small.2.2 then a.multiplyByUInt32In odd.1 else some a)
    let a ← squareAndMultiplyIn odd.1 powerExponent small.1 a
    a.shiftLeftIn (odd.2 * powerExponent)

/-- `DivideModuloIntBignum`. -/
def divideModuloIntBignumIn (a other : Bignum) : Option (Bignum × ℕ) :=
  if a.bigitLength < other.bigitLength then some (a, 0)
  else do
    let a ← a.alignIn other
    some (a.divideModuloIntBignum other)

/-! ## Room -/

/-- A number in its array. -/
structure Held (a : Bignum) : Prop extends Valid a where
  length_le : a.bigits.length ≤ kBigitCapacity

/-- Below this, a number leaves a bigit of the array free. -/
def room : ℕ := (2 ^ 28) ^ (kBigitCapacity - 1)

/-- Every result of `o` is the number `n` in its array, and where it is `enough` there is one. -/
def Makes (o : Option Bignum) (n : ℕ) (enough : Prop) : Prop :=
  Gives o (fun r => r.Held ∧ r.value = n) enough

theorem held_zero : Held zero := ⟨valid_zero, Nat.zero_le _⟩

/-- A number below a power of the base is no longer than that. -/
theorem bigitLength_le_of_value_lt {a : Bignum} (ha : a.Valid) {n : ℕ}
    (h : a.value < (2 ^ 28) ^ n) : a.bigitLength ≤ n := by
  by_contra hlong
  have hle := ha.le_value (ha.bigits_ne_nil_of_bigitLength (by omega))
  have hlt := (Nat.pow_lt_pow_iff_right one_lt_radix).mp (hle.trans_lt h)
  omega

theorem bigitLength_lt_of_room {a : Bignum} (ha : a.Valid) (h : a.value < room) :
    a.bigitLength < kBigitCapacity :=
  (bigitLength_le_of_value_lt ha h).trans_lt (by decide)

theorem lt_pow_of_lt_two_pow {n k m : ℕ} (hn : n < 2 ^ k) (hk : k ≤ 28 * m) :
    n < (2 ^ 28) ^ m :=
  (hn.trans_le (Nat.pow_le_pow_right (by norm_num) hk)).trans_eq (pow_mul _ _ _)

/-- Numbers of few bits leave room. -/
theorem lt_room {n k : ℕ} (hn : n < 2 ^ k) (hk : k ≤ 28 * (kBigitCapacity - 1)) : n < room :=
  lt_pow_of_lt_two_pow hn hk

/-- The bigits of a number below `room`, and one more, fit. -/
theorem length_succ_le_of_room {a : Bignum} (ha : a.Valid) (h : a.value < room) :
    a.bigits.length + 1 ≤ kBigitCapacity :=
  (Nat.succ_le_succ (Nat.le_add_right _ _)).trans (bigitLength_lt_of_room ha h)

/-- `EnsureCapacity` in front of a number that is no longer than what it asks for. -/
theorem makes_within {size n : ℕ} {r : Bignum} {enough : Prop} (hvalid : r.Valid)
    (hvalue : r.value = n) (hlen : r.bigits.length ≤ size)
    (hroom : enough → size ≤ kBigitCapacity) : Makes (within size r) n enough :=
  Gives.guard (fun hsize => ⟨⟨hvalid, hlen.trans hsize⟩, hvalue⟩) hroom

theorem makes_some {a : Bignum} (ha : a.Held) {n : ℕ} (hn : a.value = n) (enough : Prop) :
    Makes (some a) n enough := Gives.some ⟨ha, hn⟩

/-- `Align` keeps the number in its array. -/
theorem gives_align {a : Bignum} (ha : a.Held) (other : Bignum) :
    Gives (a.alignIn other) (fun r => r = a.align other ∧ r.Held) (a.value < room) := by
  rw [alignIn]
  split
  · rename_i hexp
    have hlen : (a.align other).bigits.length
        = a.bigits.length + (a.exponent - other.exponent) := by
      rw [align, if_pos hexp, List.length_append, List.length_replicate, Nat.add_comm]
    refine Gives.guard (fun hsize => ⟨rfl, valid_align ha.toValid other, hlen.trans_le hsize⟩)
      fun hroom => ?_
    have := bigitLength_lt_of_room ha.toValid hroom
    rw [bigitLength] at this
    omega
  · rename_i hexp
    exact Gives.some ⟨(align_of_le (Nat.le_of_not_lt hexp)).symm, ha⟩

/-! ## Assigning, adding and subtracting -/

theorem held_assignUInt16 {n : ℕ} (hn : n < 2 ^ 16) : (assignUInt16 n).Held := by
  refine ⟨valid_assignUInt16 (hn.trans (by norm_num)), ?_⟩
  rw [assignUInt16]
  split
  · exact Nat.zero_le _
  · exact (by decide : 1 ≤ kBigitCapacity)

theorem length_splitBigits (needed n : ℕ) : (splitBigits needed n).length = needed := by
  induction needed generalizing n with
  | zero => rfl
  | succ needed ih => rw [splitBigits, List.length_cons, ih]

theorem held_assignUInt64 (n : ℕ) : (assignUInt64 n).Held := by
  refine ⟨valid_assignUInt64 n, ?_⟩
  rw [assignUInt64]
  split
  · exact Nat.zero_le _
  · refine (length_clamp_le _).trans ?_
    rw [length_splitBigits]
    decide

/-- A sum has at most one bigit more than the longer number. -/
theorem length_addBignum_le {a other : Bignum} (ha : a.Valid) (hother : other.Valid)
    (hexp : a.exponent ≤ other.exponent) :
    (a.addBignum other).bigits.length
      ≤ 1 + max a.bigitLength other.bigitLength - a.exponent := by
  have hvalid := valid_addBignum ha hother
  have hexponent : (a.addBignum other).exponent = a.exponent := by
    rw [addBignum, align_of_le hexp]
  have hlength : (a.addBignum other).bigitLength ≤ 1 + max a.bigitLength other.bigitLength := by
    by_contra hlong
    have hle := hvalid.le_value (hvalid.bigits_ne_nil_of_bigitLength (by omega))
    have hpow : (2 ^ 28) ^ (max a.bigitLength other.bigitLength + 1)
        ≤ (2 ^ 28) ^ ((a.addBignum other).bigitLength - 1) :=
      Nat.pow_le_pow_right (by norm_num) (by omega)
    have hlta : a.value < (2 ^ 28) ^ max a.bigitLength other.bigitLength :=
      ha.value_lt.trans_le (Nat.pow_le_pow_right (by norm_num) (Nat.le_max_left _ _))
    have hlto : other.value < (2 ^ 28) ^ max a.bigitLength other.bigitLength :=
      hother.value_lt.trans_le (Nat.pow_le_pow_right (by norm_num) (Nat.le_max_right _ _))
    rw [value_addBignum ha] at hle
    rw [pow_succ (2 ^ 28)] at hpow
    omega
  rw [bigitLength, hexponent] at hlength
  omega

/-- `AddBignum`. -/
theorem makes_addBignum {a other : Bignum} (ha : a.Held) (hother : other.Held) :
    Makes (a.addBignumIn other) (a.value + other.value) (a.value + other.value < room) := by
  refine ((gives_align ha other).mono (fun _ h => h) fun h => by omega).bind ?_
  rintro r ⟨rfl, hheld⟩
  have hexp : (a.align other).exponent ≤ other.exponent := by
    rw [exponent_align]
    exact Nat.min_le_right _ _
  refine makes_within (valid_addBignum hheld.toValid hother.toValid)
    (by rw [value_addBignum hheld.toValid, value_align])
    (length_addBignum_le hheld.toValid hother.toValid hexp) fun hroom => ?_
  have hlena := bigitLength_lt_of_room ha.toValid (show a.value < room by omega)
  have hleno := bigitLength_lt_of_room hother.toValid (show other.value < room by omega)
  rw [bigitLength_align]
  omega

/-- `AddUInt64`. -/
theorem makes_addUInt64 {a : Bignum} (ha : a.Held) {n : ℕ} (hn : n < 2 ^ 64) :
    Makes (a.addUInt64In n) (a.value + n) (a.value + n < room) := by
  rw [addUInt64In]
  split
  · rename_i h0
    exact makes_some ha (by rw [h0, Nat.add_zero]) _
  · have h := makes_addBignum ha (held_assignUInt64 n)
    rwa [value_assignUInt64 hn] at h

/-- `SubtractBignum`. -/
theorem makes_subtractBignum {a other : Bignum} (ha : a.Held) (hother : other.Held)
    (hle : other.value ≤ a.value) :
    Makes (a.subtractBignumIn other) (a.value - other.value) (a.value < room) := by
  refine (gives_align ha other).bind ?_
  rintro r ⟨rfl, hheld⟩
  rw [← value_align a other] at hle ⊢
  have hexp : (a.align other).exponent ≤ other.exponent := by
    rw [exponent_align]
    exact Nat.min_le_right _ _
  exact makes_some ⟨valid_subtractBignum hheld.toValid other,
    (length_subtractBignum_le hheld.toValid hother.toValid hexp hle).trans hheld.length_le⟩
    (value_subtractBignum hheld.toValid hother.toValid hle) _

/-! ## Shifting and multiplying -/

theorem length_shiftLoop_le (s : ℕ) (xs : List ℕ) (carry : ℕ) :
    (shiftLoop s xs carry).length ≤ xs.length + 1 := by
  induction xs generalizing carry with
  | nil =>
    rw [shiftLoop]
    split
    · exact Nat.zero_le _
    · exact le_rfl
  | cons x xs ih =>
    rw [shiftLoop, List.length_cons, List.length_cons]
    exact Nat.succ_le_succ (ih _)

/-- `ShiftLeft`: whole bigits of the shift are hidden, and the rest takes one more. -/
theorem gives_shiftLeft {a : Bignum} (ha : a.Held) (s : ℕ) :
    Gives (a.shiftLeftIn s) (fun r => (r.Held ∧ r.value = a.value * 2 ^ s)
      ∧ r.bigits.length ≤ a.bigits.length + 1) (a.bigits.length < kBigitCapacity) := by
  rw [shiftLeftIn]
  split
  · rename_i hnil
    exact Gives.some ⟨⟨ha, by rw [ha.value_eq_zero_iff.mpr hnil, Nat.zero_mul]⟩, Nat.le_succ _⟩
  · rename_i hne
    have hlen : (a.shiftLeft s).bigits.length ≤ a.bigits.length + 1 := by
      rw [shiftLeft, if_neg hne]
      exact length_shiftLoop_le _ _ _
    exact Gives.guard (fun hsize => ⟨⟨⟨valid_shiftLeft ha.toValid s, hlen.trans hsize⟩,
      value_shiftLeft ha.toValid s⟩, hlen⟩) fun hroom => hroom

/-- `ShiftLeft` in the array. -/
theorem makes_shiftLeft {a : Bignum} (ha : a.Held) (s : ℕ) :
    Makes (a.shiftLeftIn s) (a.value * 2 ^ s) (a.value < room) :=
  (gives_shiftLeft ha s).mono (fun _ hr => hr.1) (length_succ_le_of_room ha.toValid)

/-- A product that may need more bigits. -/
theorem makes_grown {a product : Bignum} (ha : a.Held) (hvalid : product.Valid) {n : ℕ}
    (hvalue : product.value = n) : Makes (a.grown product) n (n < room) := by
  rw [grown]
  split
  · refine makes_within hvalid hvalue le_rfl fun hroom => ?_
    exact (Nat.le_succ _).trans (length_succ_le_of_room hvalid (hvalue.trans_lt hroom))
  · rename_i hshort
    exact makes_some ⟨hvalid, (Nat.le_of_not_lt hshort).trans ha.length_le⟩ hvalue _

/-- `MultiplyByUInt32`. -/
theorem makes_multiplyByUInt32 {a : Bignum} (ha : a.Held) (factor : ℕ) :
    Makes (a.multiplyByUInt32In factor) (a.value * factor) (a.value * factor < room) :=
  makes_grown ha (valid_multiplyByUInt32 ha.toValid factor) (value_multiplyByUInt32 a factor)

/-- `MultiplyByUInt64`. -/
theorem makes_multiplyByUInt64 {a : Bignum} (ha : a.Held) {factor : ℕ} (hf : factor < 2 ^ 64) :
    Makes (a.multiplyByUInt64In factor) (a.value * factor) (a.value * factor < room) :=
  makes_grown ha (valid_multiplyByUInt64 ha.toValid hf) (value_multiplyByUInt64 ha.toValid hf)

/-- The table of the powers of five. -/
theorem kFive1To12_getD {n : ℕ} (h0 : 0 < n) (hn : n < 13) :
    kFive1To12.getD (n - 1) 0 = 5 ^ n := by
  interval_cases n <;> rfl

/-- The loops multiply by the powers they take off, as long as the whole power fits. -/
theorem gives_powerLoop {power factor : ℕ} {multiply : Bignum → Option Bignum}
    (hmultiply : ∀ a : Bignum, a.Held →
      Makes (multiply a) (a.value * factor) (a.value * factor < room))
    (hfactor : factor = 5 ^ power) (hpower : 0 < power) (remaining : ℕ) {a : Bignum}
    (ha : a.Held) :
    Gives (powerLoopIn power multiply remaining a)
      (fun r => r.2.Held ∧ r.1 < power ∧ r.2.value * 5 ^ r.1 = a.value * 5 ^ remaining)
      (a.value * 5 ^ remaining < room) := by
  fun_induction powerLoopIn power multiply remaining a with
  | case1 remaining a hcond ih =>
    have hsplit : a.value * factor * 5 ^ (remaining - power) = a.value * 5 ^ remaining := by
      rw [hfactor, Nat.mul_assoc, ← pow_add, Nat.add_sub_cancel' hcond.2]
    have hle : a.value * factor ≤ a.value * 5 ^ remaining := by
      rw [← hsplit]
      exact Nat.le_mul_of_pos_right _ (by positivity)
    refine ((hmultiply a ha).mono (fun _ h => h) hle.trans_lt).bind ?_
    rintro r ⟨hheld, hvalue⟩
    have h := ih r hheld
    rwa [hvalue, hsplit] at h
  | case2 remaining a hcond =>
    exact Gives.some ⟨ha, Nat.lt_of_not_le fun hle => hcond ⟨hpower, hle⟩, rfl⟩

/-- `MultiplyByPowerOfTen`: a power of five has to fit, and the shift takes one bigit more. -/
theorem gives_multiplyByPowerOfTen {a : Bignum} (ha : a.Held) (exponent : ℕ) :
    Gives (a.multiplyByPowerOfTenIn exponent)
      (fun r => (r.Held ∧ r.value = a.value * 10 ^ exponent)
        ∧ ∀ n, a.value * 5 ^ exponent < (2 ^ 28) ^ n → r.bigits.length ≤ n + 1)
      (a.value * 5 ^ exponent < room) := by
  have hlength : ∀ {r : Bignum} {n : ℕ}, r.Valid → r.value < (2 ^ 28) ^ n → r.bigits.length ≤ n :=
    fun hr hn => (Nat.le_add_right _ _).trans (bigitLength_le_of_value_lt hr hn)
  rw [multiplyByPowerOfTenIn]
  split
  · rename_i h0
    rw [h0, pow_zero, pow_zero, Nat.mul_one]
    exact Gives.some ⟨⟨ha, rfl⟩, fun n hn => (hlength ha.toValid hn).trans (Nat.le_succ n)⟩
  split
  · rename_i hnil
    refine Gives.some ⟨⟨ha, by rw [ha.value_eq_zero_iff.mpr hnil, Nat.zero_mul]⟩, fun n _ => ?_⟩
    rw [hnil]
    exact Nat.zero_le _
  · have hten : a.value * 10 ^ exponent = a.value * 5 ^ exponent * 2 ^ exponent := by
      rw [Nat.mul_assoc, ← Nat.mul_pow]
    rw [hten]
    refine (gives_powerLoop (fun a ha => makes_multiplyByUInt64 ha (by norm_num [kFive27]))
      (show kFive27 = 5 ^ 27 by norm_num [kFive27]) (by norm_num) exponent ha).bind ?_
    rintro after27 ⟨hheld27, hlt27, hvalue27⟩
    have hloop13 := gives_powerLoop (fun a ha => makes_multiplyByUInt32 ha kFive13)
      (show kFive13 = 5 ^ 13 by norm_num [kFive13]) (by norm_num) after27.1 hheld27
    rw [hvalue27] at hloop13
    refine hloop13.bind ?_
    rintro after13 ⟨hheld13, hlt13, hvalue13⟩
    have hrest : Makes (if 0 < after13.1 then
          after13.2.multiplyByUInt32In (kFive1To12.getD (after13.1 - 1) 0)
        else some after13.2) (a.value * 5 ^ exponent) (a.value * 5 ^ exponent < room) := by
      split
      · rename_i hpos
        rw [kFive1To12_getD hpos hlt13, ← hvalue13]
        exact makes_multiplyByUInt32 hheld13 _
      · rename_i hpos
        rw [Nat.eq_zero_of_not_pos hpos, pow_zero, Nat.mul_one] at hvalue13
        exact makes_some hheld13 hvalue13 _
    refine hrest.bind ?_
    rintro r ⟨hheld, hvalue⟩
    rw [← hvalue]
    exact (gives_shiftLeft hheld exponent).mono
      (fun _ hr => ⟨hr.1, fun n hn => hr.2.trans (Nat.succ_le_succ (hlength hheld.toValid hn))⟩)
      (length_succ_le_of_room hheld.toValid)

/-- `MultiplyByPowerOfTen` in the array. -/
theorem makes_multiplyByPowerOfTen {a : Bignum} (ha : a.Held) (exponent : ℕ) :
    Makes (a.multiplyByPowerOfTenIn exponent) (a.value * 10 ^ exponent)
      (a.value * 5 ^ exponent < room) :=
  (gives_multiplyByPowerOfTen ha exponent).mono (fun _ hr => hr.1) fun hroom => hroom

/-- A power of ten that the array does not hold. -/
example : (assignUInt16 1).multiplyByPowerOfTenIn 2000 = none := by decide +kernel

/-! ## Digits -/

/-- Nineteen digits are a number of sixty-four bits. -/
theorem decVal_lt_two_pow {s : Bytes} (hs : ∀ c ∈ s, isDigit c = true) (hlen : s.length ≤ 19) :
    decVal s < 2 ^ 64 :=
  (decVal_lt hs).trans_le ((Nat.pow_le_pow_right (by norm_num) hlen).trans (by norm_num))

theorem held_clamp {a : Bignum} (ha : a.Held) : a.clamp.Held :=
  ⟨valid_clamp ha.bigit_lt, (length_clamp_le a).trans ha.length_le⟩

/-- Some digits behind a number. -/
theorem makes_appendDigits {a : Bignum} (ha : a.Held) {s : Bytes}
    (hs : ∀ c ∈ s, isDigit c = true) (hlen : s.length ≤ 19) :
    Makes (a.multiplyByPowerOfTenIn s.length >>= fun a => a.addUInt64In (decVal s))
      (a.value * 10 ^ s.length + decVal s) (a.value * 10 ^ s.length + decVal s < room) := by
  have hfive : a.value * 5 ^ s.length ≤ a.value * 10 ^ s.length + decVal s :=
    (Nat.mul_le_mul_left _ (Nat.pow_le_pow_left (by norm_num) _)).trans (Nat.le_add_right _ _)
  refine ((makes_multiplyByPowerOfTen ha s.length).mono (fun _ h => h) hfive.trans_lt).bind ?_
  rintro r ⟨hheld, hvalue⟩
  rw [← hvalue]
  exact makes_addUInt64 hheld (decVal_lt_two_pow hs hlen)

/-- `AssignDecimalString`: nineteen digits at a time, and then the rest. -/
theorem makes_assignDecimalLoop {a : Bignum} (ha : a.Held) {s : Bytes}
    (hs : ∀ c ∈ s, isDigit c = true) :
    Makes (a.assignDecimalLoopIn s) (a.value * 10 ^ s.length + decVal s)
      (a.value * 10 ^ s.length + decVal s < room) := by
  fun_induction assignDecimalLoopIn a s with
  | case1 a s hmany ih =>
    rw [kMaxUint64DecimalDigits] at hmany ih ⊢
    have htake : (s.take 19).length = 19 := List.length_take_of_le hmany
    have hsplit : a.value * 10 ^ s.length + decVal s
        = (a.value * 10 ^ 19 + decVal (s.take 19)) * 10 ^ (s.drop 19).length
          + decVal (s.drop 19) := by
      have happend := decVal_append (s.take 19) (s.drop 19)
      rw [List.take_append_drop] at happend
      rw [happend, List.length_drop, Nat.add_mul, Nat.mul_assoc, ← pow_add,
        Nat.add_sub_cancel' hmany, Nat.add_assoc]
    have hfirst := makes_appendDigits ha (fun c hc => hs c (List.mem_of_mem_take hc)) htake.le
    rw [htake] at hfirst
    rw [hsplit, ← bind_assoc]
    refine (hfirst.mono (fun _ h => h) ?_).bind ?_
    · exact ((Nat.le_mul_of_pos_right _ (by positivity)).trans (Nat.le_add_right _ _)).trans_lt
    · rintro r ⟨hheld, hvalue⟩
      rw [← hvalue]
      exact ih r hheld fun c hc => hs c (List.mem_of_mem_drop hc)
  | case2 a s hrest =>
    rw [kMaxUint64DecimalDigits] at hrest
    rw [← bind_assoc]
    refine (makes_appendDigits ha hs (by omega)).bind ?_
    rintro r ⟨hheld, hvalue⟩
    exact makes_some (held_clamp hheld) ((value_clamp r).trans hvalue) _

/-! ## Powers -/

theorem length_squareLoop (bigits : List ℕ) (count i accumulator : ℕ) :
    (squareLoop bigits count i accumulator).length = count := by
  induction count generalizing i accumulator with
  | zero => rfl
  | succ count ih => rw [squareLoop, List.length_cons, ih]

/-- `Square`. -/
theorem makes_square {a : Bignum} (ha : a.Held) :
    Makes a.squareIn (a.value * a.value) (a.value * a.value < room) := by
  have hcapacity : kBigitCapacity < 256 := by decide
  have hlen := ha.length_le
  obtain ⟨hvalid, hvalue⟩ := spec_square ha.toValid (by omega)
  refine makes_within hvalid hvalue ?_ fun hroom => ?_
  · exact (length_clamp_le _).trans (length_squareLoop _ _ _ _).le
  · by_cases hnil : a.bigits = []
    · rw [hnil]
      exact Nat.zero_le _
    have hle : (2 ^ 28) ^ (a.bigits.length - 1) ≤ a.value :=
      (Nat.pow_le_pow_right (by norm_num) (Nat.sub_le_sub_right (Nat.le_add_right _ _) 1)).trans
        (ha.le_value hnil)
    have hsquare := (Nat.mul_le_mul hle hle).trans_lt hroom
    rw [← pow_add] at hsquare
    have hlt := (Nat.pow_lt_pow_iff_right one_lt_radix).mp hsquare
    have heven : kBigitCapacity % 2 = 0 := by decide
    omega

/-- The second loop squares and multiplies up to the power, if that fits. -/
theorem makes_squareAndMultiply {base p mask : ℕ} {a : Bignum} (hbase : 0 < base)
    (hmask : IsMask mask) (ha : a.Held) (hvalue : a.value = base ^ done p mask) :
    Makes (squareAndMultiplyIn base p mask a) (base ^ p) (base ^ p < room) := by
  fun_induction squareAndMultiplyIn base p mask a with
  | case1 mask a hne ih =>
    have hhalf := done_half (p := p) hmask hne
    have hnext := done_le p (mask / 2)
    have hpow : ∀ k, k ≤ p → base ^ p < room → base ^ k < room :=
      fun k hk => (Nat.pow_le_pow_right hbase hk).trans_lt
    have hsquare := makes_square ha
    rw [hvalue, ← pow_add] at hsquare
    refine (hsquare.mono (fun _ h => h) (hpow _ (by omega))).bind ?_
    rintro r ⟨hheld, hr⟩
    have htimes : Makes (if p &&& mask ≠ 0 then r.multiplyByUInt32In base else some r)
        (base ^ done p (mask / 2)) (base ^ done p (mask / 2) < room) := by
      rw [hhalf]
      split
      · rw [pow_succ, ← hr]
        exact makes_multiplyByUInt32 hheld base
      · exact makes_some hheld hr _
    refine (htimes.mono (fun _ h => h) (hpow _ hnext)).bind ?_
    rintro r' ⟨hheld', hr'⟩
    exact ih r' hmask.half hheld' hr'
  | case2 mask a hzero =>
    have h0 : mask = 0 := by simpa using hzero
    rw [h0, done, if_pos rfl] at hvalue
    exact makes_some ha hvalue _

/-- What `AssignPowerUInt16` asks for is enough for the odd part's power. -/
theorem pow_lt_room {base p : ℕ} (hp : p ≠ 0)
    (h : bitSize base * p / 28 + 2 ≤ kBigitCapacity) : base ^ p < room := by
  refine lt_room (k := bitSize base * p) ?_ (by omega)
  calc base ^ p < (2 ^ bitSize base) ^ p := Nat.pow_lt_pow_left (lt_two_pow_bitSize base) hp
    _ = 2 ^ (bitSize base * p) := (pow_mul _ _ _).symm

/-- `AssignPowerUInt16` makes the power wherever it starts to. -/
theorem makes_assignPowerUInt16 {base p : ℕ} (hbase : 0 < base) (h16 : base < 2 ^ 16) :
    Makes (assignPowerUInt16In base p) (base ^ p)
      (bitSize (removeTwos base 0).1 * p / 28 + 2 ≤ kBigitCapacity) := by
  rw [assignPowerUInt16In]
  split
  · rename_i h0
    exact makes_some (held_assignUInt16 (by norm_num))
      (by rw [value_assignUInt16, h0, pow_zero]) _
  · rename_i hp
    obtain ⟨hpos, hle, hodd⟩ := removeTwos_spec hbase 0
    rw [pow_zero, Nat.mul_one] at hodd
    dsimp only
    generalize hsmall : powerLoop64 _ _ _ _ _ _ = small
    obtain ⟨hmask, hlt64, hpower⟩ := spec_powerLoop64 (hle.trans_lt h16) hp hsmall.symm
    have hodd_pow : base ^ p = (removeTwos base 0).1 ^ p * 2 ^ ((removeTwos base 0).2 * p) := by
      rw [pow_mul, ← Nat.mul_pow, ← hodd]
    have hassigned := held_assignUInt64 small.2.1
    have htimes : Makes (if small.2.2 then
          (assignUInt64 small.2.1).multiplyByUInt32In (removeTwos base 0).1
        else some (assignUInt64 small.2.1)) ((removeTwos base 0).1 ^ done p small.1)
        ((removeTwos base 0).1 ^ done p small.1 < room) := by
      have hvalue := value_assignUInt64 hlt64
      rw [← hpower]
      split
      · have h := makes_multiplyByUInt32 hassigned (removeTwos base 0).1
        rwa [hvalue] at h
      · exact makes_some hassigned (by rw [hvalue, Nat.mul_one]) _
    refine Gives.bind (P := fun r => r = small ∧ (removeTwos base 0).1 ^ p < room)
      (Gives.guard (fun hsize => ⟨rfl, pow_lt_room hp hsize⟩) fun h => h) ?_
    rintro _ ⟨rfl, hfits⟩
    refine (htimes.mono (fun _ h => h) fun _ =>
      (Nat.pow_le_pow_right hpos (done_le p _)).trans_lt hfits).bind ?_
    rintro r ⟨hheld, hr⟩
    refine ((makes_squareAndMultiply hpos hmask hheld hr).mono (fun _ h => h)
      fun _ => hfits).bind ?_
    rintro r' ⟨hheld', hr'⟩
    rw [hodd_pow, ← hr']
    exact (makes_shiftLeft hheld' _).mono (fun _ h => h) fun _ => hr'.trans_lt hfits

/-! ## Quotients -/

/-- `DivideModuloIntBignum`. -/
theorem gives_divideModuloIntBignum {a other : Bignum} (ha : a.Held) (hother : other.Held)
    (hpos : 0 < other.value) :
    Gives (a.divideModuloIntBignumIn other)
      (fun r => r.1.Held ∧ r.1.value = a.value % other.value
        ∧ r.2 = a.value / other.value % 2 ^ 16) (a.value < room) := by
  rw [divideModuloIntBignumIn]
  split
  · rename_i hshort
    have hlt := ha.value_lt_of_bigitLength_lt hother.toValid hshort
    exact Gives.some ⟨ha, (Nat.mod_eq_of_lt hlt).symm, by rw [Nat.div_eq_of_lt hlt, Nat.zero_mod]⟩
  · refine (gives_align ha other).bind ?_
    rintro r ⟨rfl, hheld⟩
    obtain ⟨hvalid, hmod, hdiv, hlen⟩ :=
      spec_divideModuloIntBignum hheld.toValid hother.toValid hpos
    rw [value_align] at hmod hdiv
    have hexp : (a.align other).exponent ≤ other.exponent := by
      rw [exponent_align]
      exact Nat.min_le_right _ _
    rw [align_of_le hexp] at hlen
    exact Gives.some ⟨⟨hvalid, hlen.trans hheld.length_le⟩, hmod, hdiv⟩

end Bignum
end S4LibLite
