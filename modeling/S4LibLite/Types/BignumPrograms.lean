import S4LibLite.Types.BignumArray
import Mathlib.Logic.Function.Basic

/-!
# Large numbers in programs (`bignum.h`)

A program calls the functions of several `Bignum`s one after another, each with others of them or
the number itself as operands. What it computes, and every answer it gets, is what it would be for
natural numbers, as long as their arrays suffice; where the numbers stay below `room` they do.

* `Op.call`, a call, and `Op.callNat`, the same for natural numbers;
* `Op.Allowed`, what a call asks for, and `Op.HasRoom`, what an array has to hold beside the result;
* `run_refines`, whole programs.

A build without assertions is meant: those of `DivideModuloIntBignum` ask for a small quotient,
which it is right without.
-/

namespace S4LibLite
namespace Bignum

open Capacity

/-! ## Calls -/

/-- A public function of `Bignum` with its arguments; other numbers stand in registers. -/
inductive Op where
  | assignUInt16 (value : ℕ)
  | assignUInt64 (value : ℕ)
  | assignBignum (other : ℕ)
  | assignDecimalString (value : Bytes)
  | assignPowerUInt16 (base exponent : ℕ)
  | addUInt64 (operand : ℕ)
  | addBignum (other : ℕ)
  | subtractBignum (other : ℕ)
  | square
  | shiftLeft (shiftAmount : ℕ)
  | multiplyByUInt32 (factor : ℕ)
  | multiplyByUInt64 (factor : ℕ)
  | multiplyByPowerOfTen (exponent : ℕ)
  | divideModuloIntBignum (other : ℕ)
  | compare (other : ℕ)
  | plusCompare (b c : ℕ)
deriving DecidableEq

/-- A call on the number in `target`: what that becomes, and the answer if there is one. A number
of several bigits that is divided by itself is taken from zero for ever. -/
def Op.call (regs : ℕ → Bignum) (target : ℕ) : Op → Option (Bignum × Option ℤ)
  | .assignUInt16 value => some (Bignum.assignUInt16 value, none)
  | .assignUInt64 value => some (Bignum.assignUInt64 value, none)
  | .assignBignum other => some (regs other, none)
  | .assignDecimalString value => (zero.assignDecimalLoopIn value).map (·, none)
  | .assignPowerUInt16 base exponent => (assignPowerUInt16In base exponent).map (·, none)
  | .addUInt64 operand => ((regs target).addUInt64In operand).map (·, none)
  | .addBignum other => ((regs target).addBignumIn (regs other)).map (·, none)
  | .subtractBignum other => ((regs target).subtractBignumIn (regs other)).map (·, none)
  | .square => (regs target).squareIn.map (·, none)
  | .shiftLeft shiftAmount => ((regs target).shiftLeftIn shiftAmount).map (·, none)
  | .multiplyByUInt32 factor => ((regs target).multiplyByUInt32In factor).map (·, none)
  | .multiplyByUInt64 factor => ((regs target).multiplyByUInt64In factor).map (·, none)
  | .multiplyByPowerOfTen exponent => ((regs target).multiplyByPowerOfTenIn exponent).map (·, none)
  | .divideModuloIntBignum other =>
    if other = target ∧ (regs target).bigits.length ≠ 1 then none
    else ((regs target).divideModuloIntBignumIn (regs other)).map fun r => (r.1, some (r.2 : ℤ))
  | .compare other => some (regs target, some (Bignum.compare (regs target) (regs other)))
  | .plusCompare b c =>
    some (regs target, some (Bignum.plusCompare (regs target) (regs b) (regs c)))

/-- The same with natural numbers. -/
def Op.callNat (regs : ℕ → ℕ) (a : ℕ) : Op → ℕ × Option ℤ
  | .assignUInt16 value => (value, none)
  | .assignUInt64 value => (value, none)
  | .assignBignum other => (regs other, none)
  | .assignDecimalString value => (decVal value, none)
  | .assignPowerUInt16 base exponent => (base ^ exponent, none)
  | .addUInt64 operand => (a + operand, none)
  | .addBignum other => (a + regs other, none)
  | .subtractBignum other => (a - regs other, none)
  | .square => (a * a, none)
  | .shiftLeft shiftAmount => (a * 2 ^ shiftAmount, none)
  | .multiplyByUInt32 factor => (a * factor, none)
  | .multiplyByUInt64 factor => (a * factor, none)
  | .multiplyByPowerOfTen exponent => (a * 10 ^ exponent, none)
  | .divideModuloIntBignum other => (a % regs other, some (a / regs other % 2 ^ 16 : ℕ))
  | .compare other => (a, some (Int.sign (a - regs other)))
  | .plusCompare b c => (a, some (Int.sign ((a + regs b : ℕ) - regs c)))

/-- What a call on `a` asks for: arguments of their types, digits, nothing below zero and no
division by zero. -/
def Op.Allowed (regs : ℕ → ℕ) (a : ℕ) : Op → Prop
  | .assignUInt16 value => value < 2 ^ 16
  | .assignUInt64 value => value < 2 ^ 64
  | .assignDecimalString value => (∀ c ∈ value, isDigit c = true) ∧ value.length < 2 ^ 31
  | .assignPowerUInt16 base exponent => 0 < base ∧ base < 2 ^ 16 ∧ exponent < 2 ^ 31
  | .addUInt64 operand => operand < 2 ^ 64
  | .subtractBignum other => regs other ≤ a
  | .shiftLeft shiftAmount => shiftAmount < 2 ^ 31
  | .multiplyByUInt32 factor => factor < 2 ^ 32
  | .multiplyByUInt64 factor => factor < 2 ^ 64
  | .multiplyByPowerOfTen exponent => exponent < 2 ^ 31
  | .divideModuloIntBignum other => 0 < regs other
  | _ => True

/-- What a call has to have room for beside its result: the size that a power is asked for before
it is made, and no division of a number by itself. -/
def Op.HasRoom (target : ℕ) : Op → Prop
  | .assignPowerUInt16 base exponent =>
    bitSize (removeTwos base 0).1 * exponent / 28 + 2 ≤ kBigitCapacity
  | .divideModuloIntBignum other => other ≠ target
  | _ => True

/-- A function without an answer. -/
theorem Makes.noAnswer {o : Option Bignum} {n : ℕ} {enough : Prop} (h : Makes o n enough) :
    Gives (o.map (·, (none : Option ℤ))) (fun r => r.1.Held ∧ r.1.value = n ∧ r.2 = none)
      enough :=
  Gives.map h fun _ hr => ⟨hr.1, hr.2, rfl⟩

/-- **One call** keeps a number in its array and does what it does to natural numbers. -/
theorem call_refines {regs : ℕ → Bignum} (hregs : ∀ i, (regs i).Held) {target : ℕ} {op : Op}
    (h : op.Allowed (fun i => (regs i).value) (regs target).value) :
    Gives (op.call regs target)
      (fun r => r.1.Held
        ∧ r.1.value = (op.callNat (fun i => (regs i).value) (regs target).value).1
        ∧ r.2 = (op.callNat (fun i => (regs i).value) (regs target).value).2)
      ((∀ i, (regs i).value < room) ∧ op.HasRoom target
        ∧ (op.callNat (fun i => (regs i).value) (regs target).value).1 < room) := by
  have ha := hregs target
  cases op with
  | assignUInt16 value => exact Gives.some ⟨held_assignUInt16 h, value_assignUInt16 _, rfl⟩
  | assignUInt64 value => exact Gives.some ⟨held_assignUInt64 _, value_assignUInt64 h, rfl⟩
  | assignBignum other => exact Gives.some ⟨hregs other, rfl, rfl⟩
  | assignDecimalString value =>
    have hmakes := makes_assignDecimalLoop held_zero h.1
    rw [value_zero, Nat.zero_mul, Nat.zero_add] at hmakes
    exact hmakes.noAnswer.mono (fun _ hr => hr) fun hroom => hroom.2.2
  | assignPowerUInt16 base exponent =>
    exact (makes_assignPowerUInt16 h.1 h.2.1).noAnswer.mono (fun _ hr => hr)
      fun hroom => hroom.2.1
  | addUInt64 operand =>
    exact (makes_addUInt64 ha h).noAnswer.mono (fun _ hr => hr) fun hroom => hroom.2.2
  | addBignum other =>
    exact (makes_addBignum ha (hregs other)).noAnswer.mono (fun _ hr => hr)
      fun hroom => hroom.2.2
  | subtractBignum other =>
    exact (makes_subtractBignum ha (hregs other) h).noAnswer.mono (fun _ hr => hr)
      fun hroom => hroom.1 target
  | square => exact (makes_square ha).noAnswer.mono (fun _ hr => hr) fun hroom => hroom.2.2
  | shiftLeft shiftAmount =>
    exact (makes_shiftLeft ha _).noAnswer.mono (fun _ hr => hr) fun hroom => hroom.1 target
  | multiplyByUInt32 factor =>
    exact (makes_multiplyByUInt32 ha _).noAnswer.mono (fun _ hr => hr) fun hroom => hroom.2.2
  | multiplyByUInt64 factor =>
    exact (makes_multiplyByUInt64 ha h).noAnswer.mono (fun _ hr => hr) fun hroom => hroom.2.2
  | multiplyByPowerOfTen exponent =>
    have hfive : (regs target).value * 5 ^ exponent ≤ (regs target).value * 10 ^ exponent :=
      Nat.mul_le_mul_left _ (Nat.pow_le_pow_left (by norm_num) _)
    exact (makes_multiplyByPowerOfTen ha _).noAnswer.mono (fun _ hr => hr)
      fun hroom => hfive.trans_lt hroom.2.2
  | divideModuloIntBignum other =>
    rw [Op.call]
    split
    · rename_i hself
      exact ⟨fun _ hnone => absurd hnone (by simp), fun hroom => absurd hself.1 hroom.2.1⟩
    · refine Gives.map ((gives_divideModuloIntBignum ha (hregs other) h).mono (fun _ hr => hr)
        fun hroom => hroom.1 target) fun r hr => ⟨hr.1, hr.2.1, ?_⟩
      rw [Op.callNat, hr.2.2]
  | compare other =>
    refine Gives.some ⟨ha, rfl, ?_⟩
    rw [Op.callNat, compare_eq_sign ha.toValid (hregs other).toValid]
  | plusCompare b c =>
    refine Gives.some ⟨ha, rfl, ?_⟩
    rw [Op.callNat, plusCompare_eq_sign ha.toValid (hregs b).toValid (hregs c).toValid]

/-! ## Programs -/

/-- A number as a program finds it: in its array, and with a length that an `int` holds. -/
structure Stored (a : Bignum) : Prop extends Held a where
  bigitLength_lt : a.bigitLength + 1 < 2 ^ 31

/-- A number whose `BigitLength()` and the sums with it are beyond an `int` is none. -/
def counted (a : Bignum) : Option Bignum := if a.bigitLength + 1 < 2 ^ 31 then some a else none

theorem gives_counted {a : Bignum} (ha : a.Held) :
    Gives a.counted (fun r => r = a ∧ r.Stored) (a.value < room) := by
  refine Gives.guard (fun hlen => ⟨rfl, ha, hlen⟩) fun hroom => ?_
  have hcapacity : kBigitCapacity < 2 ^ 31 - 1 := by decide
  have := bigitLength_lt_of_room ha.toValid hroom
  omega

/-- A program: each call with the register it is on. It leaves the registers and the answers, if
no call stops it. -/
def run (regs : ℕ → Bignum) : List (ℕ × Op) → Option ((ℕ → Bignum) × List ℤ)
  | [] => some (regs, [])
  | (target, op) :: calls => do
    let result ← op.call regs target
    let a ← counted result.1
    let rest ← run (Function.update regs target a) calls
    some (rest.1, result.2.toList ++ rest.2)

/-- The program with natural numbers. -/
def runNat (regs : ℕ → ℕ) : List (ℕ × Op) → (ℕ → ℕ) × List ℤ
  | [] => (regs, [])
  | (target, op) :: calls =>
    let result := op.callNat regs (regs target)
    let rest := runNat (Function.update regs target result.1) calls
    (rest.1, result.2.toList ++ rest.2)

/-- Every call is allowed when it comes. -/
def RunAllowed (regs : ℕ → ℕ) : List (ℕ × Op) → Prop
  | [] => True
  | (target, op) :: calls => op.Allowed regs (regs target)
    ∧ RunAllowed (Function.update regs target (op.callNat regs (regs target)).1) calls

/-- Every call has room, and so has what it makes. -/
def RunHasRoom (regs : ℕ → ℕ) : List (ℕ × Op) → Prop
  | [] => True
  | (target, op) :: calls => op.HasRoom target ∧ (op.callNat regs (regs target)).1 < room
    ∧ RunHasRoom (Function.update regs target (op.callNat regs (regs target)).1) calls

/-- **Programs over large numbers** compute what they compute over natural numbers: where one ends,
every register holds the number it should, in its array, and every answer is the right one; and it
ends where the numbers leave room. -/
theorem run_refines {regs : ℕ → Bignum} (hregs : ∀ i, (regs i).Stored) {calls : List (ℕ × Op)}
    (h : RunAllowed (fun i => (regs i).value) calls) :
    Gives (run regs calls)
      (fun r => (∀ i, (r.1 i).Stored)
        ∧ (fun i => (r.1 i).value) = (runNat (fun i => (regs i).value) calls).1
        ∧ r.2 = (runNat (fun i => (regs i).value) calls).2)
      ((∀ i, (regs i).value < room) ∧ RunHasRoom (fun i => (regs i).value) calls) := by
  induction calls generalizing regs with
  | nil => exact Gives.some ⟨hregs, rfl, rfl⟩
  | cons call calls ih =>
    obtain ⟨target, op⟩ := call
    obtain ⟨hallowed, hrest⟩ := h
    refine ((call_refines (fun i => (hregs i).toHeld) hallowed).mono (fun _ hr => hr)
      fun hroom => ⟨hroom.1, hroom.2.1, hroom.2.2.1⟩).bind ?_
    rintro ⟨result, answer⟩ ⟨hheld, hvalue, hanswer⟩
    dsimp only at hheld hvalue hanswer ⊢
    refine ((gives_counted hheld).mono (fun _ hr => hr)
      fun hroom => hvalue.trans_lt hroom.2.2.1).bind ?_
    rintro _ ⟨rfl, hstored⟩
    rename_i a
    have hupdate : (fun i => (Function.update regs target a i).value)
        = Function.update (fun i => (regs i).value) target
          (op.callNat (fun i => (regs i).value) (regs target).value).1 := by
      funext i
      rcases eq_or_ne i target with rfl | hne
      · rw [Function.update_self, Function.update_self, hvalue]
      · rw [Function.update_of_ne hne, Function.update_of_ne hne]
    have hregs' : ∀ i, (Function.update regs target a i).Stored := by
      intro i
      rcases eq_or_ne i target with rfl | hne
      · rw [Function.update_self]
        exact hstored
      · rw [Function.update_of_ne hne]
        exact hregs i
    rw [← hupdate] at hrest
    refine ((ih hregs' hrest).mono (fun _ hr => hr) fun hroom => ?_).bind ?_
    · obtain ⟨hsmall, -, hlt, hcalls⟩ := hroom
      rw [← hupdate] at hcalls
      refine ⟨fun i => ?_, hcalls⟩
      rcases eq_or_ne i target with rfl | hne
      · rw [Function.update_self]
        exact hvalue.trans_lt hlt
      · rw [Function.update_of_ne hne]
        exact hsmall i
    · rintro ⟨after, answers⟩ ⟨hafter, hvalues, hanswers⟩
      rw [hupdate] at hvalues hanswers
      refine Gives.some ⟨hafter, hvalues, ?_⟩
      dsimp only at hanswers ⊢
      rw [runNat, hanswer, hanswers]

/-- A power of ten, compared with and divided by a number of as many digits; then twice what is
left, compared with that number. -/
def divideProgram : List (ℕ × Op) :=
  [(0, .assignPowerUInt16 10 30), (1, .assignDecimalString (lit "123456789012345678901234567890")),
    (0, .compare 1), (0, .divideModuloIntBignum 1), (0, .plusCompare 0 1)]

theorem run_refines_divide :
    (run (fun _ => zero) divideProgram).isSome
      ∧ ∀ r, run (fun _ => zero) divideProgram = some r → (∀ i, (r.1 i).Stored)
        ∧ (fun i => (r.1 i).value) = (runNat (fun _ => zero.value) divideProgram).1
        ∧ r.2 = (runNat (fun _ => zero.value) divideProgram).2 := by
  have hpos : 0 < decVal (lit "123456789012345678901234567890") := by decide +kernel
  have hallowed : RunAllowed (fun _ => zero.value) divideProgram :=
    ⟨⟨by norm_num, by norm_num, by norm_num⟩,
      ⟨List.all_eq_true.mp (by decide +kernel), by decide⟩, trivial, hpos, trivial, trivial⟩
  have hroom : RunHasRoom (fun _ => zero.value) divideProgram := by
    have hpower : bitSize (removeTwos 10 0).1 * 30 / 28 + 2 ≤ kBigitCapacity := by decide +kernel
    refine ⟨hpower, ?_, trivial, ?_, trivial, ?_, Nat.one_ne_zero, ?_, trivial, ?_, trivial⟩
    all_goals decide +kernel
  have h := run_refines (fun _ => ⟨held_zero, by decide⟩) hallowed
  exact ⟨h.isSome ⟨fun _ => by decide +kernel, hroom⟩, h.result⟩

/-- The answers are that it is larger, the quotient, and that twice the rest is less. -/
example : (runNat (fun _ => 0) divideProgram).2 = [1, 8, -1] := by decide +kernel

end Bignum
end S4LibLite
