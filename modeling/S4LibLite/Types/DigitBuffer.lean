import S4LibLite.Common.CStr
import S4LibLite.Lib.Rounding
import Mathlib.Algebra.Order.Field.Rat
import Mathlib.Data.Rat.Floor

/-!
# Carrying in a buffer of digits (`bignum-dtoa.cc`, `fast-dtoa.cc`, `fixed-dtoa.cc`)

The digits of a number are written from the first to the last, and when the last is rounded up it
may become `'0' + 10`. Three functions end with the same loop: from the end of the buffer on, such
a character becomes a zero and the one in front of it grows. Where the first character has become
`'0' + 10`, all others are zeros; it becomes a one and the decimal point moves.

* `propagateCarry`, the loop, and `propagateCarry_spec`, what it keeps;
* `RoundedDigits`, `FixedDigits`, `FixedText`, what a buffer of digits says about a number.
-/

namespace S4LibLite

/-- The loop over `buffer[i]`, from the last character `c` on; what stands in front of it is in
reverse. -/
def carryLoop (c : UInt8) : Bytes → Bytes
  | [] => [c]
  | d :: s => if c ≠ 58 then c :: d :: s else 48 :: carryLoop (d + 1) s

/-- The loop and `if (buffer[0] == '0' + 10)`; the second part is added to the decimal point. -/
def propagateCarry (buffer : Bytes) : Bytes × ℤ :=
  let buffer := (carryLoop (buffer.getLastD 0) buffer.dropLast.reverse).reverse
  if buffer.head? = some 58 then (49 :: buffer.tail, 1) else (buffer, 0)

theorem decVal_nil : decVal [] = 0 := rfl

/-- Where the last character is a digit, nothing is carried. -/
theorem propagateCarry_of_isDigit (s : Bytes) {c : UInt8} (hc : isDigit c = true)
    (hs : s.head? ≠ some 58) : propagateCarry (s ++ [c]) = (s ++ [c], 0) := by
  have hne : c ≠ 58 := fun h => by
    rw [h] at hc
    exact absurd hc (by decide)
  have hloop : ∀ t, carryLoop c t = c :: t := fun t => by
    cases t with
    | nil => rfl
    | cons d t => rw [carryLoop, if_pos hne]
  have hhead : (s ++ [c]).head? ≠ some 58 := by
    cases s with
    | nil => exact fun h => hne (Option.some.inj h)
    | cons d s => exact hs
  rw [propagateCarry, List.getLastD_concat, List.dropLast_concat, hloop, List.reverse_cons,
    List.reverse_reverse, if_neg hhead]

/-- What digits in reverse denote. -/
def revVal (s : Bytes) : ℕ := Nat.ofDigits 10 (s.map digitVal)

/-- A text read from its end. -/
theorem decVal_eq_revVal (s : Bytes) : decVal s = revVal s.reverse := by
  rw [decVal, Numeral.value_eq_ofDigits, revVal, List.map_reverse]

theorem revVal_cons (c : UInt8) (s : Bytes) : revVal (c :: s) = digitVal c + 10 * revVal s := by
  rw [revVal, List.map_cons, Nat.ofDigits_cons, ← revVal]

/-- The next character. -/
theorem isDigit_succ {d : UInt8} (hd : isDigit d = true) :
    (isDigit (d + 1) = true ∨ d + 1 = 58) ∧ digitVal (d + 1) = digitVal d + 1 := by
  obtain ⟨h0, h9⟩ := isDigit_iff.mp hd
  have hsucc : (d + 1).toNat = d.toNat + 1 := by
    rw [UInt8.toNat_add, UInt8.toNat_one, Nat.mod_eq_of_lt (by omega)]
  refine ⟨?_, by rw [digitVal, digitVal, hsucc]; omega⟩
  rcases Nat.lt_or_ge d.toNat 57 with h | h
  · exact Or.inl (isDigit_iff.mpr (by omega))
  · exact Or.inr (UInt8.toNat_inj.mp (by rw [hsucc, show d.toNat = 57 by omega]; rfl))

theorem succ_ne_zero_char {d : UInt8} (hd : isDigit d = true) : d + 1 ≠ 48 := by
  intro h
  have hval := (isDigit_succ hd).2
  rw [h] at hval
  exact absurd hval (Nat.succ_ne_zero _).symm

/-- What the loop leaves: the same number, in digits, but for a carry that has come to the first
place and has left zeros behind it. -/
structure Carried (before after : Bytes) : Prop where
  length_eq : after.length = before.length
  revVal_eq : revVal after = revVal before
  digits : (∀ c ∈ after, isDigit c = true) ∨ after = List.replicate (before.length - 1) 48 ++ [58]
  /-- A first digit that is no zero stays so. -/
  last_ne_zero : before.getLast? ≠ some 48 → after.getLast? ≠ some 48

/-- `carryLoop` carries. -/
theorem carried_carryLoop {c : UInt8} {s : Bytes} (hc : isDigit c = true ∨ c = 58)
    (hs : ∀ d ∈ s, isDigit d = true) : Carried (c :: s) (carryLoop c s) := by
  induction s generalizing c with
  | nil =>
    refine ⟨rfl, rfl, ?_, fun h => h⟩
    rcases hc with hc | rfl
    · exact Or.inl fun d hd => by rwa [List.mem_singleton.mp hd]
    · exact Or.inr rfl
  | cons d s ih =>
    rw [carryLoop]
    split
    · rename_i hten
      refine ⟨rfl, rfl, Or.inl fun e he => ?_, fun h => h⟩
      rcases List.mem_cons.mp he with rfl | he
      · exact hc.resolve_right hten
      · exact hs e he
    · rename_i hten
      obtain rfl := not_not.mp hten
      obtain ⟨hnext, hval⟩ := isDigit_succ (hs d List.mem_cons_self)
      have htail := ih hnext fun e he => hs e (List.mem_cons_of_mem _ he)
      obtain ⟨x, t, hcons⟩ := List.exists_cons_of_ne_nil (List.ne_nil_of_length_pos
        (show 0 < (carryLoop (d + 1) s).length by rw [htail.length_eq]; exact Nat.succ_pos _))
      refine ⟨by rw [List.length_cons, htail.length_eq]; rfl, ?_, ?_, fun h => ?_⟩
      · rw [revVal_cons, htail.revVal_eq, revVal_cons, revVal_cons, revVal_cons, hval,
          show digitVal 48 = 0 from rfl, show digitVal 58 = 10 from rfl]
        ring
      · rcases htail.digits with hdigits | hzeros
        · refine Or.inl fun e he => ?_
          rcases List.mem_cons.mp he with rfl | he
          · rfl
          · exact hdigits e he
        · exact Or.inr (congrArg (48 :: ·) hzeros)
      · have hlast := htail.last_ne_zero
        rw [hcons] at hlast ⊢
        rw [List.getLast?_cons_cons] at h ⊢
        refine hlast ?_
        cases s with
        | nil => exact fun h48 => succ_ne_zero_char (hs d List.mem_cons_self) (Option.some.inj h48)
        | cons e s => rwa [List.getLast?_cons_cons] at h ⊢

theorem decVal_zeros_behind (c : UInt8) (n : ℕ) :
    decVal (c :: List.replicate n 48) = digitVal c * 10 ^ n := by
  induction n with
  | zero => simp [decVal, Numeral.value]
  | succ n ih =>
    rw [List.replicate_succ', ← List.cons_append, decVal_append_singleton, ih, pow_succ,
      show digitVal 48 = 0 from rfl]
    ring

/-- Digits of which the last may be `'0' + 10`, as digits again: as many, of the same number but
for the place of the point, and not beginning with a zero if they did not before. -/
theorem propagateCarry_spec {s : Bytes} {c : UInt8} (hs : ∀ d ∈ s, isDigit d = true)
    (hc : isDigit c = true ∨ c = 58) :
    (propagateCarry (s ++ [c])).1.length = s.length + 1
      ∧ (∀ d ∈ (propagateCarry (s ++ [c])).1, isDigit d = true)
      ∧ (∃ k : ℕ, (propagateCarry (s ++ [c])).2 = k
        ∧ decVal (propagateCarry (s ++ [c])).1 * 10 ^ k = decVal (s ++ [c]))
      ∧ ((s ++ [c]).head? ≠ some 48 → (propagateCarry (s ++ [c])).1.head? ≠ some 48) := by
  have hcarried := carried_carryLoop hc fun d hd => hs d (List.mem_reverse.mp hd)
  have hrev : (s ++ [c]).reverse = c :: s.reverse := by
    rw [List.reverse_append, List.reverse_singleton, List.singleton_append]
  have hlast := hcarried.last_ne_zero
  rw [← hrev, List.getLast?_reverse] at hlast
  rw [propagateCarry, List.getLastD_concat, List.dropLast_concat, decVal_eq_revVal (s ++ [c]), hrev,
    ← hcarried.revVal_eq]
  rcases hcarried.digits with hdigits | hzeros
  · have hne : (carryLoop c s.reverse).reverse.head? ≠ some 58 := by
      rw [List.head?_reverse]
      exact fun h => absurd (hdigits 58 (List.mem_of_getLast? h)) (by decide)
    rw [if_neg hne]
    refine ⟨?_, fun d hd => hdigits d (List.mem_reverse.mp hd), ⟨0, rfl, ?_⟩, ?_⟩
    · rw [List.length_reverse, hcarried.length_eq, List.length_cons, List.length_reverse]
    · rw [decVal_eq_revVal, List.reverse_reverse, pow_zero, Nat.mul_one]
    · rw [List.head?_reverse]
      exact hlast
  · rw [List.length_cons, List.length_reverse, Nat.add_sub_cancel] at hzeros
    have hbuffer : (carryLoop c s.reverse).reverse = 58 :: List.replicate s.length 48 := by
      rw [hzeros, List.reverse_append, List.reverse_singleton, List.reverse_replicate,
        List.singleton_append]
    have hval : revVal (carryLoop c s.reverse) = 10 * 10 ^ s.length := by
      rw [← List.reverse_reverse (carryLoop c s.reverse), ← decVal_eq_revVal, hbuffer,
        decVal_zeros_behind]
      rfl
    rw [hbuffer, List.head?_cons, if_pos rfl, List.tail_cons]
    refine ⟨?_, fun d hd => ?_, ⟨1, rfl, ?_⟩, fun _ => by simp⟩
    · rw [List.length_cons, List.length_replicate]
    · rcases List.mem_cons.mp hd with rfl | hd
      · rfl
      · rw [List.eq_of_mem_replicate hd]
        rfl
    · rw [hval, decVal_zeros_behind, pow_one, show digitVal 49 = 1 from rfl]
      ring

/-! ## What a buffer says about a number -/

open Rounding

/-- The buffer holds `v`, rounded to `n` digits, as `0.d₁…dₙ` times ten to the power of the decimal
point; the first digit is no zero. -/
structure RoundedDigits (n : ℕ) (v : ℚ) (buffer : Bytes) (decimalPoint : ℤ) : Prop where
  length_eq : buffer.length = n
  digits : ∀ d ∈ buffer, isDigit d = true
  first_ne_zero : buffer.head? ≠ some 48
  value_eq : (decVal buffer : ℚ) * 10 ^ (decimalPoint - n) = roundDigits 10 n v

/-- The buffer holds `v`, rounded to `n` digits behind the point, as `0.d₁…dₖ` times ten to the
power of the decimal point, with no more than `n` digits behind the point. -/
structure FixedDigits (n : ℕ) (v : ℚ) (buffer : Bytes) (decimalPoint : ℤ) : Prop where
  digits : ∀ d ∈ buffer, isDigit d = true
  length_le : (buffer.length : ℤ) ≤ decimalPoint + n
  value_eq : (decVal buffer : ℚ) * 10 ^ (decimalPoint - buffer.length) = round (v * 10 ^ n) / 10 ^ n

/-- They do not begin with a zero, and where there are none the point is `n` places in front. -/
structure FixedText (n : ℕ) (v : ℚ) (buffer : Bytes) (decimalPoint : ℤ) : Prop
    extends FixedDigits n v buffer decimalPoint where
  first_ne_zero : buffer.head? ≠ some 48
  point_of_nil : buffer = [] → decimalPoint = -n

/-- What rounds to zero has no digits. -/
theorem fixedText_nil {n : ℕ} {v : ℚ} (hpos : 0 ≤ v) (hlt : v * 10 ^ n < 1 / 2) :
    FixedText n v [] (-n) := by
  have hround : round (v * 10 ^ n) = 0 :=
    round_eq_zero_iff.mpr ⟨by linarith [show 0 ≤ v * 10 ^ n by positivity], hlt⟩
  exact ⟨⟨fun d hd => absurd hd List.not_mem_nil, by simp, by simp [hround, decVal_nil]⟩,
    by simp, fun _ => rfl⟩

theorem digitVal_pos {c : UInt8} (hc : isDigit c = true ∨ c = 58) (hne : c ≠ 48) :
    0 < digitVal c := by
  rcases hc with hc | rfl
  · have h48 : c.toNat ≠ 48 := fun h => hne (UInt8.toNat_inj.mp h)
    have := (isDigit_iff.mp hc).1
    rw [digitVal]
    omega
  · decide

theorem digitChar_ne_zero_char {d : ℕ} (hpos : 0 < d) (hd : d ≤ 10) : digitChar d ≠ 48 := by
  have : ∀ d : Fin 11, 0 < d.val → digitChar d.val ≠ 48 := by decide
  exact this ⟨d, by omega⟩ hpos

/-- Digits whose first is no zero are worth a power of ten. -/
theorem pow_le_decVal {s : Bytes} (hs : ∀ d ∈ s, isDigit d = true) (hne : s ≠ [])
    (hfirst : s.head? ≠ some 48) : 10 ^ (s.length - 1) ≤ decVal s := by
  obtain ⟨c, t, rfl⟩ := List.exists_cons_of_ne_nil hne
  have hpos := digitVal_pos (Or.inl (hs c List.mem_cons_self)) fun h => hfirst (by rw [h]; rfl)
  rw [decVal_cons, List.length_cons, Nat.add_sub_cancel]
  exact (Nat.le_mul_of_pos_left _ hpos).trans (Nat.le_add_right _ _)

section Point

variable {n : ℕ} {v : ℚ} {buffer : Bytes} {decimalPoint : ℤ}

/-- The number is below the power of ten at its point. -/
theorem RoundedDigits.log_lt (hn : 0 < n) (hv : 0 < v)
    (h : RoundedDigits n v buffer decimalPoint) : Int.log 10 v < decimalPoint := by
  have hge := zpow_log_le_roundDigits (show 1 < 10 by norm_num) hn hv
  rw [← h.value_eq, Nat.cast_ofNat] at hge
  have hlt : (decVal buffer : ℚ) < 10 ^ (n : ℤ) := by
    have := decVal_lt h.digits
    rw [h.length_eq] at this
    rw [zpow_natCast]
    exact_mod_cast this
  have hpoint : (10 : ℚ) ^ Int.log 10 v < 10 ^ decimalPoint := by
    refine hge.trans_lt ?_
    rw [show decimalPoint = n + (decimalPoint - n) by ring, zpow_add₀ (by norm_num),
      show (n : ℤ) + (decimalPoint - n) - n = decimalPoint - n by ring]
    exact mul_lt_mul_of_pos_right hlt (zpow_pos (by norm_num) _)
  exact (zpow_lt_zpow_iff_right₀ (show (1 : ℚ) < 10 by norm_num)).mp hpoint

/-- And rounded it is not below the one before. -/
theorem RoundedDigits.zpow_point_le (hn : 0 < n) (h : RoundedDigits n v buffer decimalPoint) :
    (10 : ℚ) ^ (decimalPoint - 1) ≤ roundDigits 10 n v := by
  have hne : buffer ≠ [] := List.ne_nil_of_length_pos (h.length_eq ▸ hn)
  have hpow := pow_le_decVal h.digits hne h.first_ne_zero
  rw [h.length_eq] at hpow
  have hcast : (10 : ℚ) ^ (n - 1 : ℕ) ≤ decVal buffer := by exact_mod_cast hpow
  rw [← h.value_eq, show decimalPoint - 1 = ((n - 1 : ℕ) : ℤ) + (decimalPoint - n) by omega,
    zpow_add₀ (by norm_num), zpow_natCast]
  exact mul_le_mul_of_nonneg_right hcast (zpow_pos (by norm_num) _).le

/-- Digits counted from the first one, where they reach as far as the `m`-th behind the point. -/
theorem RoundedDigits.fixedText (hv : 0 < v) (hn : 0 < n) {m : ℕ}
    (hcount : (n : ℤ) = Int.log 10 v + 1 + m)
    (h : RoundedDigits n v buffer decimalPoint) : FixedText m v buffer decimalPoint := by
  have hscale : Int.log 10 v + 1 - n = -(m : ℤ) := by omega
  have hvalue := h.value_eq
  have hlog := h.log_lt hn hv
  have hlen := h.length_eq
  rw [roundDigits, hscale, Nat.cast_ofNat, zpow_neg, zpow_natCast, div_inv_eq_mul,
    ← div_eq_mul_inv] at hvalue
  exact ⟨⟨h.digits, by omega, by rwa [hlen]⟩, h.first_ne_zero, fun hnil =>
    absurd (hlen.symm.trans (congrArg List.length hnil)) hn.ne'⟩

end Point

/-- Digits that are within half a unit of the last one of a number are, once the carry has gone
through them, the number rounded. -/
theorem roundedDigits_propagateCarry {s : Bytes} {c : UInt8} {x : ℚ} {k : ℤ}
    (hs : ∀ d ∈ s, isDigit d = true) (hc : isDigit c = true ∨ c = 58)
    (hfirst : (s ++ [c]).head? ≠ some 48)
    (hnear : x ∈ Set.Ico (decVal (s ++ [c]) - 1 / 2 : ℚ) (decVal (s ++ [c]) + 1 / 2))
    (hedge : decVal (s ++ [c]) = 10 ^ s.length → (10 : ℚ) ^ s.length - 1 / 20 ≤ x) :
    RoundedDigits (s.length + 1) (x * 10 ^ k) (propagateCarry (s ++ [c])).1
      (k + (s.length + 1) + (propagateCarry (s ++ [c])).2) := by
  obtain ⟨hlen, hdigits, ⟨m, hm, hvalue⟩, hhead⟩ := propagateCarry_spec hs hc
  refine ⟨hlen, hdigits, hhead hfirst, ?_⟩
  have hD := decVal_append_singleton s c
  have hlow : 10 ^ s.length ≤ decVal (s ++ [c]) := by
    rw [hD]
    by_cases hnil : s = []
    · subst hnil
      have := digitVal_pos hc fun h => hfirst (by rw [h]; rfl)
      exact (Nat.one_le_iff_ne_zero.mpr this.ne').trans (Nat.le_add_left _ _)
    · have hs48 : s.head? ≠ some 48 := by rwa [List.head?_append_of_ne_nil _ hnil] at hfirst
      have hpow := pow_le_decVal hs hnil hs48
      have hsplit : 10 ^ s.length = 10 ^ (s.length - 1) * 10 := by
        rw [← pow_succ, Nat.sub_add_cancel (List.length_pos_iff.mpr hnil)]
      omega
  have hhigh : decVal (s ++ [c]) ≤ 10 ^ (s.length + 1) := by
    have hlt := decVal_lt hs
    have hval : digitVal c ≤ 10 := by
      rcases hc with hc | rfl
      · exact (digitVal_lt hc).le
      · decide
    rw [hD, pow_succ]
    omega
  have hround := roundDigits_of_near (k := k) (show 1 < 10 by norm_num)
    (Nat.succ_pos s.length) hnear hlow hhigh (by
      intro h
      rw [Nat.cast_ofNat]
      exact (hedge h).trans' (by norm_num))
  rw [Nat.cast_ofNat] at hround
  rw [hround, hm, ← hvalue]
  push_cast
  rw [show k + ((s.length : ℤ) + 1) + m - (s.length + 1) = m + k by ring, zpow_add₀ (by norm_num),
    zpow_natCast, mul_assoc]

/-! ## Digits that denote the same number -/

/-- Equally many digits of one number are the same. -/
theorem eq_of_decVal_eq {s t : Bytes} (hs : ∀ d ∈ s, isDigit d = true)
    (ht : ∀ d ∈ t, isDigit d = true) (hlen : s.length = t.length) (h : decVal s = decVal t) :
    s = t := by
  rw [← fmtD0_decVal hs, ← fmtD0_decVal ht, hlen, h]

/-- Zeros at the end count as powers of ten. -/
theorem decVal_append_zeros (s : Bytes) (m : ℕ) :
    decVal (s ++ List.replicate m 48) = decVal s * 10 ^ m := by
  rw [decVal_append, List.length_replicate]
  cases m with
  | zero => rfl
  | succ m =>
    rw [List.replicate_succ, decVal_zeros_behind, show digitVal 48 = 0 from rfl, zero_mul, add_zero]

section Point

variable {s t : Bytes} {p q : ℤ}

/-- The point says between which powers of ten a number lies. -/
theorem point_le_of_value_eq (hs : ∀ d ∈ s, isDigit d = true) (hne : s ≠ [])
    (hfirst : s.head? ≠ some 48) (ht : ∀ d ∈ t, isDigit d = true)
    (h : (decVal s : ℚ) * 10 ^ (p - s.length) = decVal t * 10 ^ (q - t.length)) : p ≤ q := by
  have hlow : (10 : ℚ) ^ (s.length - 1) ≤ decVal s := by
    exact_mod_cast pow_le_decVal hs hne hfirst
  have hhigh : (decVal t : ℚ) < 10 ^ t.length := by exact_mod_cast decVal_lt ht
  have hlen := List.length_pos_of_ne_nil hne
  have hpow : (10 : ℚ) ^ (p - 1) < 10 ^ q := by
    calc (10 : ℚ) ^ (p - 1) = 10 ^ (s.length - 1) * 10 ^ (p - s.length) := by
          rw [← zpow_natCast, ← zpow_add₀ (by norm_num)]
          congr 1
          omega
      _ ≤ decVal s * 10 ^ (p - s.length) :=
          mul_le_mul_of_nonneg_right hlow (zpow_pos (by norm_num) _).le
      _ = decVal t * 10 ^ (q - t.length) := h
      _ < 10 ^ t.length * 10 ^ (q - t.length) :=
          mul_lt_mul_of_pos_right hhigh (zpow_pos (by norm_num) _)
      _ = 10 ^ q := by
          rw [← zpow_natCast, ← zpow_add₀ (by norm_num)]
          congr 1
          omega
  have := (zpow_lt_zpow_iff_right₀ (show (1 : ℚ) < 10 by norm_num)).mp hpow
  omega

/-- With the point at the same place the digits are the same but for zeros behind them. -/
theorem eq_append_zeros (hs : ∀ d ∈ s, isDigit d = true) (ht : ∀ d ∈ t, isDigit d = true)
    (hlen : s.length ≤ t.length)
    (h : (decVal s : ℚ) * 10 ^ (p - s.length) = decVal t * 10 ^ (p - t.length)) :
    t = s ++ List.replicate (t.length - s.length) 48 := by
  refine eq_of_decVal_eq ht ?_ ?_ ?_
  · refine List.forall_mem_append.mpr ⟨hs, fun d hd => ?_⟩
    rw [List.eq_of_mem_replicate hd]
    rfl
  · rw [List.length_append, List.length_replicate]
    omega
  · rw [decVal_append_zeros]
    have hscale : (10 : ℚ) ^ (p - s.length)
        = 10 ^ (t.length - s.length) * 10 ^ (p - t.length) := by
      rw [← zpow_natCast, ← zpow_add₀ (by norm_num)]
      congr 1
      omega
    rw [hscale, ← mul_assoc] at h
    have := mul_right_cancel₀ (zpow_ne_zero _ (show (10 : ℚ) ≠ 0 by norm_num)) h
    exact_mod_cast this.symm

end Point

/-- There is one way to write a number, rounded to `n` digits. -/
theorem RoundedDigits.unique {n : ℕ} {v : ℚ} {s t : Bytes} {p q : ℤ} (hn : 0 < n)
    (hs : RoundedDigits n v s p) (ht : RoundedDigits n v t q) : s = t ∧ p = q := by
  have hnil : ∀ {u : Bytes}, u.length = n → u ≠ [] := fun hu =>
    List.ne_nil_of_length_pos (hu ▸ hn)
  have hvalue : (decVal s : ℚ) * 10 ^ (p - s.length) = decVal t * 10 ^ (q - t.length) := by
    rw [hs.length_eq, ht.length_eq, hs.value_eq, ht.value_eq]
  obtain rfl : p = q := le_antisymm
    (point_le_of_value_eq hs.digits (hnil hs.length_eq) hs.first_ne_zero ht.digits hvalue)
    (point_le_of_value_eq ht.digits (hnil ht.length_eq) ht.first_ne_zero hs.digits hvalue.symm)
  have happend := eq_append_zeros hs.digits ht.digits (by rw [hs.length_eq, ht.length_eq]) hvalue
  rw [hs.length_eq, ht.length_eq, Nat.sub_self, List.replicate_zero, List.append_nil] at happend
  exact ⟨happend.symm, rfl⟩

/-- No digits are left where the number is rounded to zero. -/
theorem FixedText.eq_nil {n : ℕ} {v : ℚ} {s : Bytes} {p : ℤ} (hs : FixedText n v s p)
    (hzero : round (v * 10 ^ n) = 0) : s = [] := by
  by_contra hne
  have hpow := pow_le_decVal hs.digits hne hs.first_ne_zero
  have hvalue := hs.value_eq
  rw [hzero, Int.cast_zero, zero_div] at hvalue
  have hval : decVal s = 0 := by
    have := (mul_eq_zero.mp hvalue).resolve_right (zpow_ne_zero _ (by norm_num))
    exact_mod_cast this
  rw [hval] at hpow
  exact absurd hpow (Nat.not_le.mpr (pow_pos (by norm_num) _))

/-- Two ways to write a number, rounded at a digit behind the point, differ in the zeros behind
the digits; if one has none there, it is the shorter one. -/
theorem FixedText.append_zeros {n : ℕ} {v : ℚ} {s t : Bytes} {p q : ℤ} (hs : FixedText n v s p)
    (ht : FixedText n v t q) (hlast : s.getLast? ≠ some 48) :
    p = q ∧ ∃ m, t = s ++ List.replicate m 48 := by
  by_cases hzero : round (v * 10 ^ n) = 0
  · have hsnil := hs.eq_nil hzero
    have htnil := ht.eq_nil hzero
    exact ⟨(hs.point_of_nil hsnil).trans (ht.point_of_nil htnil).symm, 0, by rw [hsnil, htnil]; rfl⟩
  have hnil : ∀ {u : Bytes} {x : ℤ}, FixedText n v u x → u ≠ [] := fun hu hunil => by
    have hvalue := hu.value_eq
    rw [hunil, decVal_nil, Nat.cast_zero, zero_mul, eq_comm, div_eq_zero_iff] at hvalue
    exact hzero (by exact_mod_cast hvalue.resolve_right (pow_ne_zero _ (by norm_num)))
  have hvalue : (decVal s : ℚ) * 10 ^ (p - s.length) = decVal t * 10 ^ (q - t.length) := by
    rw [hs.value_eq, ht.value_eq]
  obtain rfl : p = q := le_antisymm
    (point_le_of_value_eq hs.digits (hnil hs) hs.first_ne_zero ht.digits hvalue)
    (point_le_of_value_eq ht.digits (hnil ht) ht.first_ne_zero hs.digits hvalue.symm)
  refine ⟨rfl, t.length - s.length, ?_⟩
  rcases Nat.le_total s.length t.length with hle | hle
  · exact eq_append_zeros hs.digits ht.digits hle hvalue
  · -- more digits than the other has would have to end with a zero
    have happend := eq_append_zeros ht.digits hs.digits hle hvalue.symm
    rcases Nat.eq_zero_or_pos (s.length - t.length) with hm | hm
    · rw [hm, List.replicate_zero, List.append_nil] at happend
      rw [happend, Nat.sub_self, List.replicate_zero, List.append_nil]
    · obtain ⟨m, hm'⟩ := Nat.exists_eq_succ_of_ne_zero hm.ne'
      rw [happend, hm', List.replicate_succ', ← List.append_assoc, List.getLast?_concat] at hlast
      exact absurd rfl hlast

end S4LibLite
