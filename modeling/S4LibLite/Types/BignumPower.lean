import S4LibLite.Types.BignumTheorems
import Mathlib.Data.Nat.Bitwise

/-!
# Powers and quotients of large numbers

`AssignPowerUInt16` squares its way down the bits of the exponent, on sixty-four bits as long as
they last; `DivideModuloIntBignum` takes multiples away that a look at the first bigits allows.

* `spec_square`, the column sums fit into sixty-four bits and settle to the square;
* `spec_assignPowerUInt16`, the power;
* `spec_subtractTimes`, a multiple taken away;
* `spec_divideModuloIntBignum`, quotient and remainder.
-/

namespace S4LibLite
namespace Bignum

open Carry

/-! ## Squares -/

theorem getD_lt {xs : List ℕ} (hxs : ∀ x ∈ xs, x < 2 ^ 28) (i : ℕ) : xs.getD i 0 < 2 ^ 28 := by
  rcases Nat.lt_or_ge i xs.length with h | h
  · rw [List.getD_eq_getElem _ _ h]
    exact hxs _ (List.getElem_mem h)
  · rw [List.getD_eq_default _ _ h]
    norm_num

/-- A column's sum, as long as sixty-four bits last. -/
theorem accumulate_eq {xs : List ℕ} (hxs : ∀ x ∈ xs, x < 2 ^ 28) (count index1 index2 : ℕ)
    {accumulator : ℕ} (hroom : accumulator + count * 2 ^ 56 < 2 ^ 64) :
    accumulate xs accumulator count index1 index2
      = accumulator
        + ∑ j ∈ Finset.range count, xs.getD (index1 - j) 0 * xs.getD (index2 + j) 0 := by
  induction count generalizing accumulator index1 index2 with
  | zero => simp [accumulate]
  | succ count ih =>
    have hproduct : xs.getD index1 0 * xs.getD index2 0 < 2 ^ 56 := by
      calc xs.getD index1 0 * xs.getD index2 0 < 2 ^ 28 * 2 ^ 28 :=
            Nat.mul_lt_mul'' (getD_lt hxs _) (getD_lt hxs _)
        _ = 2 ^ 56 := by norm_num
    rw [accumulate, Nat.mod_eq_of_lt (by omega), ih _ _ (by omega), Finset.sum_range_succ',
      Nat.sub_zero, Nat.add_zero index2]
    have hshift : ∀ j, xs.getD (index1 - 1 - j) 0 * xs.getD (index2 + 1 + j) 0
        = xs.getD (index1 - (j + 1)) 0 * xs.getD (index2 + (j + 1)) 0 := by
      intro j
      rw [Nat.sub_sub, Nat.add_comm 1 j, Nat.add_assoc index2 1 j, Nat.add_comm 1 j]
    simp only [hshift]
    omega

theorem accumulate_lt (xs : List ℕ) (count index1 index2 : ℕ) {accumulator : ℕ}
    (h : accumulator < 2 ^ 64) : accumulate xs accumulator count index1 index2 < 2 ^ 64 := by
  induction count generalizing accumulator index1 index2 with
  | zero => exact h
  | succ count ih => exact ih _ _ (Nat.mod_lt _ (by norm_num))

/-- A column of the square. -/
def squareColumn (xs : List ℕ) (i : ℕ) : ℕ :=
  ∑ j ∈ Finset.range (i + 1), xs.getD j 0 * xs.getD (i - j) 0

/-- The columns in the upper half leave the products out that are zero. -/
theorem squareColumn_upper {xs : List ℕ} {i : ℕ} (hlow : xs.length ≤ i)
    (hhigh : i < 2 * xs.length) :
    ∑ j ∈ Finset.range (xs.length - (i - (xs.length - 1))),
        xs.getD (xs.length - 1 - j) 0 * xs.getD (i - (xs.length - 1) + j) 0
      = squareColumn xs i := by
  have hsplit : i + 1 = i - (xs.length - 1)
      + (xs.length - (i - (xs.length - 1)) + (i + 1 - xs.length)) := by omega
  have hfirst : ∀ j ∈ Finset.range (i - (xs.length - 1)),
      xs.getD j 0 * xs.getD (i - j) 0 = 0 := by
    intro j hj
    have := Finset.mem_range.mp hj
    rw [List.getD_eq_default xs 0 (show xs.length ≤ i - j by omega), Nat.mul_zero]
  have hlast : ∀ j ∈ Finset.range (i + 1 - xs.length),
      xs.getD (i - (xs.length - 1) + (xs.length - (i - (xs.length - 1)) + j)) 0
        * xs.getD (i - (i - (xs.length - 1) + (xs.length - (i - (xs.length - 1)) + j))) 0
        = 0 := by
    intro j hj
    rw [List.getD_eq_default xs 0 (show xs.length ≤ _ by omega), Nat.zero_mul]
  rw [squareColumn, hsplit, Finset.sum_range_add, Finset.sum_eq_zero hfirst, Nat.zero_add,
    Finset.sum_range_add, Finset.sum_eq_zero hlast, Nat.add_zero]
  refine Finset.sum_congr rfl fun j hj => ?_
  have := Finset.mem_range.mp hj
  rw [Nat.mul_comm]
  congr 2
  omega

/-- The outer loops of `Square` settle the columns. -/
theorem squareLoop_eq {xs : List ℕ} (hxs : ∀ x ∈ xs, x < 2 ^ 28) (hlen : xs.length < 256)
    (count i : ℕ) {accumulator : ℕ} (hacc : accumulator < 2 ^ 36)
    (hi : i + count ≤ 2 * xs.length) :
    squareLoop xs count i accumulator
      = (settle (2 ^ 28) accumulator ((List.range' i count).map (squareColumn xs))).1 := by
  induction count generalizing i accumulator with
  | zero => rfl
  | succ count ih =>
    have hcolumn : (if i < xs.length then accumulate xs accumulator (i + 1) i 0
        else accumulate xs accumulator (xs.length - (i - (xs.length - 1))) (xs.length - 1)
          (i - (xs.length - 1))) = squareColumn xs i + accumulator := by
      split
      · rename_i hlower
        rw [accumulate_eq hxs _ _ _ (by omega), squareColumn, Nat.add_comm]
        congr 1
        exact Finset.sum_congr rfl fun j _ => by rw [Nat.zero_add, Nat.mul_comm]
      · rename_i hupper
        rw [accumulate_eq hxs _ _ _ (by omega),
          squareColumn_upper (Nat.le_of_not_lt hupper) (by omega), Nat.add_comm]
    have hbound : squareColumn xs i + accumulator < 2 ^ 64 := by
      rw [← hcolumn]
      split
      · exact accumulate_lt _ _ _ _ (by omega)
      · exact accumulate_lt _ _ _ _ (by omega)
    rw [squareLoop, hcolumn, List.range'_succ, List.map_cons, settle,
      Nat.mod_mod_of_dvd _ (by norm_num),
      ih (i + 1) (by omega) (by omega)]

/-- The columns of the square are the square. -/
theorem ofDigits_squareColumns (b : ℕ) (xs : List ℕ) :
    Nat.ofDigits b ((List.range' 0 (2 * xs.length)).map (squareColumn xs))
      = Nat.ofDigits b xs * Nat.ofDigits b xs := by
  have hout : ∀ i, xs.length ≤ i → xs.getD i 0 = 0 := fun i hi => List.getD_eq_default xs 0 hi
  rw [← List.range_eq_range', ofDigits_map_range, ofDigits_eq_sum b xs le_rfl,
    ← sum_convolution b xs.length (xs.getD · 0) (xs.getD · 0) hout hout]
  rfl

/-- The loop settles the columns, lowest first. -/
theorem ofDigits_squareLoop {xs : List ℕ} (hxs : ∀ x ∈ xs, x < 2 ^ 28) (hlen : xs.length < 256) :
    Nat.ofDigits (2 ^ 28) (squareLoop xs (2 * xs.length) 0 0)
      = Nat.ofDigits (2 ^ 28) xs * Nat.ofDigits (2 ^ 28) xs := by
  have hsettle := ofDigits_settle (2 ^ 28) 0
    ((List.range' 0 (2 * xs.length)).map (squareColumn xs))
  rw [ofDigits_squareColumns, Nat.add_zero, List.length_map, List.length_range'] at hsettle
  have hsmall : Nat.ofDigits (2 ^ 28) xs * Nat.ofDigits (2 ^ 28) xs
      < (2 ^ 28) ^ (2 * xs.length) := by
    have h := Nat.ofDigits_lt_base_pow_length one_lt_radix hxs
    rw [Nat.two_mul, pow_add]
    exact Nat.mul_lt_mul'' h h
  -- the square has no more digits than there are columns, so nothing is carried out
  have hcarry : (settle (2 ^ 28) 0
      ((List.range' 0 (2 * xs.length)).map (squareColumn xs))).2 = 0 := by
    by_contra hne
    have := Nat.mul_le_mul_left ((2 ^ 28) ^ (2 * xs.length)) (Nat.one_le_iff_ne_zero.mpr hne)
    omega
  rw [squareLoop_eq hxs hlen _ _ (by norm_num) (by omega), ← hsettle, hcarry, Nat.mul_zero,
    Nat.add_zero]

theorem squareLoop_lt (xs : List ℕ) (count i accumulator : ℕ) :
    ∀ x ∈ squareLoop xs count i accumulator, x < 2 ^ 28 := by
  induction count generalizing i accumulator with
  | zero => exact fun x hx => absurd hx List.not_mem_nil
  | succ count ih =>
    intro x hx
    rcases List.mem_cons.mp hx with rfl | hx
    · exact Nat.mod_lt _ (by norm_num)
    · exact ih _ _ x hx

/-- **`Square`** squares. -/
theorem spec_square {a : Bignum} (ha : a.Valid) (hlen : a.bigits.length < 256) :
    a.square.Valid ∧ a.square.value = a.value * a.value := by
  refine ⟨valid_clamp (squareLoop_lt _ _ _ _), ?_⟩
  rw [square, value_clamp, value_mk, ofDigits_squareLoop ha.bigit_lt hlen, value, Nat.two_mul,
    pow_add]
  ring

/-! ## Powers -/

/-- The factors two are taken out of the base. -/
theorem removeTwos_spec {base : ℕ} (hbase : 0 < base) (shifts : ℕ) :
    0 < (removeTwos base shifts).1 ∧ (removeTwos base shifts).1 ≤ base
      ∧ base * 2 ^ shifts = (removeTwos base shifts).1 * 2 ^ (removeTwos base shifts).2 := by
  fun_induction removeTwos base shifts with
  | case1 base shifts hcond ih =>
    obtain ⟨hpos, hle, heq⟩ := ih (by omega)
    refine ⟨hpos, by omega, ?_⟩
    rw [← heq]
    calc base * 2 ^ shifts = base / 2 * 2 * 2 ^ shifts := by
          rw [Nat.div_mul_cancel (Nat.dvd_of_mod_eq_zero hcond.2)]
      _ = base / 2 * 2 ^ (shifts + 1) := by
          rw [pow_succ]
          ring
  | case2 base shifts hcond => exact ⟨hbase, le_rfl, rfl⟩

/-- A base is below the power of its bits. -/
theorem lt_two_pow_bitSize (base : ℕ) : base < 2 ^ bitSize base := by
  fun_induction bitSize base with
  | case1 => norm_num
  | case2 base hne ih =>
    rw [pow_succ]
    omega

theorem bitSize_le {base k : ℕ} (h : base < 2 ^ k) : bitSize base ≤ k := by
  induction k generalizing base with
  | zero =>
    rw [bitSize, if_pos (by omega)]
  | succ k ih =>
    rw [bitSize]
    split
    · exact Nat.zero_le _
    · rw [pow_succ] at h
      exact Nat.succ_le_succ (ih (by omega))

/-- The mask is the power of two above the exponent. -/
theorem findMask_spec {p : ℕ} (mask : ℕ) (hmask : ∃ k, mask = 2 ^ k) (h : mask ≤ 2 * p) :
    ∃ k, findMask p mask = 2 ^ k ∧ p < 2 ^ k ∧ 2 ^ k ≤ 2 * p := by
  fun_induction findMask p mask with
  | case1 mask hcond ih =>
    obtain ⟨k, rfl⟩ := hmask
    exact ih ⟨k + 1, (pow_succ 2 k).symm⟩ (by omega)
  | case2 mask hcond =>
    obtain ⟨k, rfl⟩ := hmask
    have hpos : 0 < 2 ^ k := by positivity
    exact ⟨k, rfl, by omega, h⟩

/-- What of the exponent is done when the mask stands above what is not. -/
def done (powerExponent mask : ℕ) : ℕ :=
  if mask = 0 then powerExponent else powerExponent / (2 * mask)

/-- A mask is a power of two, or it has been shifted out. -/
def IsMask (mask : ℕ) : Prop := mask = 0 ∨ ∃ k, mask = 2 ^ k

theorem IsMask.half {mask : ℕ} (h : IsMask mask) : IsMask (mask / 2) := by
  rcases h with rfl | ⟨k, rfl⟩
  · exact Or.inl rfl
  · cases k with
    | zero => exact Or.inl rfl
    | succ k => exact Or.inr ⟨k, by rw [pow_succ, Nat.mul_div_cancel _ (by norm_num)]⟩

/-- One turn of exponentiation doubles what is done and adds the bit under the mask. -/
theorem done_half {p mask : ℕ} (h : IsMask mask) (hne : mask ≠ 0) :
    done p (mask / 2) = done p mask + done p mask + if p &&& mask ≠ 0 then 1 else 0 := by
  obtain ⟨k, rfl⟩ := h.resolve_left hne
  have hhalf : done p (2 ^ k / 2) = p / 2 ^ k := by
    cases k with
    | zero => simp [done]
    | succ k =>
      have hdiv : 2 ^ (k + 1) / 2 = 2 ^ k := by rw [pow_succ, Nat.mul_div_cancel _ (by norm_num)]
      rw [hdiv, done, if_neg (by positivity), pow_succ, Nat.mul_comm]
  have hbit : (if p &&& 2 ^ k ≠ 0 then 1 else 0) = p / 2 ^ k % 2 := by
    rw [Nat.and_two_pow, Nat.testBit_eq_decide_div_mod_eq]
    have hpos : 2 ^ k ≠ 0 := by positivity
    rcases Nat.mod_two_eq_zero_or_one (p / 2 ^ k) with h0 | h1
    · simp [h0]
    · simp [h1]
  have hdone : done p (2 ^ k) = p / 2 ^ k / 2 := by
    rw [done, if_neg hne, Nat.mul_comm, Nat.div_div_eq_div_mul]
  rw [hhalf, hdone, hbit]
  omega

/-- What sixty-four bits hold when the first loop ends. -/
theorem powerLoop64_spec {base bits mask : ℕ} (p thisValue : ℕ) (delayed : Bool)
    (hbase : base < 2 ^ bits) (hbits : bits ≤ 16) (hmask : IsMask mask)
    (hvalue : thisValue < 2 ^ 64) (hdelayed : delayed = true → 0xFFFFFFFF < thisValue)
    (hpower : thisValue * (if delayed then base else 1) = base ^ done p mask) :
    IsMask (powerLoop64 base bits p mask thisValue delayed).1
      ∧ (powerLoop64 base bits p mask thisValue delayed).2.1 < 2 ^ 64
      ∧ (powerLoop64 base bits p mask thisValue delayed).2.1
          * (if (powerLoop64 base bits p mask thisValue delayed).2.2 then base else 1)
        = base ^ done p (powerLoop64 base bits p mask thisValue delayed).1 := by
  have hnot : ∀ v, v ≤ 0xFFFFFFFF → (delayed = true → 0xFFFFFFFF < v) → delayed = false := by
    intro v hv h
    cases delayed with
    | false => rfl
    | true => exact absurd (h rfl) (Nat.not_lt_of_le hv)
  have hsquare : ∀ v, v ≤ 0xFFFFFFFF → v * v < 2 ^ 64 := fun v hv =>
    (Nat.mul_le_mul hv hv).trans_lt (by norm_num)
  fun_induction powerLoop64 base bits p mask thisValue delayed with
  | case1 mask thisValue delayed hcond square hbit hroom ih =>
    have hfalse := hnot _ hcond.2 hdelayed
    subst hfalse
    refine ih hmask.half ?_ (by simp) ?_ hnot
    · calc square * base < 2 ^ (64 - bits) * 2 ^ bits := Nat.mul_lt_mul'' hroom hbase
        _ = 2 ^ 64 := by rw [← pow_add, Nat.sub_add_cancel (by omega)]
    · rw [done_half hmask hcond.1, if_pos hbit, pow_succ, pow_add, ← hpower]
      simp [square]
  | case2 mask thisValue delayed hcond square hbit hroom ih =>
    -- the multiplication is put off, and the value is too large for another turn
    have hfalse := hnot _ hcond.2 hdelayed
    subst hfalse
    refine ih hmask.half (hsquare _ hcond.2) (fun _ => ?_) ?_ ?_
    · calc 0xFFFFFFFF < 2 ^ 48 := by norm_num
        _ ≤ 2 ^ (64 - bits) := Nat.pow_le_pow_right (by norm_num) (by omega)
        _ ≤ square := Nat.le_of_not_lt hroom
    · rw [done_half hmask hcond.1, if_pos hbit, pow_succ, pow_add, ← hpower]
      simp [square]
    · exact fun v hv h => absurd (h rfl) (Nat.not_lt_of_le hv)
  | case3 mask thisValue delayed hcond square hbit ih =>
    have hfalse := hnot _ hcond.2 hdelayed
    subst hfalse
    refine ih hmask.half (hsquare _ hcond.2) (by simp) ?_ hnot
    rw [done_half hmask hcond.1, if_neg hbit, Nat.add_zero, pow_add, ← hpower]
    simp [square]
  | case4 mask thisValue delayed hcond => exact ⟨hmask, hvalue, hpower⟩

/-- The first loop starts behind the exponent's first bit. -/
theorem startMask_spec {p : ℕ} (hp : p ≠ 0) :
    IsMask (findMask p 1 / 4) ∧ done p (findMask p 1 / 4) = 1 := by
  obtain ⟨k, hmask, hlt, hge⟩ := findMask_spec 1 ⟨0, rfl⟩ (show 1 ≤ 2 * p by omega)
  have hk : k ≠ 0 := by
    rintro rfl
    omega
  rw [hmask]
  obtain ⟨m, rfl⟩ := Nat.exists_eq_succ_of_ne_zero hk
  cases m with
  | zero => exact ⟨Or.inl rfl, by rw [done, if_pos (by norm_num)]; omega⟩
  | succ m =>
    have hquarter : 2 ^ (m + 1 + 1) / 4 = 2 ^ m := by
      rw [pow_succ, pow_succ]
      omega
    refine ⟨hquarter ▸ Or.inr ⟨m, rfl⟩, ?_⟩
    rw [pow_succ, pow_succ] at hlt hge
    rw [Nat.succ_eq_add_one, hquarter, done, if_neg (by positivity)]
    apply Nat.div_eq_of_lt_le <;> omega

/-- The first loop, from its start on: what it leaves as a number. -/
theorem spec_powerLoop64 {base p : ℕ} (h16 : base < 2 ^ 16) (hp : p ≠ 0)
    {small : ℕ × ℕ × Bool}
    (hsmall : small = powerLoop64 base (bitSize base) p (findMask p 1 / 4) base false) :
    IsMask small.1 ∧ small.2.1 < 2 ^ 64
      ∧ small.2.1 * (if small.2.2 then base else 1) = base ^ done p small.1 := by
  obtain ⟨hmask, hdone⟩ := startMask_spec hp
  rw [hsmall]
  exact powerLoop64_spec p base false (lt_two_pow_bitSize _) (bitSize_le h16) hmask (by omega)
    (by simp) (by rw [hdone]; simp)

/-- A number that fits has few enough bigits for `Square`. -/
theorem length_lt_of_value_lt {a : Bignum} (ha : a.Valid) (h : a.value < 2 ^ kMaxSignificantBits) :
    a.bigits.length < 256 := by
  by_contra hlong
  have hne : a.bigits ≠ [] := fun hnil => hlong (by rw [hnil]; norm_num)
  have hle := pow_le_ofDigits (b := 2 ^ 28) hne ha.top_ne_zero
  have hvalue : Nat.ofDigits (2 ^ 28) a.bigits ≤ a.value :=
    Nat.le_mul_of_pos_right _ (by positivity)
  have hpow : (2 ^ 28) ^ 255 ≤ (2 ^ 28) ^ (a.bigits.length - 1) :=
    Nat.pow_le_pow_right (by norm_num) (by omega)
  have hbits : ∀ n, kMaxSignificantBits ≤ 28 * n → 2 ^ kMaxSignificantBits ≤ (2 ^ 28) ^ n :=
    fun n hn => (Nat.pow_le_pow_right Nat.two_pos hn).trans_eq (pow_mul 2 28 n)
  have hbig := hbits 255 (by decide)
  exact Nat.lt_irrefl _ (h.trans_le (hbig.trans (hpow.trans (hle.trans hvalue))))

theorem done_le (p mask : ℕ) : done p mask ≤ p := by
  rw [done]
  split
  · exact le_rfl
  · exact Nat.div_le_self _ _

/-- The second loop does on bigits what the first does on sixty-four bits. -/
theorem squareAndMultiply_spec {base p mask : ℕ} {a : Bignum} (hbase : 0 < base)
    (hfits : base ^ p < 2 ^ kMaxSignificantBits) (hmask : IsMask mask) (ha : a.Valid)
    (hvalue : a.value = base ^ done p mask) :
    (squareAndMultiply base p mask a).Valid
      ∧ (squareAndMultiply base p mask a).value = base ^ p := by
  fun_induction squareAndMultiply base p mask a with
  | case1 mask a hne square ih =>
    have hsmall : a.value < 2 ^ kMaxSignificantBits := by
      rw [hvalue]
      exact (Nat.pow_le_pow_right hbase (done_le p mask)).trans_lt hfits
    obtain ⟨hvalid, hsquare⟩ := spec_square ha (length_lt_of_value_lt ha hsmall)
    refine ih hmask.half ?_ ?_
    · split
      · exact valid_multiplyByUInt32 hvalid _
      · exact hvalid
    · rw [done_half hmask hne]
      split
      · rw [value_multiplyByUInt32, hsquare, hvalue, pow_succ, pow_add]
      · rw [hsquare, hvalue, Nat.add_zero, pow_add]
  | case2 mask a hzero =>
    have h0 : mask = 0 := by simpa using hzero
    rw [h0, done, if_pos rfl] at hvalue
    exact ⟨ha, hvalue⟩

/-- `AssignPowerUInt16` makes the power, as long as a number has room for it. -/
theorem spec_assignPowerUInt16 {base p : ℕ} (hbase : 0 < base) (h16 : base < 2 ^ 16)
    (hfits : base ^ p < 2 ^ kMaxSignificantBits) :
    (assignPowerUInt16 base p).Valid ∧ (assignPowerUInt16 base p).value = base ^ p := by
  rw [assignPowerUInt16]
  split
  · rename_i h0
    exact ⟨valid_assignUInt16 (by norm_num), by rw [value_assignUInt16, h0, pow_zero]⟩
  · rename_i hp
    obtain ⟨hpos, hle, hodd⟩ := removeTwos_spec hbase 0
    dsimp only
    generalize hsmall : powerLoop64 _ _ _ _ _ _ = small
    obtain ⟨hmask, hlt64, hpower⟩ := spec_powerLoop64 (hle.trans_lt h16) hp hsmall.symm
    have hpart : (removeTwos base 0).1 ^ p ≤ base ^ p := Nat.pow_le_pow_left hle p
    have hassigned : (if small.2.2 then
          (assignUInt64 small.2.1).multiplyByUInt32 (removeTwos base 0).1
        else assignUInt64 small.2.1).Valid
        ∧ (if small.2.2 then
          (assignUInt64 small.2.1).multiplyByUInt32 (removeTwos base 0).1
        else assignUInt64 small.2.1).value = (removeTwos base 0).1 ^ done p small.1 := by
      rw [← hpower]
      split
      · exact ⟨valid_multiplyByUInt32 (valid_assignUInt64 _) _,
          by rw [value_multiplyByUInt32, value_assignUInt64 hlt64]⟩
      · exact ⟨valid_assignUInt64 _, by rw [value_assignUInt64 hlt64, Nat.mul_one]⟩
    obtain ⟨hvalid, hvalue⟩ := squareAndMultiply_spec hpos (hpart.trans_lt hfits) hmask
      hassigned.1 hassigned.2
    refine ⟨valid_shiftLeft hvalid _, ?_⟩
    rw [pow_zero, Nat.mul_one] at hodd
    rw [value_shiftLeft hvalid, hvalue, pow_mul, ← Nat.mul_pow, ← hodd]

/-! ## Multiples taken away -/

/-- One turn of `SubtractTimes`: what is borrowed stays within the factor. -/
theorem timesLoop_step {factor x y borrow : ℕ} (hf : factor < 2 ^ 28) (hx : x < 2 ^ 28)
    (hy : y < 2 ^ 28) (hb : borrow ≤ factor) :
    subChunk x ((borrow + factor * y) % 2 ^ 28) % 2 ^ 28
        = (x + (2 ^ 28 - (factor * y + borrow) % 2 ^ 28)) % 2 ^ 28
      ∧ (subChunk x ((borrow + factor * y) % 2 ^ 28) / 2 ^ 31
          + (borrow + factor * y) / 2 ^ 28) % 2 ^ 32
        = (factor * y + borrow + (x + (2 ^ 28 - (factor * y + borrow) % 2 ^ 28)) % 2 ^ 28 - x)
            / 2 ^ 28
      ∧ (subChunk x ((borrow + factor * y) % 2 ^ 28) / 2 ^ 31
          + (borrow + factor * y) / 2 ^ 28) % 2 ^ 32 ≤ factor := by
  have hremove : borrow + factor * y ≤ factor * 2 ^ 28 := by
    calc borrow + factor * y ≤ factor + factor * (2 ^ 28 - 1) :=
          Nat.add_le_add hb (Nat.mul_le_mul_left _ (Nat.le_sub_one_of_lt hy))
      _ = factor * 2 ^ 28 := by ring
  rw [Nat.add_comm (factor * y)]
  generalize borrow + factor * y = remove at hremove
  obtain ⟨high, low, hlow, rfl⟩ : ∃ high low, low < 2 ^ 28 ∧ remove = 2 ^ 28 * high + low :=
    ⟨remove / 2 ^ 28, remove % 2 ^ 28, Nat.mod_lt _ (by norm_num), (Nat.div_add_mod _ _).symm⟩
  have hhigh : (2 ^ 28 * high + low) / 2 ^ 28 = high := by omega
  rw [Nat.mul_add_mod, Nat.mod_eq_of_lt hlow, hhigh]
  rcases Nat.lt_or_ge x low with hlt | hge
  · have hchunk : subChunk x low = x + 2 ^ 32 - low := by
      rw [subChunk]
      omega
    have hdigit : (x + (2 ^ 28 - low)) % 2 ^ 28 = x + 2 ^ 28 - low := by omega
    rw [hchunk, hdigit]
    omega
  · have hchunk : subChunk x low = x - low := by
      rw [subChunk]
      omega
    have hdigit : (x + (2 ^ 28 - low)) % 2 ^ 28 = x - low := by omega
    rw [hchunk, hdigit]
    omega

/-- One turn of the second loop of `SubtractTimes`. -/
theorem timesBorrow_step {x borrow : ℕ} (hx : x < 2 ^ 28) (hb : borrow < 2 ^ 28) :
    subChunk x borrow % 2 ^ 28 = (x + (2 ^ 28 - (0 + borrow) % 2 ^ 28)) % 2 ^ 28
      ∧ subChunk x borrow / 2 ^ 31
        = (0 + borrow + (x + (2 ^ 28 - (0 + borrow) % 2 ^ 28)) % 2 ^ 28 - x) / 2 ^ 28
      ∧ subChunk x borrow / 2 ^ 31 < 2 ^ 28 := by
  simp only [subChunk]
  omega

/-- The borrow is taken from the bigits that are left. -/
theorem timesBorrow_eq {xs : List ℕ} (hxs : ∀ x ∈ xs, x < 2 ^ 28) {borrow : ℕ}
    (hb : borrow < 2 ^ 28) : (timesBorrow xs borrow).1 = (deduct (2 ^ 28) borrow xs []).1 := by
  induction xs generalizing borrow with
  | nil => rfl
  | cons x xs ih =>
    rw [timesBorrow]
    split
    · rename_i h0
      rw [h0, deduct_nil hxs]
    · obtain ⟨hdigit, hnext, hlt⟩ := timesBorrow_step (hxs x List.mem_cons_self) hb
      dsimp only
      rw [ih (fun z hz => hxs z (List.mem_cons_of_mem _ hz)) hlt, hdigit, hnext]
      rfl

/-- The loops of `SubtractTimes` take the other number's multiple away. -/
theorem timesLoop_eq {factor : ℕ} (hf : factor < 2 ^ 28) {xs ys : List ℕ}
    (hxs : ∀ x ∈ xs, x < 2 ^ 28) (hys : ∀ y ∈ ys, y < 2 ^ 28) (hlen : ys.length ≤ xs.length)
    {borrow : ℕ} (hb : borrow ≤ factor) :
    (timesLoop factor xs ys borrow).1
      = (deduct (2 ^ 28) borrow xs (ys.map (factor * ·))).1 := by
  induction ys generalizing xs borrow with
  | nil => exact timesBorrow_eq hxs (hb.trans_lt hf)
  | cons y ys ih =>
    cases xs with
    | nil => exact absurd hlen (by simp)
    | cons x xs =>
      obtain ⟨hdigit, hnext, hle⟩ :=
        timesLoop_step hf (hxs x List.mem_cons_self) (hys y List.mem_cons_self) hb
      rw [timesLoop, List.headD_cons, List.tail_cons,
        ih (fun z hz => hxs z (List.mem_cons_of_mem _ hz))
          (fun z hz => hys z (List.mem_cons_of_mem _ hz)) (Nat.le_of_succ_le_succ hlen) hle,
        hdigit, hnext]
      rfl

/-- The loops are left early only in front of bigits that stay. -/
theorem getLast?_timesBorrow {xs : List ℕ} {borrow : ℕ}
    (h : (timesBorrow xs borrow).2 = false) :
    xs ≠ [] ∧ (timesBorrow xs borrow).1.getLast? = xs.getLast? := by
  induction xs generalizing borrow with
  | nil => exact absurd h (by simp [timesBorrow])
  | cons x xs ih =>
    rw [timesBorrow] at h ⊢
    split
    · exact ⟨List.cons_ne_nil _ _, rfl⟩
    · rename_i hne
      rw [if_neg hne] at h
      obtain ⟨hxs, hlast⟩ := ih h
      have hrest : (timesBorrow xs (subChunk x borrow / 2 ^ 31)).1 ≠ [] := by
        intro hnil
        rw [hnil, List.getLast?_nil, eq_comm, List.getLast?_eq_none_iff] at hlast
        exact hxs hlast
      refine ⟨List.cons_ne_nil _ _, ?_⟩
      dsimp only
      rw [← List.singleton_append, List.getLast?_append_of_ne_nil _ hrest, hlast,
        ← List.singleton_append (l := xs), List.getLast?_append_of_ne_nil _ hxs]

theorem getLast?_timesLoop {factor : ℕ} {xs ys : List ℕ} {borrow : ℕ}
    (hlen : ys.length ≤ xs.length) (h : (timesLoop factor xs ys borrow).2 = false) :
    xs ≠ [] ∧ (timesLoop factor xs ys borrow).1.getLast? = xs.getLast? := by
  induction ys generalizing xs borrow with
  | nil => exact getLast?_timesBorrow h
  | cons y ys ih =>
    cases xs with
    | nil => exact absurd hlen (by simp)
    | cons x xs =>
      rw [timesLoop, List.headD_cons, List.tail_cons] at h ⊢
      obtain ⟨hxs, hlast⟩ := ih (Nat.le_of_succ_le_succ hlen) h
      have hrest : (timesLoop factor xs ys ((subChunk x ((borrow + factor * y) % 2 ^ 28) / 2 ^ 31
          + (borrow + factor * y) / 2 ^ 28) % 2 ^ 32)).1 ≠ [] := by
        intro hnil
        rw [hnil, List.getLast?_nil, eq_comm, List.getLast?_eq_none_iff] at hlast
        exact hxs hlast
      refine ⟨List.cons_ne_nil _ _, ?_⟩
      dsimp only
      rw [← List.singleton_append, List.getLast?_append_of_ne_nil _ hrest, hlast,
        ← List.singleton_append (l := xs), List.getLast?_append_of_ne_nil _ hxs]

/-- Taking away leaves no more bigits than there are. -/
theorem length_subtractBignum_le {a other : Bignum} (ha : a.Valid) (hother : other.Valid)
    (hexp : a.exponent ≤ other.exponent) (hle : other.value ≤ a.value) :
    (a.subtractBignum other).bigits.length ≤ a.bigits.length := by
  have hloop := subLoop_eq (fun x hx => ha.bigit_lt x (List.mem_of_mem_drop hx)) hother.bigit_lt
    (length_le_length_drop ha hother hexp hle) (Nat.zero_le 1)
  rw [subtractBignum, align_of_le hexp]
  refine (length_clamp_le _).trans ?_
  rw [hloop, List.length_append, List.length_take, length_deduct, List.length_drop]
  omega

/-- Subtracting again and again. -/
theorem iterate_subtractBignum {a other : Bignum} (ha : a.Valid) (hother : other.Valid)
    (hexp : a.exponent ≤ other.exponent) {factor : ℕ} (hle : factor * other.value ≤ a.value) :
    ((·.subtractBignum other)^[factor] a).Valid
      ∧ ((·.subtractBignum other)^[factor] a).value = a.value - factor * other.value
      ∧ ((·.subtractBignum other)^[factor] a).exponent ≤ a.exponent
      ∧ ((·.subtractBignum other)^[factor] a).bigits.length ≤ a.bigits.length := by
  induction factor generalizing a with
  | zero => exact ⟨ha, by simp, le_rfl, le_rfl⟩
  | succ factor ih =>
    rw [Nat.succ_mul] at hle ⊢
    have hvalue := value_subtractBignum ha hother (by omega)
    have hless := (exponent_subtractBignum_le a other).trans (Nat.min_le_left _ _)
    obtain ⟨hvalid, hrest, hexp', hlen⟩ := ih (valid_subtractBignum ha other)
      (hless.trans hexp) (by omega)
    rw [Function.iterate_succ_apply]
    exact ⟨hvalid, by omega, hexp'.trans hless,
      hlen.trans (length_subtractBignum_le ha hother hexp (by omega))⟩

/-- `SubtractTimes` takes a multiple away that is there. -/
theorem spec_subtractTimes {a other : Bignum} (ha : a.Valid) (hother : other.Valid)
    (hexp : a.exponent ≤ other.exponent) {factor : ℕ}
    (hf : factor < 2 ^ 28) (hle : factor * other.value ≤ a.value) :
    (a.subtractTimes other factor).Valid
      ∧ (a.subtractTimes other factor).value = a.value - factor * other.value
      ∧ (a.subtractTimes other factor).exponent ≤ other.exponent
      ∧ (a.subtractTimes other factor).bigits.length ≤ a.bigits.length := by
  rw [subtractTimes]
  split
  · obtain ⟨hvalid, hvalue, hexp', hlen⟩ := iterate_subtractBignum ha hother hexp hle
    exact ⟨hvalid, hvalue, hexp'.trans hexp, hlen⟩
  · rename_i hlarge
    have hother_le : other.value ≤ a.value := by
      calc other.value = 1 * other.value := (Nat.one_mul _).symm
        _ ≤ factor * other.value := Nat.mul_le_mul_right _ (by omega)
        _ ≤ a.value := hle
    have hlen := length_le_length_drop ha hother hexp hother_le
    have hdrop : ∀ x ∈ a.bigits.drop (other.exponent - a.exponent), x < 2 ^ 28 :=
      fun x hx => ha.bigit_lt x (List.mem_of_mem_drop hx)
    have hloop := timesLoop_eq hf hdrop hother.bigit_lt hlen (Nat.zero_le factor)
    have hvalue : value ⟨a.bigits.take (other.exponent - a.exponent)
        ++ (timesLoop factor (a.bigits.drop (other.exponent - a.exponent)) other.bigits 0).1,
          a.exponent⟩ = a.value - factor * other.value := by
      rw [hloop]
      exact value_deduct _ ha hexp hle (Nat.mul_ofDigits _).symm (by rwa [List.length_map])
    have hlength : (a.bigits.take (other.exponent - a.exponent)
        ++ (timesLoop factor (a.bigits.drop (other.exponent - a.exponent)) other.bigits 0).1).length
          ≤ a.bigits.length := by
      rw [hloop, List.length_append, List.length_take, length_deduct, List.length_drop]
      omega
    have hbigits : ∀ x ∈ a.bigits.take (other.exponent - a.exponent)
        ++ (timesLoop factor (a.bigits.drop (other.exponent - a.exponent)) other.bigits 0).1,
          x < 2 ^ 28 := by
      intro x hx
      rcases List.mem_append.mp hx with hx | hx
      · exact ha.bigit_lt x (List.mem_of_mem_take hx)
      · rw [hloop] at hx
        exact deduct_lt (by norm_num) _ _ _ x hx
    dsimp only
    split
    · exact ⟨valid_clamp hbigits, by rw [value_clamp, hvalue],
        (exponent_clamp_le _).trans hexp, (length_clamp_le _).trans hlength⟩
    · rename_i hearly
      obtain ⟨hne, hlast⟩ := getLast?_timesLoop hlen (Bool.eq_false_of_not_eq_true hearly)
      have hrest : (timesLoop factor (a.bigits.drop (other.exponent - a.exponent))
          other.bigits 0).1 ≠ [] := by
        intro hnil
        rw [hnil, List.getLast?_nil, eq_comm, List.getLast?_eq_none_iff] at hlast
        exact hne hlast
      refine ⟨⟨hbigits, ?_, fun hnil => absurd hnil (List.append_ne_nil_of_right_ne_nil _ hrest)⟩,
        hvalue, hexp, hlength⟩
      rw [List.getLast?_append_of_ne_nil _ hrest, hlast, List.getLast?_drop,
        if_neg fun h0 => hne (List.drop_eq_nil_of_le h0)]
      exact ha.top_ne_zero

/-! ## Quotients -/

theorem topBigit_lt {a : Bignum} (ha : a.Valid) : a.topBigit < 2 ^ 28 := by
  rw [topBigit, List.getLastD_eq_getLast?]
  cases h : a.bigits.getLast? with
  | none => norm_num
  | some x => exact ha.bigit_lt x (List.mem_of_getLast? h)

theorem topBigit_pos {a : Bignum} (ha : a.Valid) (hne : a.bigits ≠ []) : 0 < a.topBigit := by
  rw [topBigit, List.getLastD_eq_getLast?, List.getLast?_eq_some_getLast hne]
  refine Nat.pos_of_ne_zero fun h0 => ha.top_ne_zero ?_
  rw [List.getLast?_eq_some_getLast hne]
  exact congrArg some h0

/-- The top bigit is what the number is worth at its place, rounded down. -/
theorem topBigit_mul_le {a : Bignum} (ha : a.Valid) :
    a.topBigit * (2 ^ 28) ^ (a.bigitLength - 1) ≤ a.value := by
  by_cases hnil : a.bigits = []
  · rw [topBigit, hnil, List.getLastD_nil, Nat.zero_mul]
    exact Nat.zero_le _
  · rw [← ha.value_div_pow hnil]
    exact Nat.div_mul_le_self _ _

/-- The top bigit bounds the number from above. -/
theorem value_lt_topBigit_succ {a : Bignum} (ha : a.Valid) (hne : a.bigits ≠ []) :
    a.value < (a.topBigit + 1) * (2 ^ 28) ^ (a.bigitLength - 1) := by
  rw [← ha.value_div_pow hne]
  exact lt_div_succ_mul _ (by positivity)

/-- A longer number has the other's multiple by its top bigit, and little more than that. -/
theorem removeMultiples_step {a other : Bignum} (ha : a.Valid) (hother : other.Valid)
    (hlong : other.bigitLength < a.bigitLength) :
    a.topBigit * other.value ≤ a.value
      ∧ (2 ^ 28) ^ other.bigitLength ≤ a.value - a.topBigit * other.value + other.value := by
  have hne := ha.bigits_ne_nil_of_bigitLength (Nat.zero_lt_of_lt hlong)
  have htop := topBigit_pos ha hne
  have hlt := hother.value_lt
  have hpow : (2 ^ 28) ^ other.bigitLength ≤ (2 ^ 28) ^ (a.bigitLength - 1) :=
    Nat.pow_le_pow_right (by norm_num) (by omega)
  have hmul : a.topBigit * (2 ^ 28) ^ other.bigitLength ≤ a.value :=
    (Nat.mul_le_mul_left _ hpow).trans (topBigit_mul_le ha)
  have hle : a.topBigit * other.value ≤ a.topBigit * (2 ^ 28) ^ other.bigitLength :=
    Nat.mul_le_mul_left _ hlt.le
  have hgap : 1 * ((2 ^ 28) ^ other.bigitLength - other.value)
      ≤ a.topBigit * ((2 ^ 28) ^ other.bigitLength - other.value) :=
    Nat.mul_le_mul_right _ htop
  rw [Nat.one_mul, Nat.mul_sub] at hgap
  omega

/-- While the number is longer, multiples are taken away and counted; what is left is as long as
the other number, or close enough below the next power. -/
theorem removeMultiples_spec {other : Bignum} (hother : other.Valid) (hpos : 0 < other.value)
    (steps : ℕ) {a : Bignum} (ha : a.Valid) (hexp : a.exponent ≤ other.exponent)
    (hlen : other.bigitLength ≤ a.bigitLength
      ∨ (2 ^ 28) ^ other.bigitLength ≤ a.value + other.value)
    (hsteps : a.value ≤ steps) (result : ℕ) (hresult : result < 2 ^ 16) :
    ∃ count,
      (removeMultiples other steps a result).1.Valid
        ∧ (removeMultiples other steps a result).1.exponent ≤ other.exponent
        ∧ (removeMultiples other steps a result).1.bigitLength ≤ other.bigitLength
        ∧ (other.bigitLength ≤ (removeMultiples other steps a result).1.bigitLength
          ∨ (2 ^ 28) ^ other.bigitLength
            ≤ (removeMultiples other steps a result).1.value + other.value)
        ∧ a.value = (removeMultiples other steps a result).1.value + count * other.value
        ∧ (removeMultiples other steps a result).2 = (result + count) % 2 ^ 16
        ∧ (removeMultiples other steps a result).1.bigits.length ≤ a.bigits.length := by
  induction steps generalizing a result with
  | zero =>
    have hnil := ha.value_eq_zero_iff.mp (Nat.le_zero.mp hsteps)
    have hlen0 : a.bigitLength = 0 := by
      rw [bigitLength, hnil, ha.exponent_eq_zero hnil]
      rfl
    refine ⟨0, ha, hexp, ?_, hlen, ?_, ?_, ?_⟩
    · rw [removeMultiples, hlen0]
      exact Nat.zero_le _
    · rw [removeMultiples, Nat.zero_mul, Nat.add_zero]
    · rw [removeMultiples, Nat.add_zero, Nat.mod_eq_of_lt hresult]
    · rw [removeMultiples]
  | succ steps ih =>
    rw [removeMultiples]
    split
    · rename_i hlong
      obtain ⟨hle, hclose⟩ := removeMultiples_step ha hother hlong
      have hne := ha.bigits_ne_nil_of_bigitLength (Nat.zero_lt_of_lt hlong)
      obtain ⟨hvalid, hvalue, hexp', hlength⟩ :=
        spec_subtractTimes ha hother hexp (topBigit_lt ha) hle
      have hless : a.value - a.topBigit * other.value ≤ steps := by
        have := Nat.mul_pos (topBigit_pos ha hne) hpos
        omega
      obtain ⟨count, h1, h2, h3, h4, h5, h6, h7⟩ := ih hvalid hexp' (Or.inr (by rwa [hvalue]))
        (by rwa [hvalue]) ((result + a.topBigit) % 2 ^ 16)
        (Nat.mod_lt _ (by norm_num))
      refine ⟨a.topBigit + count, h1, h2, h3, h4, ?_, ?_, h7.trans hlength⟩
      · rw [hvalue] at h5
        rw [Nat.add_mul]
        omega
      · rw [h6, Nat.mod_add_mod, Nat.add_assoc]
    · rename_i hshort
      exact ⟨0, ha, hexp, Nat.le_of_not_lt hshort, hlen, by rw [Nat.zero_mul, Nat.add_zero],
        by rw [Nat.add_zero, Nat.mod_eq_of_lt hresult], le_rfl⟩

/-- Taking the other number away as long as it is there divides. -/
theorem subtractWhile_spec {other : Bignum} (hother : other.Valid) (hpos : 0 < other.value)
    (steps : ℕ) {a : Bignum} (ha : a.Valid) (hexp : a.exponent ≤ other.exponent)
    (hsteps : a.value ≤ steps) (result : ℕ) (hresult : result < 2 ^ 16) :
    (subtractWhile other steps a result).1.Valid
      ∧ (subtractWhile other steps a result).1.value = a.value % other.value
      ∧ (subtractWhile other steps a result).2
        = (result + a.value / other.value) % 2 ^ 16
      ∧ (subtractWhile other steps a result).1.bigits.length ≤ a.bigits.length := by
  induction steps generalizing a result with
  | zero =>
    have h0 := Nat.le_zero.mp hsteps
    rw [subtractWhile, h0, Nat.zero_mod, Nat.zero_div, Nat.add_zero]
    exact ⟨ha, rfl, (Nat.mod_eq_of_lt hresult).symm, le_rfl⟩
  | succ steps ih =>
    rw [subtractWhile]
    split
    · rename_i hle
      have hle := (compare_le_zero_iff hother ha).mp hle
      have hvalue := value_subtractBignum ha hother hle
      obtain ⟨hvalid, hmod, hdiv, hlen⟩ := ih (valid_subtractBignum ha other)
        ((exponent_subtractBignum_le a other).trans (Nat.min_le_right _ _))
        (by rw [hvalue]; omega) ((result + 1) % 2 ^ 16) (Nat.mod_lt _ (by norm_num))
      refine ⟨hvalid, ?_, ?_, hlen.trans (length_subtractBignum_le ha hother hexp hle)⟩
      · rw [hmod, hvalue, Nat.mod_eq_sub_mod hle]
      · rw [hdiv, hvalue, Nat.mod_add_mod, Nat.div_eq_sub_div hpos hle]
        congr 1
        omega
    · rename_i hgt
      have hlt : a.value < other.value :=
        Nat.lt_of_not_le fun hle => hgt ((compare_le_zero_iff hother ha).mpr hle)
      exact ⟨ha, (Nat.mod_eq_of_lt hlt).symm,
        by rw [Nat.div_eq_of_lt hlt, Nat.add_zero, Nat.mod_eq_of_lt hresult], le_rfl⟩

/-- A number of one bigit. -/
theorem value_of_single {a : Bignum} (hone : a.bigits.length = 1) :
    a.value = a.topBigit * (2 ^ 28) ^ (a.bigitLength - 1) := by
  obtain ⟨bigit, hbigit⟩ := List.length_eq_one_iff.mp hone
  have htop : a.topBigit = bigit := by
    rw [topBigit, hbigit]
    rfl
  rw [value, bigitLength, hone, Nat.add_sub_cancel_left, hbigit, Nat.ofDigits_singleton, htop]

/-- Where the divisor has one bigit, the top bigits divide. -/
theorem single_spec {a other : Bignum} (ha : a.Valid) (hone : other.bigits.length = 1)
    (hlen : a.bigitLength = other.bigitLength) :
    a.value / other.value = a.topBigit / other.topBigit
      ∧ value ⟨a.bigits.dropLast
            ++ [a.topBigit - other.topBigit * (a.topBigit / other.topBigit)], a.exponent⟩
        = a.value % other.value := by
  have hne : a.bigits ≠ [] := ha.bigits_ne_nil_of_bigitLength (by
    rw [hlen, bigitLength, hone]
    omega)
  have hovalue : other.value = other.topBigit * (2 ^ 28) ^ (a.bigitLength - 1) := by
    rw [value_of_single hone, hlen]
  have hquot : a.value / other.value = a.topBigit / other.topBigit := by
    rw [hovalue, Nat.mul_comm, ← Nat.div_div_eq_div_mul, ha.value_div_pow hne]
  refine ⟨hquot, ?_⟩
  have hsplit : a.value = value ⟨a.bigits.dropLast, a.exponent⟩
      + a.topBigit * (2 ^ 28) ^ (a.bigitLength - 1) := by
    have hlast : a.topBigit = a.bigits.getLast hne := by
      rw [topBigit, List.getLastD_eq_getLast?, List.getLast?_eq_some_getLast hne]
      rfl
    have hlength : a.bigitLength - 1 = a.bigits.dropLast.length + a.exponent := by
      have := List.length_pos_iff.mpr hne
      rw [bigitLength, List.length_dropLast]
      omega
    rw [hlast, hlength, pow_add, value_mk, value]
    nth_rewrite 1 [← List.dropLast_append_getLast hne]
    rw [Nat.ofDigits_append, Nat.ofDigits_singleton]
    ring
  have hnew : value ⟨a.bigits.dropLast
        ++ [a.topBigit - other.topBigit * (a.topBigit / other.topBigit)], a.exponent⟩
      = value ⟨a.bigits.dropLast, a.exponent⟩
        + (a.topBigit - other.topBigit * (a.topBigit / other.topBigit))
          * (2 ^ 28) ^ (a.bigitLength - 1) := by
    have hlength : a.bigitLength - 1 = a.bigits.dropLast.length + a.exponent := by
      have := List.length_pos_iff.mpr hne
      rw [bigitLength, List.length_dropLast]
      omega
    rw [hlength, pow_add, value_mk, value_mk, Nat.ofDigits_append, Nat.ofDigits_singleton]
    ring
  have hmod := Nat.mod_add_div a.value other.value
  have hle := Nat.mul_div_le a.topBigit other.topBigit
  rw [hnew]
  rw [hquot, hovalue] at hmod
  have hsub : (a.topBigit - other.topBigit * (a.topBigit / other.topBigit))
        * (2 ^ 28) ^ (a.bigitLength - 1)
      + other.topBigit * (2 ^ 28) ^ (a.bigitLength - 1) * (a.topBigit / other.topBigit)
      = a.topBigit * (2 ^ 28) ^ (a.bigitLength - 1) := by
    rw [Nat.mul_right_comm, ← Nat.add_mul, Nat.sub_add_cancel hle]
  rw [← hovalue] at hmod hsub
  omega

/-- The estimate from the top bigits is not too high, and where the test says so it is the
quotient. -/
theorem estimate_spec {a other : Bignum} (ha : a.Valid) (hother : other.Valid)
    (hpos : 0 < other.value) (hlen : a.bigitLength ≤ other.bigitLength)
    (hclose : other.bigitLength ≤ a.bigitLength
      ∨ (2 ^ 28) ^ other.bigitLength ≤ a.value + other.value) :
    a.topBigit / (other.topBigit + 1) * other.value ≤ a.value
      ∧ (a.topBigit < other.topBigit * (a.topBigit / (other.topBigit + 1) + 1) →
        a.value < (a.topBigit / (other.topBigit + 1) + 1) * other.value) := by
  have hone := hother.bigits_ne_nil hpos
  have hoexp : 0 < other.bigitLength := by
    have := List.length_pos_iff.mpr hone
    rw [bigitLength]
    omega
  have hpow : 0 < (2 ^ 28) ^ (other.bigitLength - 1) := by positivity
  have hlto := value_lt_topBigit_succ hother hone
  rcases Nat.lt_or_ge a.bigitLength other.bigitLength with hshort | hsame
  · -- the other number is next to a power of the radix: its top bigit is the largest there is
    have hlta : a.value < (2 ^ 28) ^ (other.bigitLength - 1) :=
      ha.value_lt.trans_le (Nat.pow_le_pow_right (by norm_num) (by omega))
    have hle : (2 ^ 28) ^ (other.bigitLength - 1) ≤ other.value := hother.le_value hone
    have hbig := hclose.resolve_left (Nat.not_le_of_lt hshort)
    have hsucc : (2 ^ 28) ^ other.bigitLength
        = 2 ^ 28 * (2 ^ 28) ^ (other.bigitLength - 1) := by
      rw [← pow_succ', Nat.sub_add_cancel hoexp]
    have htop : 2 ^ 28 < other.topBigit + 1 + 1 := by
      refine Nat.lt_of_mul_lt_mul_right (a := (2 ^ 28) ^ (other.bigitLength - 1)) ?_
      rw [← hsucc, Nat.add_mul (other.topBigit + 1)]
      omega
    have hzero : a.topBigit / (other.topBigit + 1) = 0 :=
      Nat.div_eq_of_lt ((topBigit_lt ha).trans_le (by omega))
    rw [hzero, Nat.zero_mul, Nat.zero_add, Nat.one_mul]
    exact ⟨Nat.zero_le _, fun _ => hlta.trans_le hle⟩
  · have heq : a.bigitLength = other.bigitLength := Nat.le_antisymm hlen hsame
    have hne := ha.bigits_ne_nil_of_bigitLength (by omega)
    have hlea := topBigit_mul_le ha
    have hlta := value_lt_topBigit_succ ha hne
    have hleo := topBigit_mul_le hother
    rw [heq] at hlea hlta
    constructor
    · calc a.topBigit / (other.topBigit + 1) * other.value
          ≤ a.topBigit / (other.topBigit + 1)
              * ((other.topBigit + 1) * (2 ^ 28) ^ (other.bigitLength - 1)) :=
            Nat.mul_le_mul_left _ hlto.le
        _ = a.topBigit / (other.topBigit + 1) * (other.topBigit + 1)
              * (2 ^ 28) ^ (other.bigitLength - 1) := (Nat.mul_assoc _ _ _).symm
        _ ≤ a.topBigit * (2 ^ 28) ^ (other.bigitLength - 1) :=
            Nat.mul_le_mul_right _ (Nat.div_mul_le_self _ _)
        _ ≤ a.value := hlea
    · intro htest
      calc a.value < (a.topBigit + 1) * (2 ^ 28) ^ (other.bigitLength - 1) := hlta
        _ ≤ other.topBigit * (a.topBigit / (other.topBigit + 1) + 1)
              * (2 ^ 28) ^ (other.bigitLength - 1) := Nat.mul_le_mul_right _ htest
        _ = (a.topBigit / (other.topBigit + 1) + 1)
              * (other.topBigit * (2 ^ 28) ^ (other.bigitLength - 1)) := by ring
        _ ≤ (a.topBigit / (other.topBigit + 1) + 1) * other.value :=
            Nat.mul_le_mul_left _ hleo

/-- `DivideModuloIntBignum` leaves the remainder and returns the quotient, as far as sixteen bits
hold it. -/
theorem spec_divideModuloIntBignum {a other : Bignum} (ha : a.Valid) (hother : other.Valid)
    (hpos : 0 < other.value) :
    (a.divideModuloIntBignum other).1.Valid
      ∧ (a.divideModuloIntBignum other).1.value = a.value % other.value
      ∧ (a.divideModuloIntBignum other).2 = a.value / other.value % 2 ^ 16
      ∧ (a.divideModuloIntBignum other).1.bigits.length ≤ (a.align other).bigits.length := by
  rw [divideModuloIntBignum]
  split
  · rename_i hshort
    have hlt := ha.value_lt_of_bigitLength_lt hother hshort
    exact ⟨ha, (Nat.mod_eq_of_lt hlt).symm, by rw [Nat.div_eq_of_lt hlt, Nat.zero_mod],
      length_le_length_align a other⟩
  · rename_i hlong
    have hexp : (a.align other).exponent ≤ other.exponent := by
      rw [exponent_align]
      exact Nat.min_le_right _ _
    obtain ⟨count, hvalid, hexp', hlen, hclose, hvalue, hresult, hlength⟩ :=
      removeMultiples_spec hother hpos a.value (valid_align ha _) hexp
        (Or.inl (by rw [bigitLength_align]; exact Nat.le_of_not_lt hlong))
        (value_align a other).le 0 (by norm_num)
    dsimp only
    generalize removeMultiples other a.value (a.align other) 0 = start at *
    rw [value_align] at hvalue
    rw [Nat.zero_add] at hresult
    have hmod : a.value % other.value = start.1.value % other.value := by
      rw [hvalue, Nat.add_mul_mod_self_right]
    have hdiv : a.value / other.value = start.1.value / other.value + count := by
      rw [hvalue, Nat.add_mul_div_right _ _ hpos]
    have hone := hother.bigits_ne_nil hpos
    split
    · rename_i hsingle
      -- a number of one bigit is never so close to a power that the length could drop
      have hsame : start.1.bigitLength = other.bigitLength := by
        refine Nat.le_antisymm hlen (Nat.le_of_not_lt fun hshort => ?_)
        have hbig := hclose.resolve_left (Nat.not_le_of_lt hshort)
        have hlt : start.1.value < (2 ^ 28) ^ (other.bigitLength - 1) :=
          hvalid.value_lt.trans_le (Nat.pow_le_pow_right (by norm_num) (by omega))
        have hsucc : (2 ^ 28) ^ other.bigitLength
            = 2 ^ 28 * (2 ^ 28) ^ (other.bigitLength - 1) := by
          rw [← pow_succ', Nat.sub_add_cancel (Nat.zero_lt_of_lt hshort)]
        have htop : other.topBigit * (2 ^ 28) ^ (other.bigitLength - 1)
            ≤ (2 ^ 28 - 1) * (2 ^ 28) ^ (other.bigitLength - 1) :=
          Nat.mul_le_mul_right _ (Nat.le_sub_one_of_lt (topBigit_lt hother))
        rw [value_of_single hsingle, hsucc] at hbig
        omega
      obtain ⟨hquot, hrem⟩ := single_spec hvalid hsingle hsame
      refine ⟨valid_clamp fun x hx => ?_, ?_, ?_, (length_clamp_le _).trans ?_⟩
      · rcases List.mem_append.mp hx with hx | hx
        · exact hvalid.bigit_lt x (List.mem_of_mem_dropLast hx)
        · rw [List.mem_singleton.mp hx]
          exact (Nat.sub_le _ _).trans_lt (topBigit_lt hvalid)
      · rw [value_clamp, hrem, hmod]
      · rw [hresult, Nat.mod_add_mod, ← hquot, hdiv, Nat.add_comm]
      · have hsome := List.length_pos_iff.mpr
          (hvalid.bigits_ne_nil_of_bigitLength (by rw [hsame, bigitLength, hsingle]; omega))
        rw [List.length_append, List.length_dropLast, List.length_singleton]
        omega
    · obtain ⟨hle, htest⟩ := estimate_spec hvalid hother hpos hlen hclose
      obtain ⟨hvalid', hvalue', hexp'', hlength'⟩ := spec_subtractTimes hvalid hother hexp'
        ((Nat.div_le_self _ _).trans_lt (topBigit_lt hvalid)) hle
      have hmod' : start.1.value % other.value
          = (start.1.value - start.1.topBigit / (other.topBigit + 1) * other.value)
            % other.value := by
        rw [Nat.mul_comm, Nat.sub_mul_mod (by rwa [Nat.mul_comm] at hle)]
      have hdiv' : start.1.value / other.value
          = (start.1.value - start.1.topBigit / (other.topBigit + 1) * other.value)
              / other.value + start.1.topBigit / (other.topBigit + 1) := by
        rw [← Nat.add_mul_div_right _ _ hpos, Nat.sub_add_cancel hle]
      rw [hmod, hdiv, hmod', hdiv', ← hvalue']
      generalize start.1.subtractTimes other _ = rest at *
      split
      · rename_i hdone
        have hlt : rest.value < other.value := by
          have := htest hdone
          rw [Nat.succ_mul] at this
          omega
        exact ⟨hvalid', (Nat.mod_eq_of_lt hlt).symm, by
          rw [hresult, Nat.mod_add_mod, Nat.div_eq_of_lt hlt, Nat.zero_add, Nat.add_comm],
          hlength'.trans hlength⟩
      · obtain ⟨h1, h2, h3, h4⟩ := subtractWhile_spec hother hpos rest.value hvalid' hexp'' le_rfl
          ((start.2 + start.1.topBigit / (other.topBigit + 1)) % 2 ^ 16)
          (Nat.mod_lt _ (by norm_num))
        refine ⟨h1, h2, ?_, h4.trans (hlength'.trans hlength)⟩
        rw [h3, hresult]
        omega

end Bignum
end S4LibLite
