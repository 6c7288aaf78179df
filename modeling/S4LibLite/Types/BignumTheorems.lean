import S4LibLite.Lib.Carry
import S4LibLite.Types.Bignum
import Mathlib.Data.Int.Order.Lemmas
import Mathlib.Tactic.Ring
import Mathlib.Tactic.Linarith

/-!
# Sums, differences, products and order of large numbers

Each operation on bigits computes what it stands for, and hands over a number of which the next
operation can rely on the same.

* `Valid`, what every operation keeps: bigits below the radix, the top one not zero;
* `bigitAt_eq`, a bigit is a digit of the number;
* `value_addBignum`, `value_subtractBignum`, `value_shiftLeft`, `value_multiplyByUInt32` and
  `value_multiplyByUInt64`;
* `compare_eq_sign` and `plusCompare_eq_sign`, the order, without carrying a sum out.
-/

namespace S4LibLite
namespace Bignum

open Carry

/-! ## What a number keeps -/

/-- Bigits are below the radix, the last one in use is not zero, and zero has no hidden bigits. -/
structure Valid (a : Bignum) : Prop where
  bigit_lt : ∀ x ∈ a.bigits, x < 2 ^ 28
  top_ne_zero : a.bigits.getLast? ≠ some 0
  exponent_eq_zero : a.bigits = [] → a.exponent = 0

@[simp]
theorem value_mk (bigits : List ℕ) (exponent : ℕ) :
    value ⟨bigits, exponent⟩ = Nat.ofDigits (2 ^ 28) bigits * (2 ^ 28) ^ exponent := rfl

theorem value_zero : zero.value = 0 := by
  simp [zero]

theorem valid_zero : Valid zero :=
  ⟨fun _ hx => absurd hx List.not_mem_nil, by simp [zero], fun _ => rfl⟩

theorem one_lt_radix : 1 < 2 ^ 28 := by norm_num

namespace Valid

variable {a : Bignum}

/-- The bigits are the digits of what they stand for. -/
theorem digits_eq (ha : a.Valid) :
    Nat.digits (2 ^ 28) (Nat.ofDigits (2 ^ 28) a.bigits) = a.bigits := by
  refine Nat.digits_ofDigits _ one_lt_radix _ ha.bigit_lt fun hne h0 => ha.top_ne_zero ?_
  rw [List.getLast?_eq_some_getLast hne, h0]

/-- A number is below the power of its length. -/
theorem value_lt (ha : a.Valid) : a.value < (2 ^ 28) ^ a.bigitLength := by
  rw [value, bigitLength, pow_add]
  exact Nat.mul_lt_mul_of_pos_right (Nat.ofDigits_lt_base_pow_length one_lt_radix ha.bigit_lt)
    (by positivity)

/-- And not below that of one bigit less. -/
theorem le_value (ha : a.Valid) (hne : a.bigits ≠ []) :
    (2 ^ 28) ^ (a.bigitLength - 1) ≤ a.value := by
  have hlen : a.bigitLength - 1 = a.bigits.length - 1 + a.exponent := by
    have := List.length_pos_iff.mpr hne
    rw [bigitLength]
    omega
  rw [value, hlen, pow_add]
  exact Nat.mul_le_mul_right _ (pow_le_ofDigits hne ha.top_ne_zero)

/-- Only zero has no bigits. -/
theorem value_eq_zero_iff (ha : a.Valid) : a.value = 0 ↔ a.bigits = [] := by
  constructor
  · intro h0
    by_contra hne
    have := ha.le_value hne
    have : 0 < (2 ^ 28) ^ (a.bigitLength - 1) := by positivity
    omega
  · intro hnil
    rw [value, hnil, Nat.ofDigits_nil, Nat.zero_mul]

theorem bigits_ne_nil (ha : a.Valid) (hpos : 0 < a.value) : a.bigits ≠ [] :=
  fun hnil => hpos.ne' (ha.value_eq_zero_iff.mpr hnil)

/-- A number of some length is not zero. -/
theorem bigits_ne_nil_of_bigitLength (ha : a.Valid) (h : 0 < a.bigitLength) :
    a.bigits ≠ [] := by
  intro hnil
  rw [bigitLength, ha.exponent_eq_zero hnil, hnil] at h
  exact absurd h (by decide)

/-- A longer number is larger. -/
theorem value_lt_of_bigitLength_lt {b : Bignum} (ha : a.Valid) (hb : b.Valid)
    (h : a.bigitLength < b.bigitLength) : a.value < b.value := by
  have hne := hb.bigits_ne_nil_of_bigitLength (Nat.zero_lt_of_lt h)
  exact ha.value_lt.trans_le
    ((Nat.pow_le_pow_right (by norm_num) (Nat.le_sub_one_of_lt h)).trans (hb.le_value hne))

/-- A smaller number is not longer. -/
theorem bigitLength_le_of_value_le {b : Bignum} (ha : a.Valid) (hb : b.Valid)
    (h : a.value ≤ b.value) : a.bigitLength ≤ b.bigitLength := by
  by_contra hlt
  have := hb.value_lt_of_bigitLength_lt ha (Nat.lt_of_not_le hlt)
  omega

/-- The top bigit and what is below it. -/
theorem value_div_pow (ha : a.Valid) (hne : a.bigits ≠ []) :
    a.value / (2 ^ 28) ^ (a.bigitLength - 1) = a.topBigit := by
  obtain ⟨init, top, hsplit⟩ : ∃ init top, a.bigits = init ++ [top] :=
    ⟨a.bigits.dropLast, a.bigits.getLast hne, (List.dropLast_append_getLast hne).symm⟩
  have hinit : Nat.ofDigits (2 ^ 28) init < (2 ^ 28) ^ init.length :=
    Nat.ofDigits_lt_base_pow_length one_lt_radix fun x hx =>
      ha.bigit_lt x (by rw [hsplit]; exact List.mem_append_left _ hx)
  have hlen : a.bigitLength - 1 = init.length + a.exponent := by
    rw [bigitLength, hsplit, List.length_append, List.length_singleton]
    omega
  have htop : a.topBigit = top := by
    rw [topBigit, hsplit, List.getLastD_concat]
  rw [value, hlen, hsplit, Nat.ofDigits_append, Nat.ofDigits_singleton, pow_add, htop,
    Nat.mul_div_mul_right _ _ (by positivity), Nat.add_mul_div_left _ _ (by positivity),
    Nat.div_eq_of_lt hinit, Nat.zero_add]

end Valid

/-- A bigit is a digit of the number. -/
theorem bigitAt_eq {a : Bignum} (ha : a.Valid) (i : ℕ) :
    a.bigitAt i = a.value / (2 ^ 28) ^ i % 2 ^ 28 := by
  have hdigit : ∀ k, a.bigits.getD k 0
      = Nat.ofDigits (2 ^ 28) a.bigits / (2 ^ 28) ^ k % 2 ^ 28 := by
    intro k
    rw [← Nat.getD_digits _ _ (by norm_num), ha.digits_eq]
  rw [bigitAt]
  split
  · rename_i hlong
    rw [Nat.div_eq_of_lt (ha.value_lt.trans_le (Nat.pow_le_pow_right (by norm_num) hlong)),
      Nat.zero_mod]
  split
  · rename_i hhidden
    obtain ⟨k, hk⟩ : ∃ k, a.exponent = i + (k + 1) := ⟨a.exponent - i - 1, by omega⟩
    rw [value, hk, pow_add, Nat.mul_left_comm, Nat.mul_div_cancel_left _ (by positivity),
      pow_succ (2 ^ 28), ← Nat.mul_assoc, Nat.mul_mod_left]
  · rename_i hshown
    obtain ⟨k, hk⟩ : ∃ k, i = k + a.exponent := ⟨i - a.exponent, by omega⟩
    rw [hk, Nat.add_sub_cancel, hdigit, value, pow_add, Nat.mul_div_mul_right _ _ (by positivity)]

/-! ## Clamping and aligning -/

/-- Zeros on top do not count. -/
theorem ofDigits_rdropWhile (b : ℕ) (ds : List ℕ) :
    Nat.ofDigits b (ds.rdropWhile (· == 0)) = Nat.ofDigits b ds := by
  induction ds using List.reverseRecOn with
  | nil => rfl
  | append_singleton ds d ih =>
    by_cases hd : d = 0
    · rw [List.rdropWhile_concat_pos _ _ _ (by simpa using hd), ih, hd, Nat.ofDigits_append_zero]
    · rw [List.rdropWhile_concat_neg _ _ _ (by simpa using hd)]

/-- `Clamp` keeps the number. -/
theorem value_clamp (a : Bignum) : a.clamp.value = a.value := by
  have h := ofDigits_rdropWhile (2 ^ 28) a.bigits
  rw [clamp, value_mk, h]
  split
  · rename_i hnil
    rw [hnil, Nat.ofDigits_nil] at h
    rw [value, ← h, Nat.zero_mul, Nat.zero_mul]
  · rfl

/-- What `Clamp` leaves is valid. -/
theorem valid_clamp {a : Bignum} (h : ∀ x ∈ a.bigits, x < 2 ^ 28) : a.clamp.Valid := by
  refine ⟨fun x hx => h x ((List.rdropWhile_prefix _ _).subset hx), fun h0 => ?_, fun hnil => ?_⟩
  · have hne : a.bigits.rdropWhile (· == 0) ≠ [] := by
      intro hnil
      rw [clamp, hnil] at h0
      exact absurd h0 (by simp)
    have hlast := List.rdropWhile_last_not _ _ hne
    rw [clamp, List.getLast?_eq_some_getLast hne] at h0
    exact hlast (by simpa using Option.some.inj h0)
  · rw [clamp] at hnil ⊢
    exact if_pos hnil

theorem exponent_clamp_le (a : Bignum) : a.clamp.exponent ≤ a.exponent := by
  rw [clamp]
  dsimp only
  split
  · exact Nat.zero_le _
  · exact le_rfl

theorem length_clamp_le (a : Bignum) : a.clamp.bigits.length ≤ a.bigits.length :=
  (List.rdropWhile_prefix _ _).length_le

/-- There is nothing to align where the other number hides no fewer bigits. -/
theorem align_of_le {a other : Bignum} (h : a.exponent ≤ other.exponent) : a.align other = a := by
  rw [align, if_neg (Nat.not_lt_of_le h)]

/-- Hidden bigits become bigits, and none is lost. -/
theorem length_le_length_align (a other : Bignum) :
    a.bigits.length ≤ (a.align other).bigits.length := by
  rw [align]
  split
  · rw [List.length_append]
    exact Nat.le_add_left _ _
  · exact le_rfl

/-- `Align` keeps the number. -/
theorem value_align (a other : Bignum) : (a.align other).value = a.value := by
  rw [align]
  split
  · rename_i h
    have hexp : (2 ^ 28) ^ a.exponent
        = (2 ^ 28) ^ (a.exponent - other.exponent) * (2 ^ 28) ^ other.exponent := by
      rw [← pow_add]
      congr 1
      omega
    rw [value_mk, value, Nat.ofDigits_append, Nat.ofDigits_replicate_zero, List.length_replicate,
      hexp]
    ring
  · rfl

/-- Behind `Align` the other number hides no fewer bigits. -/
theorem exponent_align (a other : Bignum) :
    (a.align other).exponent = min a.exponent other.exponent := by
  rw [align]
  split
  · rename_i h
    exact (Nat.min_eq_right (Nat.le_of_lt h)).symm
  · rename_i h
    exact (Nat.min_eq_left (Nat.le_of_not_lt h)).symm

/-- `Align` keeps a number valid. -/
theorem valid_align {a : Bignum} (ha : a.Valid) (other : Bignum) : (a.align other).Valid := by
  rw [align]
  split
  · rename_i h
    have hne : a.bigits ≠ [] := fun hnil => by
      rw [ha.exponent_eq_zero hnil] at h
      exact absurd h (Nat.not_lt_zero _)
    refine ⟨fun x hx => ?_, ?_, fun hnil => absurd hnil (by simp [hne])⟩
    · rcases List.mem_append.mp hx with hx | hx
      · rw [(List.mem_replicate.mp hx).2]
        norm_num
      · exact ha.bigit_lt x hx
    · rw [List.getLast?_append_of_ne_nil _ hne]
      exact ha.top_ne_zero
  · exact ha

theorem bigitLength_align {a other : Bignum} : (a.align other).bigitLength = a.bigitLength := by
  rw [align]
  split
  · rename_i h
    simp only [bigitLength, List.length_append, List.length_replicate]
    omega
  · rfl

/-! ## Assigning -/

/-- The carry is written out by its digits. -/
theorem appendCarry_eq (carry : ℕ) : appendCarry carry = Nat.digits (2 ^ 28) carry := by
  fun_induction appendCarry carry with
  | case1 => rw [Nat.digits_zero]
  | case2 carry hne ih =>
    rw [Nat.digits_def' one_lt_radix (Nat.pos_of_ne_zero hne), ih]

/-- `AssignUInt16`. -/
theorem value_assignUInt16 (n : ℕ) : (assignUInt16 n).value = n := by
  rw [assignUInt16]
  split
  · rename_i h0
    rw [value_zero, h0]
  · simp

theorem valid_assignUInt16 {n : ℕ} (hn : n < 2 ^ 28) : (assignUInt16 n).Valid := by
  rw [assignUInt16]
  split
  · exact valid_zero
  · rename_i hne
    refine ⟨fun x hx => ?_, fun h0 => hne (Option.some.inj h0), fun _ => rfl⟩
    rwa [List.mem_singleton.mp hx]

/-- The loop splits a value into its lowest bigits. -/
theorem ofDigits_splitBigits (needed n : ℕ) :
    Nat.ofDigits (2 ^ 28) (splitBigits needed n) = n % (2 ^ 28) ^ needed := by
  induction needed generalizing n with
  | zero => simp [splitBigits, Nat.mod_one]
  | succ needed ih =>
    rw [splitBigits, Nat.ofDigits_cons, ih, pow_succ (2 ^ 28), Nat.mul_comm _ (2 ^ 28),
      Nat.mod_mul]

theorem splitBigits_lt (needed n : ℕ) : ∀ x ∈ splitBigits needed n, x < 2 ^ 28 := by
  induction needed generalizing n with
  | zero => exact fun x hx => absurd hx List.not_mem_nil
  | succ needed ih =>
    intro x hx
    rw [splitBigits, List.mem_cons] at hx
    rcases hx with rfl | hx
    · exact Nat.mod_lt _ (by norm_num)
    · exact ih _ x hx

/-- `AssignUInt64`: three bigits hold sixty-four bits. -/
theorem value_assignUInt64 {n : ℕ} (hn : n < 2 ^ 64) : (assignUInt64 n).value = n := by
  rw [assignUInt64]
  split
  · rename_i h0
    rw [value_zero, h0]
  · rw [value_clamp, value_mk, ofDigits_splitBigits, pow_zero, Nat.mul_one]
    exact Nat.mod_eq_of_lt (hn.trans (by norm_num))

theorem valid_assignUInt64 (n : ℕ) : (assignUInt64 n).Valid := by
  rw [assignUInt64]
  split
  · exact valid_zero
  · exact valid_clamp (splitBigits_lt 3 n)

/-- Columns that are settled behind bigits make a number, if they are worth enough. -/
theorem valid_settled {init ts : List ℕ} {c exponent : ℕ} (hinit : ∀ x ∈ init, x < 2 ^ 28)
    (hts : ts ≠ []) (h : (2 ^ 28) ^ (ts.length - 1) ≤ Nat.ofDigits (2 ^ 28) ts + c) :
    Valid ⟨init ++ settled (2 ^ 28) c ts, exponent⟩ := by
  have hne : settled (2 ^ 28) c ts ≠ [] := by
    cases ts with
    | nil => exact absurd rfl hts
    | cons t ts => simp [settled_cons]
  refine ⟨fun x hx => ?_, ?_, fun hnil => absurd hnil (List.append_ne_nil_of_right_ne_nil _ hne)⟩
  · rcases List.mem_append.mp hx with hx | hx
    · exact hinit x hx
    · exact settled_lt one_lt_radix c ts x hx
  · rw [List.getLast?_append_of_ne_nil _ hne]
    exact getLast?_settled_ne_zero one_lt_radix h

/-! ## Adding -/

/-- The carry is settled in the bigits that are left. -/
theorem addCarry_eq {xs : List ℕ} (hxs : ∀ x ∈ xs, x < 2 ^ 28) (carry : ℕ) :
    addCarry xs carry = settled (2 ^ 28) carry xs := by
  induction xs generalizing carry with
  | nil => exact appendCarry_eq carry
  | cons x xs ih =>
    rw [addCarry]
    split
    · rename_i h0
      rw [h0, settled_zero hxs]
    · rw [ih (fun y hy => hxs y (List.mem_cons_of_mem _ hy)), settled_cons]

/-- The loops of `AddBignum` settle the columns of the sum. -/
theorem addLoop_eq {xs ys : List ℕ} (hxs : ∀ x ∈ xs, x < 2 ^ 28) (carry : ℕ) :
    addLoop xs ys carry = settled (2 ^ 28) carry (addColumns xs ys) := by
  induction ys generalizing xs carry with
  | nil => rw [addLoop, addColumns, addCarry_eq hxs]
  | cons y ys ih =>
    rw [addLoop, addColumns, settled_cons, ih fun x hx => hxs x (List.mem_of_mem_tail hx)]

/-- A number in two parts, the lower one filled up with zeros. -/
theorem ofDigits_takeD (b n : ℕ) (xs : List ℕ) :
    Nat.ofDigits b (xs.takeD n 0) + b ^ n * Nat.ofDigits b (xs.drop n) = Nat.ofDigits b xs := by
  induction n generalizing xs with
  | zero => simp
  | succ n ih =>
    have htail := ofDigits_tail b xs
    rw [List.takeD_succ, Nat.ofDigits_cons, pow_succ, ← htail, ← ih xs.tail, List.drop_tail]
    cases xs with
    | nil => simp
    | cons x xs =>
      rw [List.headD_cons, List.head?_cons, Option.getD_some, List.drop_succ_cons, List.tail_cons]
      ring

theorem takeD_lt {xs : List ℕ} (hxs : ∀ x ∈ xs, x < 2 ^ 28) (n : ℕ) :
    ∀ x ∈ xs.takeD n 0, x < 2 ^ 28 := by
  induction n generalizing xs with
  | zero => exact fun x hx => absurd hx List.not_mem_nil
  | succ n ih =>
    intro x hx
    rw [List.takeD_succ, List.mem_cons] at hx
    rcases hx with rfl | hx
    · cases xs with
      | nil => norm_num
      | cons y ys => exact hxs _ List.mem_cons_self
    · exact ih (fun y hy => hxs y (List.mem_of_mem_tail hy)) x hx

/-- **`AddBignum`** adds. -/
theorem value_addBignum {a other : Bignum} (ha : a.Valid) :
    (a.addBignum other).value = a.value + other.value := by
  have hdrop : ∀ x ∈ (a.align other).bigits.drop (other.exponent - (a.align other).exponent),
      x < 2 ^ 28 := fun x hx => (valid_align ha _).bigit_lt x (List.mem_of_mem_drop hx)
  have hexp : (2 ^ 28) ^ other.exponent = (2 ^ 28) ^ (other.exponent - (a.align other).exponent)
      * (2 ^ 28) ^ (a.align other).exponent := by
    rw [← pow_add, exponent_align]
    congr 1
    omega
  have hsplit := ofDigits_takeD (2 ^ 28) (other.exponent - (a.align other).exponent)
    (a.align other).bigits
  rw [addBignum, value_mk, Nat.ofDigits_append, List.takeD_length, addLoop_eq hdrop,
    ofDigits_settled, ofDigits_addColumns, Nat.add_zero, Nat.mul_add, ← Nat.add_assoc, hsplit,
    Nat.add_mul, ← value_align a other, value, value, hexp]
  ring

/-- A sum is valid: its top is one of the two tops, or a carry. -/
theorem valid_addBignum {a other : Bignum} (ha : a.Valid) (hother : other.Valid) :
    (a.addBignum other).Valid := by
  have halign := valid_align ha other
  have hdrop : ∀ x ∈ (a.align other).bigits.drop (other.exponent - (a.align other).exponent),
      x < 2 ^ 28 := fun x hx => halign.bigit_lt x (List.mem_of_mem_drop hx)
  by_cases hnil : other.bigits = []
  · have hsame : a.align other = a.align zero := by
      rw [align, align, hother.exponent_eq_zero hnil, zero]
    have hexp : other.exponent - (a.align other).exponent = 0 := by
      rw [hother.exponent_eq_zero hnil, Nat.zero_sub]
    rw [addBignum, hexp, hnil, List.takeD_zero, List.drop_zero, List.nil_append,
      addLoop_eq halign.bigit_lt, addColumns, settled_zero halign.bigit_lt]
    exact halign
  · rw [addBignum, addLoop_eq hdrop 0]
    refine valid_settled (takeD_lt halign.bigit_lt _) ?_ ?_
    · cases hb : other.bigits with
      | nil => exact absurd hb hnil
      | cons y ys => simp [addColumns]
    · rw [ofDigits_addColumns, length_addColumns, Nat.add_zero]
      rcases le_total ((a.align other).bigits.drop
          (other.exponent - (a.align other).exponent)).length other.bigits.length with hle | hle
      · rw [max_eq_right hle]
        exact (pow_le_ofDigits hnil hother.top_ne_zero).trans (Nat.le_add_left _ _)
      · have hne : (a.align other).bigits.drop (other.exponent - (a.align other).exponent) ≠ [] :=
          fun h0 => by
            rw [h0] at hle
            exact hnil (List.length_eq_zero_iff.mp (Nat.le_zero.mp hle))
        rw [max_eq_left hle]
        refine (pow_le_ofDigits hne ?_).trans (Nat.le_add_right _ _)
        rw [List.getLast?_drop, if_neg fun h0 => hne (List.drop_eq_nil_of_le h0)]
        exact halign.top_ne_zero

/-! ## Subtracting -/

/-- One turn of `SubtractBignum`: the wrapped difference shows digit and borrow. -/
theorem subChunk_step {x y borrow : ℕ} (hx : x < 2 ^ 28) (hy : y < 2 ^ 28) (hb : borrow ≤ 1) :
    subChunk (subChunk x y) borrow % 2 ^ 28 = (x + (2 ^ 28 - (y + borrow) % 2 ^ 28)) % 2 ^ 28
      ∧ subChunk (subChunk x y) borrow / 2 ^ 31
        = (y + borrow + (x + (2 ^ 28 - (y + borrow) % 2 ^ 28)) % 2 ^ 28 - x) / 2 ^ 28
      ∧ subChunk (subChunk x y) borrow / 2 ^ 31 ≤ 1 := by
  simp only [subChunk]
  omega

/-- The borrow is taken from the bigits that are left. -/
theorem subBorrow_eq {xs : List ℕ} (hxs : ∀ x ∈ xs, x < 2 ^ 28) {borrow : ℕ} (hb : borrow ≤ 1) :
    subBorrow xs borrow = (deduct (2 ^ 28) borrow xs []).1 := by
  induction xs generalizing borrow with
  | nil => rfl
  | cons x xs ih =>
    have hx := hxs x List.mem_cons_self
    rw [subBorrow]
    split
    · rename_i h0
      rw [h0, deduct_nil hxs]
    · obtain ⟨hdigit, hnext, hle⟩ := subChunk_step hx (show 0 < 2 ^ 28 by norm_num) hb
      have h0 : subChunk x 0 = x := by
        rw [subChunk]
        omega
      rw [h0] at hdigit hnext hle
      dsimp only
      rw [ih (fun z hz => hxs z (List.mem_cons_of_mem _ hz)) hle, hdigit, hnext]
      rfl

/-- The loops of `SubtractBignum` take the other number's bigits away. -/
theorem subLoop_eq {xs ys : List ℕ} (hxs : ∀ x ∈ xs, x < 2 ^ 28) (hys : ∀ y ∈ ys, y < 2 ^ 28)
    (hlen : ys.length ≤ xs.length) {borrow : ℕ} (hb : borrow ≤ 1) :
    subLoop xs ys borrow = (deduct (2 ^ 28) borrow xs ys).1 := by
  induction ys generalizing xs borrow with
  | nil => exact subBorrow_eq hxs hb
  | cons y ys ih =>
    cases xs with
    | nil => exact absurd hlen (by simp)
    | cons x xs =>
      obtain ⟨hdigit, hnext, hle⟩ :=
        subChunk_step (hxs x List.mem_cons_self) (hys y List.mem_cons_self) hb
      rw [subLoop, List.headD_cons, List.tail_cons,
        ih (fun z hz => hxs z (List.mem_cons_of_mem _ hz))
          (fun z hz => hys z (List.mem_cons_of_mem _ hz)) (Nat.le_of_succ_le_succ hlen) hle,
        hdigit, hnext]
      rfl

/-- What the loops of a subtraction work on: the aligned number from the other's exponent on,
where it is no smaller than what is taken away. -/
theorem le_ofDigits_drop {a other : Bignum} {factor : ℕ} (ha : a.Valid)
    (hexp : a.exponent ≤ other.exponent) (hle : factor * other.value ≤ a.value) :
    factor * Nat.ofDigits (2 ^ 28) other.bigits
      ≤ Nat.ofDigits (2 ^ 28) (a.bigits.drop (other.exponent - a.exponent)) := by
  have hsplit := ofDigits_takeD (2 ^ 28) (other.exponent - a.exponent) a.bigits
  have hpow : (2 ^ 28) ^ other.exponent
      = (2 ^ 28) ^ (other.exponent - a.exponent) * (2 ^ 28) ^ a.exponent := by
    rw [← pow_add]
    congr 1
    omega
  have hlow : Nat.ofDigits (2 ^ 28) (a.bigits.takeD (other.exponent - a.exponent) 0)
      < (2 ^ 28) ^ (other.exponent - a.exponent) := by
    have := Nat.ofDigits_lt_base_pow_length one_lt_radix
      (takeD_lt ha.bigit_lt (other.exponent - a.exponent))
    rwa [List.takeD_length] at this
  have hdigits : (2 ^ 28) ^ (other.exponent - a.exponent)
      * (factor * Nat.ofDigits (2 ^ 28) other.bigits) ≤ Nat.ofDigits (2 ^ 28) a.bigits := by
    refine Nat.le_of_mul_le_mul_right ?_ (show 0 < (2 ^ 28) ^ a.exponent by positivity)
    rw [value, value, hpow] at hle
    calc (2 ^ 28) ^ (other.exponent - a.exponent)
          * (factor * Nat.ofDigits (2 ^ 28) other.bigits) * (2 ^ 28) ^ a.exponent
        = factor * (Nat.ofDigits (2 ^ 28) other.bigits
            * ((2 ^ 28) ^ (other.exponent - a.exponent) * (2 ^ 28) ^ a.exponent)) := by ring
      _ ≤ _ := hle
  rw [← hsplit] at hdigits
  refine Nat.le_of_lt_succ (Nat.lt_of_mul_lt_mul_left (hdigits.trans_lt ?_))
  rw [Nat.mul_succ, Nat.add_comm]
  exact Nat.add_lt_add_left hlow _

/-- There is a bigit for each of the other number's. -/
theorem length_le_length_drop {a other : Bignum} (ha : a.Valid) (hother : other.Valid)
    (hexp : a.exponent ≤ other.exponent) (hle : other.value ≤ a.value) :
    other.bigits.length ≤ (a.bigits.drop (other.exponent - a.exponent)).length := by
  have := hother.bigitLength_le_of_value_le ha hle
  rw [bigitLength, bigitLength] at this
  rw [List.length_drop]
  omega

/-- Taking columns away from an aligned number's bigits. -/
theorem value_deduct {a other : Bignum} (factor : ℕ) {cs : List ℕ} (ha : a.Valid)
    (hexp : a.exponent ≤ other.exponent) (hle : factor * other.value ≤ a.value)
    (hcs : Nat.ofDigits (2 ^ 28) cs = factor * Nat.ofDigits (2 ^ 28) other.bigits)
    (hlen : cs.length ≤ (a.bigits.drop (other.exponent - a.exponent)).length) :
    value ⟨a.bigits.take (other.exponent - a.exponent)
        ++ (deduct (2 ^ 28) 0 (a.bigits.drop (other.exponent - a.exponent)) cs).1, a.exponent⟩
      = a.value - factor * other.value := by
  have hdrop := le_ofDigits_drop ha hexp hle
  have hdeduct := ofDigits_deduct_of_le one_lt_radix
    (fun x hx => ha.bigit_lt x (List.mem_of_mem_drop hx)) hlen (hcs ▸ hdrop)
  have hpow : (2 ^ 28) ^ other.exponent
      = (2 ^ 28) ^ (other.exponent - a.exponent) * (2 ^ 28) ^ a.exponent := by
    rw [← pow_add]
    congr 1
    omega
  by_cases hshort : other.exponent - a.exponent ≤ a.bigits.length
  · have hsplit : Nat.ofDigits (2 ^ 28) (a.bigits.take (other.exponent - a.exponent))
        + (2 ^ 28) ^ (other.exponent - a.exponent)
          * Nat.ofDigits (2 ^ 28) (a.bigits.drop (other.exponent - a.exponent))
        = Nat.ofDigits (2 ^ 28) a.bigits := by
      have h := @Nat.ofDigits_append (2 ^ 28) (a.bigits.take (other.exponent - a.exponent))
        (a.bigits.drop (other.exponent - a.exponent))
      rw [List.take_append_drop, List.length_take, Nat.min_eq_left hshort] at h
      exact h.symm
    rw [value_mk, Nat.ofDigits_append, hdeduct, hcs, List.length_take, Nat.min_eq_left hshort,
      Nat.mul_sub, ← Nat.add_sub_assoc (Nat.mul_le_mul_left _ hdrop), hsplit, Nat.sub_mul, value,
      value, hpow]
    congr 1
    ring
  · have hnil : a.bigits.drop (other.exponent - a.exponent) = [] :=
      List.drop_eq_nil_of_le (Nat.le_of_not_le hshort)
    rw [hnil, Nat.ofDigits_nil] at hdrop
    have hzero : factor * other.value = 0 := by
      rw [value, ← Nat.mul_assoc, Nat.le_zero.mp hdrop, Nat.zero_mul]
    rw [hnil, deduct, List.append_nil, List.take_of_length_le (Nat.le_of_not_le hshort), hzero]
    rfl

/-- **`SubtractBignum`** subtracts what is no larger. -/
theorem value_subtractBignum {a other : Bignum} (ha : a.Valid) (hother : other.Valid)
    (hle : other.value ≤ a.value) : (a.subtractBignum other).value = a.value - other.value := by
  have halign := valid_align ha other
  have hexp : (a.align other).exponent ≤ other.exponent := by
    rw [exponent_align]
    exact Nat.min_le_right _ _
  rw [← value_align a other] at hle ⊢
  have hlen := length_le_length_drop halign hother hexp hle
  rw [subtractBignum, value_clamp, subLoop_eq
    (fun x hx => halign.bigit_lt x (List.mem_of_mem_drop hx)) hother.bigit_lt hlen (Nat.zero_le 1),
    value_deduct 1 halign hexp (by rwa [Nat.one_mul]) (Nat.one_mul _).symm hlen,
    Nat.one_mul]

theorem subBorrow_lt {xs : List ℕ} (hxs : ∀ x ∈ xs, x < 2 ^ 28) (borrow : ℕ) :
    ∀ x ∈ subBorrow xs borrow, x < 2 ^ 28 := by
  induction xs generalizing borrow with
  | nil => exact fun x hx => absurd hx List.not_mem_nil
  | cons y xs ih =>
    intro x hx
    rw [subBorrow] at hx
    split at hx
    · exact hxs x hx
    · rcases List.mem_cons.mp hx with rfl | hx
      · exact Nat.mod_lt _ (by norm_num)
      · exact ih (fun z hz => hxs z (List.mem_cons_of_mem _ hz)) _ x hx

/-- Every difference is masked to a bigit. -/
theorem subLoop_lt {xs : List ℕ} (hxs : ∀ x ∈ xs, x < 2 ^ 28) (ys : List ℕ) (borrow : ℕ) :
    ∀ x ∈ subLoop xs ys borrow, x < 2 ^ 28 := by
  induction ys generalizing xs borrow with
  | nil => exact subBorrow_lt hxs borrow
  | cons y ys ih =>
    intro x hx
    rcases List.mem_cons.mp hx with rfl | hx
    · exact Nat.mod_lt _ (by norm_num)
    · exact ih (fun z hz => hxs z (List.mem_of_mem_tail hz)) _ x hx

/-- A difference is valid, as it is clamped. -/
theorem valid_subtractBignum {a : Bignum} (ha : a.Valid) (other : Bignum) :
    (a.subtractBignum other).Valid := by
  have halign := valid_align ha other
  refine valid_clamp fun x hx => ?_
  rcases List.mem_append.mp hx with hx | hx
  · exact halign.bigit_lt x (List.mem_of_mem_take hx)
  · exact subLoop_lt (fun z hz => halign.bigit_lt z (List.mem_of_mem_drop hz)) _ _ x hx

/-- A difference hides no more bigits than either number. -/
theorem exponent_subtractBignum_le (a other : Bignum) :
    (a.subtractBignum other).exponent ≤ min a.exponent other.exponent := by
  rw [← exponent_align]
  exact exponent_clamp_le _

/-! ## Shifting and multiplying -/

/-- Bigits multiplied by a factor make a number again. -/
theorem valid_settled_mul {a : Bignum} {factor exponent : ℕ} (ha : a.Valid)
    (hne : a.bigits ≠ []) (hfactor : factor ≠ 0) :
    Valid ⟨settled (2 ^ 28) 0 (a.bigits.map (factor * ·)), exponent⟩ := by
  refine @valid_settled [] _ _ _ (fun _ hx => absurd hx List.not_mem_nil)
    (by rwa [ne_eq, List.map_eq_nil_iff]) ?_
  rw [List.length_map, ← Nat.mul_ofDigits, Nat.add_zero]
  calc (2 ^ 28) ^ (a.bigits.length - 1) ≤ Nat.ofDigits (2 ^ 28) a.bigits :=
        pow_le_ofDigits hne ha.top_ne_zero
    _ ≤ factor * Nat.ofDigits (2 ^ 28) a.bigits :=
        Nat.le_mul_of_pos_left _ (Nat.pos_of_ne_zero hfactor)

/-- Bigits multiplied one by one and settled make the product. -/
theorem value_settled_mul (bigits : List ℕ) (factor exponent : ℕ) :
    value ⟨settled (2 ^ 28) 0 (bigits.map (factor * ·)), exponent⟩
      = factor * value ⟨bigits, exponent⟩ := by
  rw [value_mk, value_mk, ofDigits_settled, ← Nat.mul_ofDigits, Nat.add_zero, Nat.mul_assoc]

/-- One turn of `BigitsShiftLeft`. -/
theorem shiftLoop_step {s x carry : ℕ} (hs : s < 28) (hcarry : carry < 2 ^ s) :
    (x * 2 ^ s % 2 ^ 32 + carry) % 2 ^ 32 % 2 ^ 28 = (2 ^ s * x + carry) % 2 ^ 28
      ∧ x / 2 ^ (28 - s) = (2 ^ s * x + carry) / 2 ^ 28 := by
  constructor
  · rw [Nat.mod_add_mod, Nat.mod_mod_of_dvd _ (show 2 ^ 28 ∣ 2 ^ 32 by norm_num), Nat.mul_comm]
  · have hpow : 2 ^ 28 = 2 ^ s * 2 ^ (28 - s) := by
      rw [← pow_add]
      congr 1
      omega
    rw [hpow, ← Nat.div_div_eq_div_mul, Nat.mul_add_div (by positivity),
      Nat.div_eq_of_lt hcarry, Nat.add_zero]

/-- `BigitsShiftLeft` multiplies by a power of two. -/
theorem shiftLoop_eq {s : ℕ} (hs : s < 28) {xs : List ℕ} (hxs : ∀ x ∈ xs, x < 2 ^ 28)
    {carry : ℕ} (hcarry : carry < 2 ^ s) :
    shiftLoop s xs carry = settled (2 ^ 28) carry (xs.map (2 ^ s * ·)) := by
  induction xs generalizing carry with
  | nil =>
    have hsmall : carry < 2 ^ 28 :=
      hcarry.trans_le (Nat.pow_le_pow_right (by norm_num) hs.le)
    rw [shiftLoop, List.map_nil, settled, settle, List.nil_append]
    split
    · rename_i h0
      rw [h0, Nat.digits_zero]
    · rename_i h0
      rw [Nat.digits_of_lt _ _ h0 hsmall]
  | cons x xs ih =>
    obtain ⟨hdigit, hnext⟩ := shiftLoop_step (x := x) hs hcarry
    have hlt : x / 2 ^ (28 - s) < 2 ^ s := by
      rw [Nat.div_lt_iff_lt_mul (by positivity), ← pow_add, show s + (28 - s) = 28 by omega]
      exact hxs x List.mem_cons_self
    rw [shiftLoop, List.map_cons, settled_cons, hdigit, ← hnext,
      ih (fun y hy => hxs y (List.mem_cons_of_mem _ hy)) hlt]

/-- **`ShiftLeft`** multiplies by a power of two. -/
theorem value_shiftLeft {a : Bignum} (ha : a.Valid) (s : ℕ) :
    (a.shiftLeft s).value = a.value * 2 ^ s := by
  rw [shiftLeft]
  split
  · rename_i hnil
    rw [value, hnil, Nat.ofDigits_nil, Nat.zero_mul, Nat.zero_mul]
  · have hpow : 2 ^ s = 2 ^ (s % 28) * (2 ^ 28) ^ (s / 28) := by
      rw [← pow_mul, ← pow_add, Nat.mod_add_div]
    rw [shiftLoop_eq (Nat.mod_lt _ (by norm_num)) ha.bigit_lt (by positivity), value_settled_mul,
      value_mk, value, pow_add, hpow]
    ring

/-- A shifted number is valid. -/
theorem valid_shiftLeft {a : Bignum} (ha : a.Valid) (s : ℕ) : (a.shiftLeft s).Valid := by
  rw [shiftLeft]
  split
  · exact ha
  · rename_i hne
    rw [shiftLoop_eq (Nat.mod_lt _ (by norm_num)) ha.bigit_lt (by positivity)]
    exact valid_settled_mul ha hne (by positivity)

/-- The loop multiplies and carries. -/
theorem mul32Loop_eq (factor : ℕ) (xs : List ℕ) (carry : ℕ) :
    mul32Loop factor xs carry = settled (2 ^ 28) carry (xs.map (factor * ·)) := by
  induction xs generalizing carry with
  | nil => exact appendCarry_eq carry
  | cons x xs ih => rw [mul32Loop, List.map_cons, settled_cons, ih]

/-- **`MultiplyByUInt32`** multiplies. -/
theorem value_multiplyByUInt32 (a : Bignum) (factor : ℕ) :
    (a.multiplyByUInt32 factor).value = a.value * factor := by
  rw [multiplyByUInt32]
  split
  · rename_i h1
    rw [h1, Nat.mul_one]
  split
  · rename_i h0
    rw [value_zero, h0, Nat.mul_zero]
  split
  · rename_i hnil
    rw [value, hnil, Nat.ofDigits_nil, Nat.zero_mul, Nat.zero_mul]
  · rw [mul32Loop_eq, value_settled_mul, Nat.mul_comm]

/-- A product is valid. -/
theorem valid_multiplyByUInt32 {a : Bignum} (ha : a.Valid) (factor : ℕ) :
    (a.multiplyByUInt32 factor).Valid := by
  rw [multiplyByUInt32]
  split
  · exact ha
  split
  · exact valid_zero
  split
  · exact ha
  · rename_i hfactor hne
    rw [mul32Loop_eq]
    exact valid_settled_mul ha hne hfactor

theorem value_times10 (a : Bignum) : a.times10.value = a.value * 10 :=
  value_multiplyByUInt32 a 10

theorem valid_times10 {a : Bignum} (ha : a.Valid) : a.times10.Valid :=
  valid_multiplyByUInt32 ha 10

/-- One turn of `MultiplyByUInt64`: the halves of the factor, the carry's and the product's parts
add up to what one product would give, in sixty-four bits. -/
theorem mul64Loop_step {low high x carry : ℕ} (hlow : low < 2 ^ 32) (hhigh : high < 2 ^ 32)
    (hx : x < 2 ^ 28) (hcarry : carry < 2 ^ 64) :
    (carry % 2 ^ 28 + low * x) % 2 ^ 28 = ((low + 2 ^ 32 * high) * x + carry) % 2 ^ 28
      ∧ (carry / 2 ^ 28 + (carry % 2 ^ 28 + low * x) / 2 ^ 28 + high * x * 2 ^ (32 - 28)) % 2 ^ 64
        = ((low + 2 ^ 32 * high) * x + carry) / 2 ^ 28 := by
  have hproduct : (low + 2 ^ 32 * high) * x = low * x + 2 ^ 28 * (16 * (high * x)) := by ring
  have hlowx : low * x ≤ (2 ^ 32 - 1) * (2 ^ 28 - 1) :=
    Nat.mul_le_mul (Nat.le_sub_one_of_lt hlow) (Nat.le_sub_one_of_lt hx)
  have hhighx : high * x ≤ (2 ^ 32 - 1) * (2 ^ 28 - 1) :=
    Nat.mul_le_mul (Nat.le_sub_one_of_lt hhigh) (Nat.le_sub_one_of_lt hx)
  rw [hproduct]
  generalize low * x = lowx at hlowx
  generalize high * x = highx at hhighx
  constructor
  · omega
  · rw [Nat.mod_eq_of_lt]
    · omega
    · omega

/-- The loop multiplies by both halves and carries. -/
theorem mul64Loop_eq {low high : ℕ} (hlow : low < 2 ^ 32) (hhigh : high < 2 ^ 32) {xs : List ℕ}
    (hxs : ∀ x ∈ xs, x < 2 ^ 28) {carry : ℕ} (hcarry : carry < 2 ^ 64) :
    mul64Loop low high xs carry
      = settled (2 ^ 28) carry (xs.map ((low + 2 ^ 32 * high) * ·)) := by
  induction xs generalizing carry with
  | nil => exact appendCarry_eq carry
  | cons x xs ih =>
    obtain ⟨hdigit, hnext⟩ := mul64Loop_step hlow hhigh (hxs x List.mem_cons_self) hcarry
    rw [mul64Loop, List.map_cons, settled_cons]
    rw [ih (fun y hy => hxs y (List.mem_cons_of_mem _ hy)) (Nat.mod_lt _ (by norm_num)), hdigit,
      hnext]

/-- **`MultiplyByUInt64`** multiplies by sixty-four bits. -/
theorem value_multiplyByUInt64 {a : Bignum} (ha : a.Valid) {factor : ℕ} (hf : factor < 2 ^ 64) :
    (a.multiplyByUInt64 factor).value = a.value * factor := by
  rw [multiplyByUInt64]
  split
  · rename_i h1
    rw [h1, Nat.mul_one]
  split
  · rename_i h0
    rw [value_zero, h0, Nat.mul_zero]
  · rw [mul64Loop_eq (Nat.mod_lt _ (by norm_num)) (by omega) ha.bigit_lt (by norm_num),
      value_settled_mul, Nat.mod_add_div, Nat.mul_comm]

theorem valid_multiplyByUInt64 {a : Bignum} (ha : a.Valid) {factor : ℕ} (hf : factor < 2 ^ 64) :
    (a.multiplyByUInt64 factor).Valid := by
  rw [multiplyByUInt64]
  split
  · exact ha
  split
  · exact valid_zero
  · rename_i hfactor
    rw [mul64Loop_eq (Nat.mod_lt _ (by norm_num)) (by omega) ha.bigit_lt (by norm_num),
      Nat.mod_add_div]
    by_cases hne : a.bigits = []
    · rw [hne, List.map_nil]
      exact ⟨fun _ hx => absurd hx (by simp [settled, settle]), by simp [settled, settle],
        fun _ => ha.exponent_eq_zero hne⟩
    · exact valid_settled_mul ha hne hfactor

/-! ## Comparing -/

/-- The parts of a number above and at a bigit. -/
theorem div_pow_succ (n i : ℕ) :
    n / (2 ^ 28) ^ i = n / (2 ^ 28) ^ (i + 1) * 2 ^ 28 + n / (2 ^ 28) ^ i % 2 ^ 28 := by
  rw [pow_succ (2 ^ 28), ← Nat.div_div_eq_div_mul, Nat.mul_comm, Nat.div_add_mod]

theorem dvd_value {a : Bignum} {low : ℕ} (h : low ≤ a.exponent) : (2 ^ 28) ^ low ∣ a.value :=
  (pow_dvd_pow _ h).trans (Nat.dvd_mul_left _ _)

/-- Nothing of a number is above its length. -/
theorem value_div_bigitLength {a : Bignum} (ha : a.Valid) {n : ℕ} (h : a.bigitLength ≤ n) :
    a.value / (2 ^ 28) ^ n = 0 :=
  Nat.div_eq_of_lt (ha.value_lt.trans_le (Nat.pow_le_pow_right (by norm_num) h))

theorem lt_of_div_lt_div {m n d : ℕ} (h : m / d < n / d) : m < n := by
  by_contra hle
  have := Nat.div_le_div_right (c := d) (Nat.le_of_not_lt hle)
  omega

theorem sign_neg_one {m n : ℕ} (h : m < n) : (-1 : ℤ) = Int.sign (m - n) := by
  rw [Int.sign_eq_neg_one_of_neg]
  omega

theorem sign_one {m n : ℕ} (h : n < m) : (1 : ℤ) = Int.sign (m - n) := by
  rw [Int.sign_eq_one_of_pos]
  omega

/-- From a bigit on above which the two agree, the first that differs decides. -/
theorem compareLoop_eq {a b : Bignum} (ha : a.Valid) (hb : b.Valid) {low : ℕ}
    (hlowa : low ≤ a.exponent) (hlowb : low ≤ b.exponent) (count : ℕ)
    (hsame : a.value / (2 ^ 28) ^ (low + count) = b.value / (2 ^ 28) ^ (low + count)) :
    compareLoop a b low count = Int.sign ((a.value : ℤ) - b.value) := by
  induction count with
  | zero =>
    have heq : a.value = b.value := by
      rw [← Nat.div_mul_cancel (dvd_value hlowa), ← Nat.div_mul_cancel (dvd_value hlowb),
        show low = low + 0 from rfl, hsame]
    rw [compareLoop, heq, sub_self, Int.sign_zero]
  | succ count ih =>
    have hadiv := div_pow_succ a.value (low + count)
    have hbdiv := div_pow_succ b.value (low + count)
    rw [Nat.add_assoc, hsame, ← bigitAt_eq ha] at hadiv
    rw [Nat.add_assoc, ← bigitAt_eq hb] at hbdiv
    rw [compareLoop]
    split
    · rename_i hlt
      exact sign_neg_one (lt_of_div_lt_div (hadiv ▸ hbdiv ▸ Nat.add_lt_add_left hlt _))
    split
    · rename_i hgt
      exact sign_one (lt_of_div_lt_div (hadiv ▸ hbdiv ▸ Nat.add_lt_add_left hgt _))
    · rename_i hlt hgt
      refine ih ?_
      rw [hadiv, hbdiv, Nat.le_antisymm (Nat.le_of_not_lt hgt) (Nat.le_of_not_lt hlt)]

/-- `Compare` orders the numbers. -/
theorem compare_eq_sign {a b : Bignum} (ha : a.Valid) (hb : b.Valid) :
    a.compare b = Int.sign ((a.value : ℤ) - b.value) := by
  rw [compare]
  split
  · rename_i hlt
    exact sign_neg_one (ha.value_lt_of_bigitLength_lt hb hlt)
  split
  · rename_i hgt
    exact sign_one (hb.value_lt_of_bigitLength_lt ha hgt)
  · rename_i hlt hgt
    have hlen : a.bigitLength = b.bigitLength := by omega
    have hlow : min a.exponent b.exponent + (a.bigitLength - min a.exponent b.exponent)
        = a.bigitLength := by
      have : a.exponent ≤ a.bigitLength := Nat.le_add_left _ _
      omega
    refine compareLoop_eq ha hb (Nat.min_le_left _ _) (Nat.min_le_right _ _) _ ?_
    rw [hlow, value_div_bigitLength ha le_rfl, value_div_bigitLength hb hlen.ge]

/-- `LessEqual`. -/
theorem compare_le_zero_iff {a b : Bignum} (ha : a.Valid) (hb : b.Valid) :
    a.compare b ≤ 0 ↔ a.value ≤ b.value := by
  rw [compare_eq_sign ha hb, Int.sign_nonpos_iff]
  omega

/-- What a quotient says about its dividend. -/
theorem lt_div_succ_mul (n : ℕ) {d : ℕ} (hd : 0 < d) : n < (n / d + 1) * d :=
  Nat.lt_mul_of_div_lt (Nat.lt_succ_self _) hd

/-- The borrow is how much the third number is ahead of the sum, in the bigits seen so far. -/
theorem plusCompareLoop_eq {a b c : Bignum} (ha : a.Valid) (hb : b.Valid) (hc : c.Valid)
    {low : ℕ} (hlowa : low ≤ a.exponent) (hlowb : low ≤ b.exponent) (hlowc : low ≤ c.exponent)
    (count ahead : ℕ) (hahead : ahead ≤ 1)
    (hseen : c.value / (2 ^ 28) ^ (low + count)
      = a.value / (2 ^ 28) ^ (low + count) + b.value / (2 ^ 28) ^ (low + count) + ahead) :
    plusCompareLoop a b c low count (ahead * 2 ^ 28)
      = Int.sign (((a.value + b.value : ℕ) : ℤ) - c.value) := by
  induction count generalizing ahead with
  | zero =>
    have ha' := Nat.div_mul_cancel (dvd_value hlowa)
    have hb' := Nat.div_mul_cancel (dvd_value hlowb)
    have hc' := Nat.div_mul_cancel (dvd_value hlowc)
    rw [Nat.add_zero] at hseen
    have hsum : c.value = a.value + b.value + ahead * (2 ^ 28) ^ low := by
      rw [← hc', hseen, Nat.add_mul, Nat.add_mul, ha', hb']
    rw [plusCompareLoop]
    split
    · rename_i h0
      have : ahead = 0 := by omega
      rw [hsum, this, Nat.zero_mul, Nat.add_zero, sub_self, Int.sign_zero]
    · rename_i h0
      have hone : ahead = 1 := by omega
      have : 0 < (2 ^ 28) ^ low := by positivity
      exact sign_neg_one (by rw [hsum, hone]; omega)
  | succ count ih =>
    have hpos : 0 < (2 ^ 28) ^ (low + count) := by positivity
    have hadiv := div_pow_succ a.value (low + count)
    have hbdiv := div_pow_succ b.value (low + count)
    have hcdiv := div_pow_succ c.value (low + count)
    rw [Nat.add_assoc, ← bigitAt_eq ha] at hadiv
    rw [Nat.add_assoc, ← bigitAt_eq hb] at hbdiv
    rw [Nat.add_assoc, hseen, ← bigitAt_eq hc] at hcdiv
    have hlta := lt_div_succ_mul a.value hpos
    have hltb := lt_div_succ_mul b.value hpos
    have hltc := lt_div_succ_mul c.value hpos
    have hlea := Nat.div_mul_le_self a.value ((2 ^ 28) ^ (low + count))
    have hleb := Nat.div_mul_le_self b.value ((2 ^ 28) ^ (low + count))
    have hlec := Nat.div_mul_le_self c.value ((2 ^ 28) ^ (low + count))
    rw [plusCompareLoop]
    split
    · -- the sum has come ahead by at least one
      rename_i hgt
      have hquot : c.value / (2 ^ 28) ^ (low + count) + 1
          ≤ a.value / (2 ^ 28) ^ (low + count) + b.value / (2 ^ 28) ^ (low + count) := by
        omega
      have := Nat.mul_le_mul_right ((2 ^ 28) ^ (low + count)) hquot
      rw [Nat.add_mul (a.value / _)] at this
      exact sign_one (by omega)
    split
    · -- two ahead cannot be made up for below
      rename_i hgt hfar
      have hquot : a.value / (2 ^ 28) ^ (low + count) + 1
          + (b.value / (2 ^ 28) ^ (low + count) + 1) ≤ c.value / (2 ^ 28) ^ (low + count) := by
        omega
      have := Nat.mul_le_mul_right ((2 ^ 28) ^ (low + count)) hquot
      rw [Nat.add_mul] at this
      exact sign_neg_one (by omega)
    · rename_i hgt hfar
      refine ih _ (Nat.le_of_not_lt hfar) ?_
      omega

/-- `PlusCompare`, the longer summand first. -/
theorem plusCompareFrom_eq {a b c : Bignum} (ha : a.Valid) (hb : b.Valid) (hc : c.Valid)
    (hlen : b.bigitLength ≤ a.bigitLength) :
    plusCompareFrom a b c = Int.sign (((a.value + b.value : ℕ) : ℤ) - c.value) := by
  have hltb : b.value < (2 ^ 28) ^ a.bigitLength :=
    hb.value_lt.trans_le (Nat.pow_le_pow_right (by norm_num) hlen)
  rw [plusCompareFrom]
  split
  · rename_i hlong
    have hc' := hc.le_value (hc.bigits_ne_nil_of_bigitLength (by omega))
    have hpow : (2 ^ 28) ^ (a.bigitLength + 1) ≤ (2 ^ 28) ^ (c.bigitLength - 1) :=
      Nat.pow_le_pow_right (by norm_num) (by omega)
    have hlta := ha.value_lt
    rw [pow_succ (2 ^ 28)] at hpow
    exact sign_neg_one (by omega)
  split
  · rename_i hshort
    have := hc.value_lt_of_bigitLength_lt ha hshort
    exact sign_one (by omega)
  split
  · -- the sum is as long as `a` is: `b` fits under its hidden bigits
    rename_i hfits
    have hlta : a.value + (2 ^ 28) ^ a.exponent ≤ (2 ^ 28) ^ a.bigitLength := by
      have h := Nat.ofDigits_lt_base_pow_length one_lt_radix ha.bigit_lt
      rw [value, bigitLength, pow_add, ← Nat.succ_mul]
      exact Nat.mul_le_mul_right _ h
    have hltb' : b.value < (2 ^ 28) ^ a.exponent :=
      hb.value_lt.trans_le (Nat.pow_le_pow_right (by norm_num) hfits.1)
    have hc' := hc.le_value (hc.bigits_ne_nil_of_bigitLength (by omega))
    have hpow : (2 ^ 28) ^ a.bigitLength ≤ (2 ^ 28) ^ (c.bigitLength - 1) :=
      Nat.pow_le_pow_right (by norm_num) (by omega)
    exact sign_neg_one (by omega)
  · rename_i hlong hshort hfits
    have hlow : min (min a.exponent b.exponent) c.exponent
        + (c.bigitLength - min (min a.exponent b.exponent) c.exponent) = c.bigitLength := by
      have : c.exponent ≤ c.bigitLength := Nat.le_add_left _ _
      omega
    refine plusCompareLoop_eq ha hb hc (by omega) (by omega) (by omega) _ 0 (Nat.zero_le 1) ?_
    rw [hlow, value_div_bigitLength hc le_rfl, value_div_bigitLength ha (by omega),
      value_div_bigitLength hb (by omega)]

/-- `PlusCompare` orders a sum and a number, without the sum being made. -/
theorem plusCompare_eq_sign {a b c : Bignum} (ha : a.Valid) (hb : b.Valid) (hc : c.Valid) :
    plusCompare a b c = Int.sign (((a.value + b.value : ℕ) : ℤ) - c.value) := by
  rw [plusCompare]
  split
  · rename_i hlt
    rw [plusCompareFrom_eq hb ha hc hlt.le, Nat.add_comm]
  · rename_i hlt
    exact plusCompareFrom_eq ha hb hc (Nat.le_of_not_lt hlt)

end Bignum
end S4LibLite
