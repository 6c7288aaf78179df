import Mathlib.Data.Nat.Digits.Lemmas
import Mathlib.Algebra.Polynomial.Eval.Degree
import Mathlib.Algebra.Polynomial.BigOperators
import Mathlib.Data.List.GetD

/-!
# Columns, carries and borrows

Arithmetic on digit lists, lowest digit first, works column by column: each column is brought
below the base, and what does not fit goes on to the next. Addition, multiplication by a small
number, shifts and products of columns differ in what stands in a column only.

* `settle b c ts`, the columns `ts` as digits; `ofDigits_settle`, they denote the same number;
* `deduct b c xs rs`, the digits `xs` less the columns `rs`; `ofDigits_deduct`;
* `addColumns`, two numbers' columns, and `ofDigits_addColumns`;
* `ofDigits_eq_sum` and `sum_convolution`, the columns of a product;
* `pow_le_ofDigits`, what a top digit is worth.
-/

namespace S4LibLite
namespace Carry

variable {b : ℕ}

/-! ## Carries -/

/-- The columns `ts` as digits, when `c` is carried in; the second part is carried out. -/
def settle (b : ℕ) : ℕ → List ℕ → List ℕ × ℕ
  | c, [] => ([], c)
  | c, t :: ts =>
    let rest := settle b ((t + c) / b) ts
    ((t + c) % b :: rest.1, rest.2)

/-- Bringing columns below the base does not change the number. -/
theorem ofDigits_settle (b c : ℕ) (ts : List ℕ) :
    Nat.ofDigits b (settle b c ts).1 + b ^ ts.length * (settle b c ts).2
      = Nat.ofDigits b ts + c := by
  induction ts generalizing c with
  | nil => simp [settle]
  | cons t ts ih =>
    have hstep := ih ((t + c) / b)
    have hdiv := Nat.mod_add_div (t + c) b
    rw [settle, Nat.ofDigits_cons, Nat.ofDigits_cons, List.length_cons, pow_succ]
    calc (t + c) % b + b * Nat.ofDigits b (settle b ((t + c) / b) ts).1
          + b ^ ts.length * b * (settle b ((t + c) / b) ts).2
        = (t + c) % b + b * (Nat.ofDigits b (settle b ((t + c) / b) ts).1
            + b ^ ts.length * (settle b ((t + c) / b) ts).2) := by ring
      _ = (t + c) % b + b * ((t + c) / b) + b * Nat.ofDigits b ts := by rw [hstep]; ring
      _ = t + b * Nat.ofDigits b ts + c := by rw [hdiv]; ring

theorem length_settle (b c : ℕ) (ts : List ℕ) : (settle b c ts).1.length = ts.length := by
  induction ts generalizing c with
  | nil => rfl
  | cons t ts ih => rw [settle, List.length_cons, ih, List.length_cons]

/-- Settled columns are digits. -/
theorem settle_lt (hb : 0 < b) (c : ℕ) (ts : List ℕ) : ∀ d ∈ (settle b c ts).1, d < b := by
  induction ts generalizing c with
  | nil => exact fun d hd => absurd hd List.not_mem_nil
  | cons t ts ih =>
    intro d hd
    rw [settle, List.mem_cons] at hd
    rcases hd with rfl | hd
    · exact Nat.mod_lt _ hb
    · exact ih _ d hd

/-- Columns that are digits already stay as they are. -/
theorem settle_zero {xs : List ℕ} (h : ∀ x ∈ xs, x < b) : settle b 0 xs = (xs, 0) := by
  induction xs with
  | nil => rfl
  | cons x xs ih =>
    have hx := h x List.mem_cons_self
    rw [settle, Nat.add_zero, Nat.div_eq_of_lt hx, Nat.mod_eq_of_lt hx,
      ih fun y hy => h y (List.mem_cons_of_mem _ hy)]

/-- The columns `ts` as digits, with the digits of what is carried out behind them. -/
def settled (b c : ℕ) (ts : List ℕ) : List ℕ :=
  (settle b c ts).1 ++ Nat.digits b (settle b c ts).2

theorem settled_cons (b c t : ℕ) (ts : List ℕ) :
    settled b c (t :: ts) = (t + c) % b :: settled b ((t + c) / b) ts := rfl

/-- With its carry written out, a number is worth the same. -/
theorem ofDigits_settled (b c : ℕ) (ts : List ℕ) :
    Nat.ofDigits b (settled b c ts) = Nat.ofDigits b ts + c := by
  rw [settled, Nat.ofDigits_append, Nat.ofDigits_digits, length_settle, ofDigits_settle]

/-- What is carried out is written in digits too. -/
theorem settled_lt (hb : 1 < b) (c : ℕ) (ts : List ℕ) : ∀ d ∈ settled b c ts, d < b := by
  intro d hd
  rcases List.mem_append.mp hd with hd | hd
  · exact settle_lt (Nat.zero_lt_of_lt hb) c ts d hd
  · exact Nat.digits_lt_base hb hd

/-- Digits are settled already. -/
theorem settled_zero {xs : List ℕ} (h : ∀ x ∈ xs, x < b) : settled b 0 xs = xs := by
  rw [settled, settle_zero h, Nat.digits_zero, List.append_nil]

/-! ## The digit at the top -/

/-- What digits are worth of which the last is not zero. -/
theorem pow_le_ofDigits {ds : List ℕ} (hne : ds ≠ []) (h : ds.getLast? ≠ some 0) :
    b ^ (ds.length - 1) ≤ Nat.ofDigits b ds := by
  obtain ⟨init, top, rfl⟩ : ∃ init top, ds = init ++ [top] :=
    ⟨ds.dropLast, ds.getLast hne, (List.dropLast_append_getLast hne).symm⟩
  have htop : 1 ≤ top := by
    rw [List.getLast?_concat] at h
    exact Nat.one_le_iff_ne_zero.mpr fun h0 => h (by rw [h0])
  rw [Nat.ofDigits_append, Nat.ofDigits_singleton, List.length_append, List.length_singleton,
    Nat.add_sub_cancel]
  calc b ^ init.length = b ^ init.length * 1 := (Nat.mul_one _).symm
    _ ≤ b ^ init.length * top := Nat.mul_le_mul_left _ htop
    _ ≤ Nat.ofDigits b init + b ^ init.length * top := Nat.le_add_left _ _

/-- Digits that are worth enough do not end in zero. -/
theorem getLast?_ne_zero_of_le (hb : 1 < b) {ds : List ℕ} (hds : ∀ d ∈ ds, d < b)
    (h : b ^ (ds.length - 1) ≤ Nat.ofDigits b ds) : ds.getLast? ≠ some 0 := by
  intro hlast
  obtain ⟨init, rfl⟩ := List.getLast?_eq_some_iff.mp hlast
  have hlt := Nat.ofDigits_lt_base_pow_length hb fun d hd => hds d (List.mem_append_left _ hd)
  rw [Nat.ofDigits_append_zero, List.length_append, List.length_singleton,
    Nat.add_sub_cancel] at h
  omega

/-- A number of at least so many digits has no zero on top. -/
theorem getLast?_settled_ne_zero (hb : 1 < b) {c : ℕ} {ts : List ℕ}
    (h : b ^ (ts.length - 1) ≤ Nat.ofDigits b ts + c) : (settled b c ts).getLast? ≠ some 0 := by
  by_cases hout : (settle b c ts).2 = 0
  · have hdigits : settled b c ts = (settle b c ts).1 := by
      rw [settled, hout, Nat.digits_zero, List.append_nil]
    apply getLast?_ne_zero_of_le hb (settled_lt hb c ts)
    rw [ofDigits_settled, hdigits, length_settle]
    exact h
  · have hne : Nat.digits b (settle b c ts).2 ≠ [] := Nat.digits_ne_nil_iff_ne_zero.mpr hout
    rw [settled, List.getLast?_append_of_ne_nil _ hne, List.getLast?_eq_some_getLast hne]
    exact fun h0 => Nat.getLast_digit_ne_zero b hout (Option.some.inj h0)

/-! ## Borrows -/

/-- The digits `xs` less the columns `rs` and less `c`; the second part is borrowed from behind
the last digit. -/
def deduct (b : ℕ) : ℕ → List ℕ → List ℕ → List ℕ × ℕ
  | c, [], _ => ([], c)
  | c, x :: xs, rs =>
    let remove := rs.headD 0 + c
    let digit := (x + (b - remove % b)) % b
    let rest := deduct b ((remove + digit - x) / b) xs rs.tail
    (digit :: rest.1, rest.2)

/-- What one column takes away and leaves. -/
theorem deduct_step {x : ℕ} (remove : ℕ) (hx : x < b) :
    (x + (b - remove % b)) % b + remove
      = x + b * ((remove + (x + (b - remove % b)) % b - x) / b) := by
  have hb : 0 < b := Nat.zero_lt_of_lt hx
  have hr := Nat.mod_lt remove hb
  have hd := Nat.mod_lt (x + (b - remove % b)) hb
  have hdiv : b ∣ remove + (x + (b - remove % b)) % b - x := by
    rw [← Nat.modEq_iff_dvd' _]
    · calc x ≡ x + b [MOD b] := by simp [Nat.ModEq]
        _ = x + (b - remove % b) + remove % b := by omega
        _ ≡ (x + (b - remove % b)) % b + remove [MOD b] :=
            ((Nat.mod_modEq _ _).symm).add (Nat.mod_modEq _ _)
        _ = remove + (x + (b - remove % b)) % b := Nat.add_comm _ _
    · rcases Nat.lt_or_ge (x + (b - remove % b)) b with hlt | hge
      · rw [Nat.mod_eq_of_lt hlt]
        omega
      · have := Nat.mod_le remove b
        rw [Nat.mod_eq_sub_mod hge, Nat.mod_eq_of_lt (by omega)]
        omega
  have hle : x ≤ remove + (x + (b - remove % b)) % b := by
    rcases Nat.lt_or_ge (x + (b - remove % b)) b with hlt | hge
    · rw [Nat.mod_eq_of_lt hlt]
      omega
    · have := Nat.mod_le remove b
      rw [Nat.mod_eq_sub_mod hge, Nat.mod_eq_of_lt (by omega)]
      omega
  rw [Nat.mul_div_cancel' hdiv]
  omega

/-- The lowest digit and the others. -/
theorem ofDigits_tail (b : ℕ) (rs : List ℕ) :
    rs.headD 0 + b * Nat.ofDigits b rs.tail = Nat.ofDigits b rs := by
  cases rs with
  | nil => simp
  | cons r rs => exact Nat.ofDigits_cons.symm

/-- Taking columns away takes their number away, as long as the digits last. -/
theorem ofDigits_deduct {c : ℕ} {xs rs : List ℕ} (hxs : ∀ x ∈ xs, x < b)
    (hlen : rs.length ≤ xs.length) :
    Nat.ofDigits b (deduct b c xs rs).1 + Nat.ofDigits b rs + c
      = Nat.ofDigits b xs + b ^ xs.length * (deduct b c xs rs).2 := by
  induction xs generalizing c rs with
  | nil => simp [deduct, List.length_eq_zero_iff.mp (Nat.le_zero.mp hlen)]
  | cons x xs ih =>
    have hrest : rs.tail.length ≤ xs.length := by
      rw [List.length_tail]
      exact Nat.sub_le_of_le_add hlen
    have hx := hxs x List.mem_cons_self
    have htail := ofDigits_tail b rs
    have hstep := deduct_step (rs.headD 0 + c) hx
    rw [deduct, Nat.ofDigits_cons, Nat.ofDigits_cons, List.length_cons, pow_succ]
    generalize (x + (b - (rs.headD 0 + c) % b)) % b = digit at hstep
    have hloop := ih (c := (rs.headD 0 + c + digit - x) / b)
      (fun y hy => hxs y (List.mem_cons_of_mem _ hy)) hrest
    generalize (rs.headD 0 + c + digit - x) / b = borrow at hstep hloop
    calc digit + b * Nat.ofDigits b (deduct b borrow xs rs.tail).1 + Nat.ofDigits b rs + c
        = b * (Nat.ofDigits b (deduct b borrow xs rs.tail).1 + Nat.ofDigits b rs.tail)
            + (digit + (rs.headD 0 + c)) := by rw [← htail]; ring
      _ = b * (Nat.ofDigits b (deduct b borrow xs rs.tail).1 + Nat.ofDigits b rs.tail
            + borrow) + x := by rw [hstep]; ring
      _ = x + b * Nat.ofDigits b xs + b ^ xs.length * b * (deduct b borrow xs rs.tail).2 := by
          rw [hloop]; ring

/-- Nothing is dropped where something is taken away. -/
theorem length_deduct (c : ℕ) (xs rs : List ℕ) : (deduct b c xs rs).1.length = xs.length := by
  induction xs generalizing c rs with
  | nil => rfl
  | cons x xs ih => rw [deduct, List.length_cons, ih, List.length_cons]

/-- What is left are digits. -/
theorem deduct_lt (hb : 0 < b) (c : ℕ) (xs rs : List ℕ) : ∀ d ∈ (deduct b c xs rs).1, d < b := by
  induction xs generalizing c rs with
  | nil => exact fun d hd => absurd hd List.not_mem_nil
  | cons x xs ih =>
    intro d hd
    rw [deduct, List.mem_cons] at hd
    rcases hd with rfl | hd
    · exact Nat.mod_lt _ hb
    · exact ih _ _ d hd

/-- Where enough is there, nothing is borrowed in the end, and the difference is exact. -/
theorem ofDigits_deduct_of_le {xs rs : List ℕ} (hb : 1 < b) (hxs : ∀ x ∈ xs, x < b)
    (hlen : rs.length ≤ xs.length) (hle : Nat.ofDigits b rs ≤ Nat.ofDigits b xs) :
    Nat.ofDigits b (deduct b 0 xs rs).1 = Nat.ofDigits b xs - Nat.ofDigits b rs := by
  have hval := ofDigits_deduct (c := 0) hxs hlen
  have hlt := Nat.ofDigits_lt_base_pow_length hb (deduct_lt (Nat.zero_lt_of_lt hb) 0 xs rs)
  rw [length_deduct] at hlt
  have hborrow : (deduct b 0 xs rs).2 = 0 := by
    by_contra hne
    have : b ^ xs.length * 1 ≤ b ^ xs.length * (deduct b 0 xs rs).2 :=
      Nat.mul_le_mul_left _ (Nat.one_le_iff_ne_zero.mpr hne)
    omega
  rw [hborrow] at hval
  omega

/-- Where nothing is taken away, nothing changes. -/
theorem deduct_nil {xs : List ℕ} (hxs : ∀ x ∈ xs, x < b) : deduct b 0 xs [] = (xs, 0) := by
  induction xs with
  | nil => rfl
  | cons x xs ih =>
    have hx := hxs x List.mem_cons_self
    have hdigit : (x + (b - 0 % b)) % b = x := by
      rw [Nat.zero_mod, Nat.sub_zero, Nat.add_mod_right, Nat.mod_eq_of_lt hx]
    simp only [deduct, List.headD_nil, List.tail_nil, Nat.add_zero, hdigit, Nat.zero_add,
      Nat.sub_self, Nat.zero_div, ih fun y hy => hxs y (List.mem_cons_of_mem _ hy)]

/-! ## Two numbers' columns -/

/-- The columns of a sum; the shorter list ends in zeros. -/
def addColumns : List ℕ → List ℕ → List ℕ
  | xs, [] => xs
  | xs, y :: ys => (xs.headD 0 + y) :: addColumns xs.tail ys

/-- Columns side by side are the sum. -/
theorem ofDigits_addColumns (b : ℕ) (xs ys : List ℕ) :
    Nat.ofDigits b (addColumns xs ys) = Nat.ofDigits b xs + Nat.ofDigits b ys := by
  induction ys generalizing xs with
  | nil => simp [addColumns]
  | cons y ys ih =>
    have htail := ofDigits_tail b xs
    rw [addColumns, Nat.ofDigits_cons, ih, Nat.ofDigits_cons, ← htail]
    ring

theorem length_addColumns (xs ys : List ℕ) :
    (addColumns xs ys).length = max xs.length ys.length := by
  induction ys generalizing xs with
  | nil => simp [addColumns]
  | cons y ys ih =>
    rw [addColumns, List.length_cons, ih, List.length_tail, List.length_cons]
    omega

/-! ## A product's columns -/

/-- A number as the sum over its places. -/
theorem ofDigits_eq_sum (b : ℕ) (ds : List ℕ) {n : ℕ} (h : ds.length ≤ n) :
    Nat.ofDigits b ds = ∑ i ∈ Finset.range n, ds.getD i 0 * b ^ i := by
  induction ds generalizing n with
  | nil => simp
  | cons d ds ih =>
    obtain ⟨m, rfl⟩ : ∃ m, n = m + 1 := ⟨n - 1, by rw [List.length_cons] at h; omega⟩
    rw [Nat.ofDigits_cons, Finset.sum_range_succ', ih (Nat.le_of_succ_le_succ h), Finset.mul_sum,
      Nat.add_comm]
    congr 1
    · refine Finset.sum_congr rfl fun i _ => ?_
      rw [List.getD_cons_succ, pow_succ]
      ring
    · simp

theorem ofDigits_map_range (b n : ℕ) (f : ℕ → ℕ) :
    Nat.ofDigits b ((List.range n).map f) = ∑ i ∈ Finset.range n, f i * b ^ i := by
  rw [ofDigits_eq_sum b _ (n := n) (by rw [List.length_map, List.length_range])]
  refine Finset.sum_congr rfl fun i hi => ?_
  rw [List.getD_eq_getElem _ _ (by simpa using hi), List.getElem_map, List.getElem_range]

/-- The columns of a product: the products of the digits whose places add up to the column's. -/
theorem sum_convolution (b n : ℕ) (f g : ℕ → ℕ) (hf : ∀ i, n ≤ i → f i = 0)
    (hg : ∀ i, n ≤ i → g i = 0) :
    ∑ i ∈ Finset.range (2 * n), (∑ j ∈ Finset.range (i + 1), f j * g (i - j)) * b ^ i
      = (∑ i ∈ Finset.range n, f i * b ^ i) * ∑ i ∈ Finset.range n, g i * b ^ i := by
  rcases Nat.eq_zero_or_pos n with rfl | hn
  · simp
  have hcoeff : ∀ h : ℕ → ℕ, (∀ i, n ≤ i → h i = 0) → ∀ i,
      (∑ k ∈ Finset.range n, Polynomial.C (h k) * Polynomial.X ^ k).coeff i = h i := by
    intro h hh i
    rw [Polynomial.finsetSum_coeff]
    simp only [Polynomial.coeff_C_mul_X_pow]
    rw [Finset.sum_ite_eq]
    split
    · rfl
    · rename_i hi
      exact (hh i (Nat.le_of_not_lt fun hlt => hi (Finset.mem_range.mpr hlt))).symm
  have hdegree : ∀ h : ℕ → ℕ,
      (∑ k ∈ Finset.range n, Polynomial.C (h k) * Polynomial.X ^ k).natDegree ≤ n - 1 := by
    refine fun h => Polynomial.natDegree_sum_le_of_forall_le _ _ fun k hk => ?_
    have := Finset.mem_range.mp hk
    exact (Polynomial.natDegree_C_mul_X_pow_le _ _).trans (by omega)
  have heval : ∀ h : ℕ → ℕ,
      (∑ k ∈ Finset.range n, Polynomial.C (h k) * Polynomial.X ^ k).eval b
        = ∑ k ∈ Finset.range n, h k * b ^ k := by
    intro h
    simp [Polynomial.eval_finsetSum]
  have hmul := (Polynomial.natDegree_mul_le_of_le (hdegree f) (hdegree g)).trans_lt
    (show n - 1 + (n - 1) < 2 * n by omega)
  rw [← heval f, ← heval g, ← Polynomial.eval_mul, Polynomial.eval_eq_sum_range' hmul]
  refine Finset.sum_congr rfl fun i _ => ?_
  rw [Polynomial.coeff_mul, Finset.Nat.sum_antidiagonal_eq_sum_range_succ_mk]
  simp only [hcoeff f hf, hcoeff g hg]

end Carry
end S4LibLite
