import Mathlib.Data.Nat.Digits.Lemmas

/-!
# Positional numerals, most significant digit first

`Nat.digits` is little-endian and drops leading zeros; a printed number is
big-endian and may be padded. This file carries the Mathlib facts over:

* `value b ds`, the number a digit list denotes, computed left to right;
* `padded b w n`, the numeral of `n` with at least `w` digits;
* `value_padded` and `padded_value`, printing and reading cancel, in both
  directions;
* `length_padded_le`, the room a numeral takes;
* `padded_one_div` and `head?_padded_one`, the last and the first digit of a numeral without
  padding;
* `value_lt_value_iff`, numerals of one length compare as lists do.
-/

namespace S4LibLite
namespace Numeral

/-- The number a digit list denotes in base `b`, first digit most significant. -/
def value (b : ℕ) (ds : List ℕ) : ℕ := ds.foldl (fun v d => v * b + d) 0

/-- The digits of `n` in base `b`, with zeros in front up to `w` digits. -/
def padded (b w n : ℕ) : List ℕ :=
  List.replicate (w - (Nat.digits b n).length) 0 ++ (Nat.digits b n).reverse

/-- The digits are written from the highest on. -/
theorem value_eq_ofDigits (b : ℕ) (ds : List ℕ) : value b ds = Nat.ofDigits b ds.reverse := by
  rw [value, Nat.ofDigits_eq_foldr, List.foldr_reverse]
  congr 1
  funext v d
  rw [Nat.cast_id, Nat.mul_comm b v, Nat.add_comm]

theorem value_append_singleton (b : ℕ) (ds : List ℕ) (d : ℕ) :
    value b (ds ++ [d]) = value b ds * b + d := by
  rw [value, List.foldl_append]
  rfl

/-- The first digits count by the length of the others. -/
theorem value_append (b : ℕ) (ds es : List ℕ) :
    value b (ds ++ es) = value b ds * b ^ es.length + value b es := by
  rw [value_eq_ofDigits, value_eq_ofDigits, value_eq_ofDigits, List.reverse_append,
    Nat.ofDigits_append, List.length_reverse, Nat.add_comm, Nat.mul_comm]

/-- So many digits are below that power of the base. -/
theorem value_lt {b : ℕ} (hb : 1 < b) {ds : List ℕ} (h : ∀ d ∈ ds, d < b) :
    value b ds < b ^ ds.length := by
  rw [value_eq_ofDigits, ← List.length_reverse]
  exact Nat.ofDigits_lt_base_pow_length hb fun d hd => h d (List.mem_reverse.mp hd)

/-! ## Padded numerals -/

/-- From the lowest on, zeros stand at the end. -/
theorem reverse_padded (b w n : ℕ) :
    (padded b w n).reverse
      = Nat.digits b n ++ List.replicate (w - (Nat.digits b n).length) 0 := by
  rw [padded, List.reverse_append, List.reverse_reverse, List.reverse_replicate]

/-- Reading a printed number gives the number back. -/
theorem value_padded (b w n : ℕ) : value b (padded b w n) = n := by
  rw [value_eq_ofDigits, reverse_padded, Nat.ofDigits_append_replicate_zero, Nat.ofDigits_digits]

/-- A number takes its width or its digits, whichever is more. -/
theorem length_padded (b w n : ℕ) :
    (padded b w n).length = max w (Nat.digits b n).length := by
  rw [padded, List.length_append, List.length_replicate, List.length_reverse]
  omega

theorem length_padded_le {b w n k : ℕ} (hb : 1 < b) (hw : w ≤ k) (hn : n < b ^ k) :
    (padded b w n).length ≤ k := by
  rw [length_padded]
  exact max_le hw ((Nat.digits_length_le_iff hb n).mpr hn)

theorem le_length_padded (b w n : ℕ) : w ≤ (padded b w n).length := by
  rw [length_padded]
  exact le_max_left _ _

/-- A number that fits the width has the width. -/
theorem length_padded_eq {b w n : ℕ} (hb : 1 < b) (hn : n < b ^ w) :
    (padded b w n).length = w :=
  le_antisymm (length_padded_le hb le_rfl hn) (le_length_padded b w n)

/-- All of it are digits. -/
theorem padded_lt_base {b : ℕ} (hb : 1 < b) {w n d : ℕ} (h : d ∈ padded b w n) : d < b := by
  rcases List.mem_append.mp h with h | h
  · rw [List.eq_of_mem_replicate h]
    omega
  · exact Nat.digits_lt_base hb (List.mem_reverse.mp h)

/-! ## Numerals without padding -/

/-- A number of one digit. -/
theorem padded_one_of_lt {b n : ℕ} (hn : n < b) : padded b 1 n = [n] := by
  rw [padded]
  rcases Nat.eq_zero_or_pos n with rfl | hpos
  · rw [Nat.digits_zero]
    rfl
  · rw [Nat.digits_of_lt b n hpos.ne' hn]
    rfl

theorem padded_zero (b n : ℕ) : padded b 0 n = (Nat.digits b n).reverse := by
  rw [padded, Nat.zero_sub, List.replicate_zero, List.nil_append]

theorem padded_one_of_pos {b n : ℕ} (hn : 0 < n) :
    padded b 1 n = (Nat.digits b n).reverse := by
  have hlen : 0 < (Nat.digits b n).length :=
    List.length_pos_of_ne_nil (Nat.digits_ne_nil_iff_ne_zero.mpr hn.ne')
  rw [padded, Nat.sub_eq_zero_of_le hlen, List.replicate_zero, List.nil_append]

/-- The last digit. -/
theorem padded_one_div {b n : ℕ} (hb : 1 < b) (hn : b ≤ n) :
    padded b 1 n = padded b 1 (n / b) ++ [n % b] := by
  have hpos : 0 < n := by omega
  rw [padded_one_of_pos hpos, padded_one_of_pos (Nat.div_pos hn (by omega)),
    Nat.digits_def' hb hpos, List.reverse_cons]

/-- The first digit is not zero, but for the number zero. -/
theorem head?_padded_one {b n : ℕ} (h : (padded b 1 n).head? = some 0) : n = 0 := by
  by_contra hn
  rw [padded_one_of_pos (Nat.pos_of_ne_zero hn), List.head?_reverse,
    List.getLast?_eq_some_getLast (Nat.digits_ne_nil_iff_ne_zero.mpr hn), Option.some.injEq] at h
  exact Nat.getLast_digit_ne_zero b hn h

/-- Digit lists of one length that denote the same number are equal. -/
theorem value_inj {b : ℕ} (hb : 1 < b) {ds es : List ℕ} (hlen : ds.length = es.length)
    (hd : ∀ d ∈ ds, d < b) (he : ∀ d ∈ es, d < b) (h : value b ds = value b es) : ds = es := by
  rw [value_eq_ofDigits, value_eq_ofDigits] at h
  apply List.reverse_injective
  exact Nat.ofDigits_inj_of_len_eq hb (by simpa using hlen)
    (fun d hm => hd d (List.mem_reverse.mp hm)) (fun d hm => he d (List.mem_reverse.mp hm)) h

/-- Printing the value of a digit list at its own width gives the list back. -/
theorem padded_value {b : ℕ} (hb : 1 < b) {ds : List ℕ} (h : ∀ d ∈ ds, d < b) :
    padded b ds.length (value b ds) = ds :=
  value_inj hb (length_padded_eq hb (value_lt hb h)) (fun _ hd => padded_lt_base hb hd) h
    (value_padded b _ _)

/-! ## Order -/

/-- The first digit counts by the length of the others. -/
theorem value_cons (b d : ℕ) (ds : List ℕ) :
    value b (d :: ds) = d * b ^ ds.length + value b ds := by
  have happend := value_append b [d] ds
  rwa [List.singleton_append, show value b [d] = d by simp [value]] at happend

/-- Two numbers compare by their high parts first. -/
theorem mul_add_lt_mul_add_iff {m x y u v : ℕ} (hu : u < m) (hv : v < m) :
    x * m + u < y * m + v ↔ x < y ∨ x = y ∧ u < v := by
  rcases lt_trichotomy x y with h | rfl | h
  · have := Nat.mul_le_mul_right m (Nat.succ_le_of_lt h)
    rw [Nat.succ_mul] at this
    omega
  · omega
  · have := Nat.mul_le_mul_right m (Nat.succ_le_of_lt h)
    rw [Nat.succ_mul] at this
    omega

/-- Digit lists of one length compare as the numbers they denote. -/
theorem value_lt_value_iff {b : ℕ} (hb : 1 < b) {ds es : List ℕ} (hlen : ds.length = es.length)
    (hd : ∀ d ∈ ds, d < b) (he : ∀ d ∈ es, d < b) : value b ds < value b es ↔ ds < es := by
  induction ds generalizing es with
  | nil =>
    rw [List.length_nil] at hlen
    rw [List.eq_nil_of_length_eq_zero hlen.symm]
    simp
  | cons d ds ih =>
    obtain ⟨e, es, rfl⟩ := List.exists_cons_of_length_eq_add_one hlen.symm
    rw [List.length_cons, List.length_cons, Nat.succ_inj] at hlen
    have hd' := fun x hx => hd x (List.mem_cons_of_mem _ hx)
    have he' := fun x hx => he x (List.mem_cons_of_mem _ hx)
    rw [value_cons, value_cons, ← hlen, mul_add_lt_mul_add_iff (value_lt hb hd')
      (hlen ▸ value_lt hb he'), ih hlen hd' he', List.cons_lt_cons_iff]

/-- Texts of fields compare by their first fields first, where these have one length. -/
theorem append_lt_append_iff {α : Type*} [LT α] [Std.Irrefl (· < · : α → α → Prop)]
    {l l' r r' : List α} (hlen : l.length = l'.length) :
    l ++ r < l' ++ r' ↔ l < l' ∨ l = l' ∧ r < r' := by
  induction l generalizing l' with
  | nil =>
    rw [List.length_nil] at hlen
    rw [List.eq_nil_of_length_eq_zero hlen.symm]
    simp
  | cons a l ih =>
    obtain ⟨b, l', rfl⟩ := List.exists_cons_of_length_eq_add_one hlen.symm
    rw [List.length_cons, List.length_cons, Nat.succ_inj] at hlen
    rw [List.cons_append, List.cons_append, List.cons_lt_cons_iff, List.cons_lt_cons_iff, ih hlen,
      List.cons.injEq]
    tauto

end Numeral
end S4LibLite
