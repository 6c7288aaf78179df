import S4LibLite.Types.DiyFpTheorems

/-!
# What sixty-four bits tell about the nearest double

The digits that were read and the power of ten are known up to an error. Rounding comes to the
nearest double where no boundary is within the error, and to the lower of two doubles elsewhere. At
the smallest double the last place is smaller than the error may be, but no digits come so close to
its boundary that this would matter.

* `Approximation.isGuess_round`, rounding what is known up to an error;
* `spec_readDiyFp`, the digits that were read;
* `isGuess_diyFpStrtod`, what `DiyFpStrtod` returns.
-/

namespace S4LibLite

open Rounding

/-! ## Rounding in sixty-four bits -/

section Units

variable {f count error E : ℕ} {w : ℚ}

/-- Where in its last place a number lies that is close to `f`. -/
theorem rest_bounds (hcount : 11 ≤ count) (herror : error ≤ 2 ^ 9) (hnear : |w - f| < error / 8) :
    ((f / 2 ^ count : ℕ) : ℚ) - 1 / 4 < w / 2 ^ count
      ∧ w / 2 ^ count < (f / 2 ^ count : ℕ) + 3 / 2
      ∧ (2 ^ (count - 1) * 8 + error ≤ f % 2 ^ count * 8 →
        ((f / 2 ^ count : ℕ) : ℚ) + 1 / 2 < w / 2 ^ count)
      ∧ (f % 2 ^ count * 8 ≤ 2 ^ (count - 1) * 8 - error →
        w / 2 ^ count < (f / 2 ^ count : ℕ) + 1 / 2) := by
  have hdiv := Nat.div_add_mod f (2 ^ count)
  have hmod := Nat.mod_lt f (Nat.two_pow_pos count)
  have hpow : 2 ^ count = 2 * 2 ^ (count - 1) := by
    rw [← pow_succ', Nat.sub_add_cancel (by omega)]
  have hhalf : 2 ^ 10 ≤ 2 ^ (count - 1) := Nat.pow_le_pow_right (by norm_num) (by omega)
  have hscale : (2 : ℚ) ^ count = (2 * 2 ^ (count - 1) : ℕ) := by
    rw [← hpow]
    push_cast
    rfl
  rw [hscale]
  rw [hpow] at hdiv hmod ⊢
  generalize 2 ^ (count - 1) = half at *
  generalize f / (2 * half) = q at *
  generalize f % (2 * half) = r at *
  have hdiv' : (2 * half * q + r : ℚ) = f := by exact_mod_cast hdiv
  have hmod' : (r : ℚ) < 2 * half := by exact_mod_cast hmod
  have hhalf' : (2 : ℚ) ^ 10 ≤ half := by exact_mod_cast hhalf
  have herror' : (error : ℚ) ≤ 2 ^ 9 := by exact_mod_cast herror
  have hr : (0 : ℚ) ≤ r := Nat.cast_nonneg r
  obtain ⟨hnear₁, hnear₂⟩ := abs_lt.mp hnear
  have hpos : (0 : ℚ) < (2 * half : ℕ) := by
    push_cast
    linarith
  rw [lt_div_iff₀ hpos, lt_div_iff₀ hpos, div_lt_iff₀ hpos, div_lt_iff₀ hpos]
  push_cast
  refine ⟨by linarith, by linarith, fun h => ?_, fun h => ?_⟩
  · have h' : (half * 8 + error : ℚ) ≤ r * 8 := by exact_mod_cast h
    linarith
  · have h' : (r * 8 + error : ℚ) ≤ half * 8 := by
      have : r * 8 + error ≤ half * 8 := by omega
      exact_mod_cast this
    linarith

end Units

/-- A guess is the nearest double if it is certain, and else that or the one below it. -/
structure IsGuess (v : ℚ) (k : ℕ) (certain : Bool) : Prop where
  roundsTo : certain = true → RoundsTo doubleAt kInfinity v (min kInfinity k)
  above : certain = false → ∀ j, j + 1 = k → boundary doubleAt j < v
  below : certain = false → v < boundary doubleAt (k + 1)

/-- Rounding in units of the last place: the error leaves no choice, or the lower double. -/
theorem isGuess_units {f count error E : ℕ} {w : ℚ} (hcount : 11 ≤ count) (herror : error ≤ 2 ^ 9)
    (hnear : |w - f| < error / 8) (hq : f / 2 ^ count < 2 ^ 53)
    (hE : E = 0 ∨ 2 ^ 52 ≤ f / 2 ^ count) :
    IsGuess (w / 2 ^ count * 2 ^ (E - 1074 : ℤ))
      (E * 2 ^ 52 + if 2 ^ (count - 1) * 8 + error ≤ f % 2 ^ count * 8 then f / 2 ^ count + 1
        else f / 2 ^ count)
      (!(decide (2 ^ (count - 1) * 8 - error < f % 2 ^ count * 8)
        && decide (f % 2 ^ count * 8 < 2 ^ (count - 1) * 8 + error))) := by
  obtain ⟨hlow, hhigh, hup, hdown⟩ := rest_bounds hcount herror hnear
  have hunit : (0 : ℚ) < 2 ^ (E - 1074 : ℤ) := zpow_pos (by norm_num) _
  have hbelow := lt_boundary_index hq hE hhigh
  have habove : ∀ j, j + 1 = E * 2 ^ 52 + f / 2 ^ count →
      boundary doubleAt j < w / 2 ^ count * 2 ^ (E - 1074 : ℤ) :=
    fun j => boundary_lt_index hq hE hlow
  have hboundary := boundary_index hq hE
  split
  · rename_i hround
    have hlt := mul_lt_mul_of_pos_right (hup hround) hunit
    rw [← hboundary] at hlt
    rw [← Nat.add_assoc, decide_eq_false (Nat.not_lt.mpr hround), Bool.and_false, Bool.not_false]
    exact ⟨fun _ => .of_min strictMono_doubleAt (.of_lt hlt) (Or.inl hbelow) _, nofun, nofun⟩
  · rename_i hround
    refine ⟨fun h => ?_, fun _ => habove, fun _ => hbelow⟩
    have hle : f % 2 ^ count * 8 ≤ 2 ^ (count - 1) * 8 - error := by
      simp only [Bool.not_eq_true', Bool.and_eq_false_iff, decide_eq_false_iff_not] at h
      omega
    have hlt := mul_lt_mul_of_pos_right (hdown hle) hunit
    rw [← hboundary] at hlt
    exact .of_min strictMono_doubleAt (fun j hj => Or.inl (habove j hj)) (Or.inl hlt) _

namespace Approximation

/-- Bits that are dropped add less than a unit to the error. -/
theorem abs_sub_dropped_lt {f error s : ℕ} {y : ℚ} (hnear : |y - f| < error / 8) :
    |y / 2 ^ s - (f / 2 ^ s : ℕ)| < (error / 2 ^ s + 1 + 8 : ℕ) / 8 := by
  have hdiv := Nat.div_add_mod f (2 ^ s)
  have hmod := Nat.mod_lt f (Nat.two_pow_pos s)
  have hlost := Nat.lt_mul_div_succ error (Nat.two_pow_pos s)
  have hpos : (0 : ℚ) < 2 ^ s := by positivity
  have hscale : (2 : ℚ) ^ s = (2 ^ s : ℕ) := by
    push_cast
    rfl
  rw [hscale] at hpos ⊢
  generalize 2 ^ s = unit at *
  generalize f / unit = q at *
  generalize f % unit = r at *
  generalize error / unit = kept at *
  have hdiv' : (unit * q + r : ℚ) = f := by exact_mod_cast hdiv
  have hmod' : (r : ℚ) < unit := by exact_mod_cast hmod
  have hlost' : (error : ℚ) < unit * (kept + 1) := by exact_mod_cast hlost
  have hr : (0 : ℚ) ≤ r := Nat.cast_nonneg r
  obtain ⟨hnear₁, hnear₂⟩ := abs_lt.mp hnear
  push_cast
  rw [abs_lt, lt_sub_iff_add_lt, sub_lt_iff_lt_add, lt_div_iff₀ hpos, div_lt_iff₀ hpos]
  constructor <;> linarith

section Count

variable {a : Approximation} {v : ℚ}

/-- Rounding, by the number of bits that are rounded away. -/
theorem isGuess_round_of_count (count E : ℕ)
    (hcount : (64 - Double.significandSizeForOrderOfMagnitude (64 + a.input.e)).toNat = count)
    (h11 : 11 ≤ count) (h64 : count ≤ 64) (hexp : (E : ℤ) - 1074 = a.input.e + count)
    (hq : a.input.f / 2 ^ count < 2 ^ 53) (hE : E = 0 ∨ 2 ^ 52 ≤ a.input.f / 2 ^ count)
    (herror : a.error ≤ 2 ^ 9) (hnear : a.Nearer v) :
    ∃ k, a.round.1.d64 = min kInfinity k ∧ IsGuess v k a.round.2 := by
  rw [round]
  dsimp only
  rw [hcount]
  obtain ⟨s, hs⟩ : ∃ s, s = if count + 3 ≥ 64 then count + 3 - 64 + 1 else 0 := ⟨_, rfl⟩
  have hscount : 11 ≤ count - s ∧ s ≤ count := by
    rw [hs]
    split <;> omega
  have hsplit : 2 ^ count = 2 ^ s * 2 ^ (count - s) := by
    rw [← pow_add, Nat.add_sub_cancel' hscount.2]
  rw [← hs]
  rw [hsplit, ← Nat.div_div_eq_div_mul] at hq hE
  obtain ⟨error, herr⟩ : ∃ error,
      error = if count + 3 ≥ 64 then a.error / 2 ^ s + 1 + 8 else a.error :=
    ⟨_, rfl⟩
  rw [← herr]
  have hclose : |v / 2 ^ a.input.e / 2 ^ s - (a.input.f / 2 ^ s : ℕ)| < error / 8 := by
    rw [herr]
    split
    · exact abs_sub_dropped_lt hnear
    · rename_i hfew
      rw [hs, if_neg hfew, pow_zero, pow_zero, Nat.div_one, div_one]
      exact hnear
  have hsmall : error ≤ 2 ^ 9 := by
    rw [herr, hs]
    split
    · rename_i hmany
      have hhalf := Nat.div_le_div_left (c := 2) (a := a.error)
        (Nat.pow_le_pow_right (show 0 < 2 by norm_num) (show 1 ≤ count + 3 - 64 + 1 by omega))
        (by norm_num)
      omega
    · exact herror
  have hguess := isGuess_units hscount.1 hsmall hclose hq hE
  have hunit : v / 2 ^ a.input.e / 2 ^ s / 2 ^ (count - s) * 2 ^ (E - 1074 : ℤ) = v := by
    rw [div_div, div_div, ← pow_add, Nat.add_sub_cancel' hscount.2, hexp,
      zpow_add₀ (by norm_num), zpow_natCast]
    exact div_mul_cancel₀ _ (mul_ne_zero (zpow_ne_zero _ (by norm_num)) (by positivity))
  rw [hunit] at hguess
  refine ⟨_, ?_, hguess⟩
  rw [Double.ofDiyFp, show a.input.e + s + (count - s : ℕ) = (E : ℤ) - 1074 by omega,
    Double.diyFpToUint64_index, Double.d64_ofBits (min_le_left _ _)]
  · split <;> omega
  · split <;> omega

/-- Where not even the first bit of a double is left, it is zero. -/
theorem isGuess_round_of_tiny (htiny : a.input.e ≤ -1139) (hhigh : a.input.f < 2 ^ 64)
    (hsmall : v ≤ boundary doubleAt 0) :
    ∃ k, a.round.1.d64 = min kInfinity k ∧ IsGuess v k a.round.2 := by
  have hzero : v < boundary doubleAt 0 ∨ v = boundary doubleAt 0 ∧ Even 0 :=
    (lt_or_eq_of_le hsmall).imp id fun h => ⟨h, by decide⟩
  refine ⟨0, ?_, fun _ => ⟨Nat.zero_le _, fun j hj => absurd hj (Nat.succ_ne_zero j),
      fun _ => hzero⟩, fun _ j hj => absurd hj (Nat.succ_ne_zero j),
    fun _ => hsmall.trans_lt (boundary_strictMono strictMono_doubleAt Nat.zero_lt_one)⟩
  have hsize : Double.significandSizeForOrderOfMagnitude (64 + a.input.e) = 0 := by
    rw [Double.significandSizeForOrderOfMagnitude, kDenormalExponent, if_neg (by omega),
      if_pos (by omega)]
  have hmany : 64 + 3 ≥ 64 := by norm_num
  rw [round, hsize]
  dsimp only
  rw [show (64 - (0 : ℤ)).toNat = 64 by decide, if_pos hmany, if_pos hmany, Double.ofDiyFp,
    Double.diyFpToUint64_small, Double.d64_ofBits (Nat.zero_le _)]
  · rfl
  · split <;> omega
  · omega

/-- **Rounding in sixty-four bits** yields a guess. -/
theorem isGuess_round (hlow : 2 ^ 63 ≤ a.input.f) (hhigh : a.input.f < 2 ^ 64)
    (herror : a.error ≤ 2 ^ 9) (hnear : a.Nearer v)
    (hsmall : a.input.e ≤ -1139 → v ≤ boundary doubleAt 0) :
    ∃ k, a.round.1.d64 = min kInfinity k ∧ IsGuess v k a.round.2 := by
  rcases lt_or_ge a.input.e (-1138) with htiny | hbig
  · exact isGuess_round_of_tiny (by omega) hhigh (hsmall (by omega))
  rcases lt_or_ge a.input.e (-1085) with hdenormal | hnormal
  · -- a denormal double has the bits from its smallest one on
    obtain ⟨n, hn⟩ : ∃ n : ℕ, a.input.e = -1074 - n := ⟨(-1074 - a.input.e).toNat, by omega⟩
    have hpow : 2 ^ 64 ≤ 2 ^ 53 * 2 ^ n := by
      rw [← pow_add]
      exact Nat.pow_le_pow_right (by norm_num) (by omega)
    refine isGuess_round_of_count n 0 ?_ (by omega) (by omega) (by omega)
      ((Nat.div_lt_iff_lt_mul (Nat.two_pow_pos n)).mpr (hhigh.trans_le hpow)) (Or.inl rfl) herror
      hnear
    rw [Double.significandSizeForOrderOfMagnitude, kDenormalExponent, if_neg (by omega)]
    split <;> omega
  · refine isGuess_round_of_count 11 (a.input.e + 1085).toNat ?_ (by norm_num)
      (by norm_num) (by omega) (by omega) (Or.inr (by omega)) herror hnear
    rw [Double.significandSizeForOrderOfMagnitude, kDenormalExponent, if_pos (by omega)]
    rfl

end Count

end Approximation

/-! ## Reading -/

/-- The digits that are read, and that there are many where some are left. -/
theorem spec_readUint64Loop {s : Bytes} (hs : ∀ c ∈ s, isDigit c = true) {n : ℕ}
    (hn : n ≤ 18446744073709551609) :
    ∃ front, s = front ++ (readUint64Loop n s).2
      ∧ (readUint64Loop n s).1 = n * 10 ^ front.length + decVal front
      ∧ (readUint64Loop n s).1 ≤ 18446744073709551609
      ∧ ((readUint64Loop n s).2 ≠ [] → 1844674407370955161 ≤ (readUint64Loop n s).1) := by
  induction s generalizing n with
  | nil => exact ⟨[], rfl, by simp [readUint64Loop, decVal_nil], hn, fun h => absurd rfl h⟩
  | cons c s ih =>
    rw [readUint64Loop]
    split
    · rename_i hroom
      have hc := digitVal_lt (hs c List.mem_cons_self)
      obtain ⟨front, hsplit, hvalue, hmax, hmany⟩ :=
        ih (fun d hd => hs d (List.mem_cons_of_mem _ hd)) (n := 10 * n + digitVal c) (by omega)
      refine ⟨c :: front, congrArg (c :: ·) hsplit, ?_, hmax, hmany⟩
      rw [hvalue, decVal_cons, List.length_cons, pow_succ]
      ring
    · rename_i hfull
      exact ⟨[], rfl, by simp [decVal_nil], hn, fun _ => by omega⟩

/-- Where there are no more than fifteen digits, all are read. -/
theorem readUint64_eq {s : Bytes} (hs : ∀ c ∈ s, isDigit c = true) (hlen : s.length ≤ 15) :
    readUint64 s = (decVal s, []) := by
  obtain ⟨front, hsplit, hvalue, -, hmany⟩ := spec_readUint64Loop hs (Nat.zero_le _)
  rw [← readUint64] at hsplit hvalue hmany
  rw [Nat.zero_mul, Nat.zero_add] at hvalue
  have hall : (readUint64 s).2 = [] := by
    by_contra hne
    have hfront : ∀ c ∈ front, isDigit c = true := fun c hc => hs c (by
      rw [hsplit]
      exact List.mem_append_left _ hc)
    have hlength : front.length ≤ 15 := by
      rw [hsplit, List.length_append] at hlen
      omega
    have := hmany hne
    have := decVal_lt hfront
    have := Nat.pow_le_pow_right (show 0 < 10 by norm_num) hlength
    omega
  rw [hall, List.append_nil] at hsplit
  exact Prod.ext (by rw [hvalue, ← hsplit]) hall

/-- The first digit of what is left decides how it is rounded. -/
theorem round_rest {c : UInt8} {s : Bytes} (hs : ∀ d ∈ c :: s, isDigit d = true) (n : ℕ) :
    |((n * 10 ^ (s.length + 1) + decVal (c :: s) : ℕ) : ℚ) / 10 ^ (s.length + 1)
      - (if c ≥ 53 then n + 1 else n : ℕ)| ≤ 1 / 2 := by
  have hc := isDigit_iff.mp (hs c List.mem_cons_self)
  have hrest := decVal_lt fun d hd => hs d (List.mem_cons_of_mem _ hd)
  have hrest' : (decVal s : ℚ) < 10 ^ s.length := by exact_mod_cast hrest
  have hpos : (0 : ℚ) < 10 ^ s.length := by positivity
  have hfive : c ≥ 53 ↔ 5 ≤ digitVal c := by
    rw [ge_iff_le, UInt8.le_iff_toNat_le, digitVal, show (53 : UInt8).toNat = 53 from rfl]
    omega
  have hnine : digitVal c ≤ 9 := by
    rw [digitVal]
    omega
  have hdecVal : (0 : ℚ) ≤ decVal s := Nat.cast_nonneg _
  have hnine' : (digitVal c : ℚ) ≤ 9 := by exact_mod_cast hnine
  have hscale : (0 : ℚ) < 10 ^ s.length * 10 := by positivity
  rw [decVal_cons]
  simp only [hfive]
  push_cast
  rw [pow_succ, abs_le, div_sub' hscale.ne', le_div_iff₀ hscale, div_le_iff₀ hscale]
  split
  · rename_i hup
    have hup' : (5 : ℚ) ≤ digitVal c := by exact_mod_cast hup
    constructor <;> nlinarith
  · rename_i hdown
    have hdown' : (digitVal c : ℚ) ≤ 4 := by exact_mod_cast Nat.le_of_lt_succ (Nat.not_le.mp hdown)
    have hnonneg : (0 : ℚ) ≤ digitVal c := Nat.cast_nonneg _
    constructor <;> nlinarith

/-- **The digits that are read**: all of them exactly, or nineteen and more, rounded. -/
theorem spec_readDiyFp {s : Bytes} (hs : ∀ c ∈ s, isDigit c = true) (hne : s ≠ [])
    (hfirst : s.head? ≠ some 48) :
    ∃ r remaining : ℕ, readDiyFp s = (⟨r, 0⟩, remaining) ∧ 0 < r ∧ r < 2 ^ 64
      ∧ remaining ≤ s.length
      ∧ (remaining = 0 → (decVal s : ℚ) / 10 ^ remaining = r ∧ r < 10 ^ s.length)
      ∧ (remaining ≠ 0 → |(decVal s : ℚ) / 10 ^ remaining - r| ≤ 1 / 2 ∧ 2 ^ 60 ≤ r
        ∧ 19 ≤ s.length) := by
  obtain ⟨front, hsplit, hvalue, hmax, hmany⟩ := spec_readUint64Loop hs (Nat.zero_le _)
  rw [← readUint64] at hsplit hvalue hmax hmany
  rw [Nat.zero_mul, Nat.zero_add] at hvalue
  have hfront : ∀ c ∈ front, isDigit c = true := fun c hc => hs c (by
    rw [hsplit]
    exact List.mem_append_left _ hc)
  have hlt := decVal_lt hfront
  rw [readDiyFp]
  cases hrest : (readUint64 s).2 with
  | nil =>
    rw [hrest, List.append_nil] at hsplit
    rw [← hsplit] at hvalue hlt
    have hpos := (Nat.pow_pos (show 0 < 10 by norm_num)).trans_le (pow_le_decVal hs hne hfirst)
    refine ⟨decVal s, 0, ?_, hpos, by omega, Nat.zero_le _, fun _ => ⟨?_, hlt⟩,
      fun h => absurd rfl h⟩
    · rw [if_pos rfl, hvalue]
    · rw [pow_zero, div_one]
  | cons c rest =>
    rw [hrest] at hsplit hmany
    have hbig := hmany (List.cons_ne_nil _ _)
    have hlength : 18 < front.length := by
      refine (Nat.pow_lt_pow_iff_right (show 1 < 10 by norm_num)).mp ?_
      omega
    have htotal : s.length = front.length + (rest.length + 1) := by
      rw [hsplit, List.length_append, List.length_cons]
    have hdigits : ∀ d ∈ c :: rest, isDigit d = true := fun d hd => hs d (by
      rw [hsplit]
      exact List.mem_append_right _ hd)
    refine ⟨if c ≥ 53 then (readUint64 s).1 + 1 else (readUint64 s).1, rest.length + 1, ?_, ?_, ?_,
      ?_,       fun h => absurd h (Nat.succ_ne_zero _), fun _ => ⟨?_, ?_, by omega⟩⟩
    · rw [if_neg (List.cons_ne_nil _ _)]
      rfl
    · split <;> omega
    · split <;> omega
    · omega
    · have hround := round_rest hdigits (decVal front)
      rwa [← List.length_cons (a := c), ← decVal_append, ← hsplit, List.length_cons,
        ← hvalue] at hround
    · split <;> omega

/-! ## At the smallest double -/

/-- The product depends on the digits and the exponent only. -/
theorem approximate_input (w : DiyFp) (remainingDecimals length : ℕ) (x : ℤ) :
    (approximate w remainingDecimals length x).input = (approximate w 0 0 x).input := by
  rw [approximate, approximate]
  dsimp only [Approximation.normalize, Approximation.scale, Approximation.adjust]
  split <;> rfl

/-- The boundary between zero and the smallest double, in units of the digits read there. -/
theorem smallest_boundary : boundary doubleAt 0 = 2 ^ (-1075 : ℤ)
    ∧ (24703282292062327208 / 10 : ℚ) < 2 ^ (-1075 : ℤ) * 10 ^ (342 : ℤ)
    ∧ (2 ^ (-1075 : ℤ) + 2 ^ (-1133 : ℤ) : ℚ) * 10 ^ (342 : ℤ) < 24703282292062327295 / 10 := by
  rw [boundary_doubleAt]
  decide +kernel

/-- The digits that are read for the numbers just over it. -/
theorem smallest_products : ∀ i : Fin 9,
    (approximate ⟨2470328229206232721 + i.val, 0⟩ 0 0 (-342)).input.e = -1138 := by decide +kernel

/-- Only nine numbers that can be read are, with one exponent, just over the boundary. -/
theorem read_of_just_over {r remaining : ℕ} {v : ℚ} {n : ℤ} (hlt : r < 2 ^ 64)
    (hexact : remaining = 0 → v = r) (hround : remaining ≠ 0 → |v - r| ≤ 1 / 2 ∧ 2 ^ 60 ≤ r)
    (hlow : (24703282292062327208 / 10 : ℚ) < v * 10 ^ n)
    (hhigh : v * 10 ^ n < 24703282292062327295 / 10) :
    n = 0 ∧ 2470328229206232721 ≤ r ∧ r < 2470328229206232721 + 9 := by
  have hnear : |v - r| ≤ 1 / 2 := by
    by_cases h : remaining = 0
    · rw [hexact h, sub_self, abs_zero]
      norm_num
    · exact (hround h).1
  obtain ⟨hnear₁, hnear₂⟩ := abs_le.mp hnear
  have hr : (r : ℚ) < 2 ^ 64 := by exact_mod_cast hlt
  have hv : 0 < v := by
    by_contra hv
    have := mul_nonpos_of_nonpos_of_nonneg (not_lt.mp hv)
      (zpow_pos (show (0 : ℚ) < 10 by norm_num) n).le
    linarith
  rcases lt_trichotomy n 0 with hneg | rfl | hpos
  · have hpow : (10 : ℚ) ^ n ≤ 10 ^ (-1 : ℤ) := zpow_le_zpow_right₀ (by norm_num) (by omega)
    have := mul_le_mul_of_nonneg_left hpow hv.le
    norm_num at this
    linarith
  · rw [zpow_zero, mul_one] at hlow hhigh
    refine ⟨rfl, ?_, ?_⟩
    · have : ((2470328229206232720 : ℕ) : ℚ) < r := by
        push_cast
        linarith
      exact_mod_cast this
    · have : (r : ℚ) < (2470328229206232721 + 9 : ℕ) := by
        push_cast
        linarith
      exact_mod_cast this
  · obtain ⟨m, rfl⟩ : ∃ m : ℕ, n = m + 1 := ⟨(n - 1).toNat, by omega⟩
    exfalso
    by_cases h : remaining = 0
    · -- all digits are read, and the last one is a zero
      have hscaled : v * 10 ^ ((m : ℤ) + 1) = (10 * (r * 10 ^ m) : ℕ) := by
        rw [hexact h, zpow_add_one₀ (by norm_num), zpow_natCast]
        push_cast
        ring
      rw [hscaled] at hlow hhigh
      have hlow' : 24703282292062327208 < 10 * (10 * (r * 10 ^ m)) := by
        have : (24703282292062327208 : ℚ) < 10 * (10 * (r * 10 ^ m) : ℕ) := by linarith
        exact_mod_cast this
      have hhigh' : 10 * (10 * (r * 10 ^ m)) < 24703282292062327295 := by
        have : (10 * (10 * (r * 10 ^ m) : ℕ) : ℚ) < 24703282292062327295 := by linarith
        exact_mod_cast this
      omega
    · have hmany : ((2 ^ 60 : ℕ) : ℚ) ≤ r := by exact_mod_cast (hround h).2
      push_cast at hmany
      have hpow : (10 : ℚ) ^ (1 : ℤ) ≤ 10 ^ ((m : ℤ) + 1) :=
        zpow_le_zpow_right₀ (by norm_num) (by omega)
      have := mul_le_mul_of_nonneg_left hpow hv.le
      rw [zpow_one] at this
      linarith

/-- **No number is lost** over the boundary of the smallest double: the product is as large. -/
theorem le_boundary_zero {r remaining length : ℕ} {v : ℚ} {x : ℤ} (hlt : r < 2 ^ 64)
    (hexact : remaining = 0 → v = r) (hround : remaining ≠ 0 → |v - r| ≤ 1 / 2 ∧ 2 ^ 60 ≤ r)
    (hhigh : (approximate ⟨r, 0⟩ remaining length x).input.f < 2 ^ 64)
    (herror : (approximate ⟨r, 0⟩ remaining length x).error ≤ 2 ^ 9)
    (hnear : (approximate ⟨r, 0⟩ remaining length x).Nearer (v * 10 ^ x))
    (htiny : (approximate ⟨r, 0⟩ remaining length x).input.e ≤ -1139) :
    v * 10 ^ x ≤ boundary doubleAt 0 := by
  obtain ⟨hboundary, hlow, hgap⟩ := smallest_boundary
  rw [hboundary]
  by_contra hover
  rw [not_le] at hover
  have hten : (0 : ℚ) < 10 ^ (342 : ℤ) := zpow_pos (by norm_num) _
  have hupper : v * 10 ^ x < 2 ^ (-1075 : ℤ) + 2 ^ (-1133 : ℤ) := by
    have hpow := zpow_le_zpow_right₀ (show (1 : ℚ) ≤ 2 by norm_num) htiny
    have hunit : (0 : ℚ) < 2 ^ (approximate ⟨r, 0⟩ remaining length x).input.e :=
      zpow_pos (by norm_num) _
    have hclose := (abs_lt.mp hnear).2
    generalize approximate ⟨r, 0⟩ remaining length x = a at *
    have hf : (a.input.f : ℚ) < 2 ^ 64 := by exact_mod_cast hhigh
    have herror' : (a.error : ℚ) ≤ 2 ^ 9 := by exact_mod_cast herror
    rw [sub_lt_iff_lt_add, div_lt_iff₀ hunit] at hclose
    calc v * 10 ^ x < (a.error / 8 + a.input.f) * 2 ^ a.input.e := hclose
      _ ≤ (2 ^ 64 + 2 ^ 6) * 2 ^ (-1139 : ℤ) :=
        mul_le_mul (by linarith) hpow hunit.le (by norm_num)
      _ = 2 ^ (-1075 : ℤ) + 2 ^ (-1133 : ℤ) := by
        rw [add_mul, ← zpow_natCast, ← zpow_natCast, ← zpow_add₀ (by norm_num),
          ← zpow_add₀ (by norm_num)]
        norm_num
  have hscale : v * 10 ^ (x + 342) = v * 10 ^ x * 10 ^ (342 : ℤ) := by
    rw [zpow_add₀ (by norm_num), mul_assoc]
  obtain ⟨hn, hr₁, hr₂⟩ := read_of_just_over (n := x + 342) hlt hexact hround
    (by rw [hscale]; exact hlow.trans (mul_lt_mul_of_pos_right hover hten))
    (by rw [hscale]; exact (mul_lt_mul_of_pos_right hupper hten).trans hgap)
  obtain ⟨i, rfl⟩ := Nat.exists_eq_add_of_le hr₁
  have hproduct := smallest_products ⟨i, by omega⟩
  rw [approximate_input, show x = -342 by omega] at htiny
  dsimp only at hproduct
  omega

/-- So small a power of ten leaves nothing of the digits. -/
theorem le_boundary_zero_of_small {r : ℕ} {v : ℚ} {x : ℤ} (hlt : r < 2 ^ 64) (hv : v ≤ r + 1 / 2)
    (hx : x ≤ -349) : v * 10 ^ x ≤ boundary doubleAt 0 := by
  obtain ⟨hboundary, hlow, -⟩ := smallest_boundary
  have hr : (r : ℚ) < 2 ^ 64 := by exact_mod_cast hlt
  have hten : (0 : ℚ) < 10 ^ (342 : ℤ) := zpow_pos (by norm_num) _
  rw [hboundary, ← mul_le_mul_iff_left₀ hten, mul_assoc, ← zpow_add₀ (by norm_num)]
  have hpow : (10 : ℚ) ^ (x + 342) ≤ 10 ^ (-7 : ℤ) := zpow_le_zpow_right₀ (by norm_num) (by omega)
  calc v * 10 ^ (x + 342) ≤ (2 ^ 64 + 1) * 10 ^ (x + 342) :=
        mul_le_mul_of_nonneg_right (by linarith) (zpow_pos (by norm_num) _).le
    _ ≤ (2 ^ 64 + 1) * 10 ^ (-7 : ℤ) := mul_le_mul_of_nonneg_left hpow (by norm_num)
    _ ≤ 24703282292062327208 / 10 := by norm_num
    _ ≤ 2 ^ (-1075 : ℤ) * 10 ^ (342 : ℤ) := hlow.le

theorem roundsTo_zero {v : ℚ} (h : v ≤ boundary doubleAt 0) : RoundsTo doubleAt kInfinity v 0 :=
  ⟨Nat.zero_le _, fun j hj => absurd hj (Nat.succ_ne_zero j),
    fun _ => (lt_or_eq_of_le h).imp id fun h => ⟨h, by decide⟩⟩

section Guess

variable {s : Bytes} {exponent : ℤ}

/-- **The guess of `DiyFpStrtod`**, for digits that do not begin with a zero. -/
theorem isGuess_diyFpStrtod (hs : ∀ c ∈ s, isDigit c = true) (hne : s ≠ [])
    (hfirst : s.head? ≠ some 48) (hmax : exponent + s.length - 1 < 309) :
    ∃ k, (diyFpStrtod s exponent).1.d64 = min kInfinity k
      ∧ IsGuess (decVal s * 10 ^ exponent) k (diyFpStrtod s exponent).2 := by
  obtain ⟨r, remaining, hread, hpos, hlt, hle, hexact, hround⟩ := spec_readDiyFp hs hne hfirst
  have hvalue : (decVal s : ℚ) * 10 ^ exponent
      = decVal s / 10 ^ remaining * 10 ^ (exponent + remaining) := by
    rw [zpow_add₀ (by norm_num), zpow_natCast, div_mul_eq_mul_div, mul_comm ((10 : ℚ) ^ exponent),
      ← mul_assoc, mul_right_comm, mul_div_cancel_right₀ _ (by positivity)]
  rw [hvalue, diyFpStrtod, hread]
  dsimp only
  split
  · rename_i hsmall
    exact ⟨0, rfl, fun _ => roundsTo_zero (le_boundary_zero_of_small hlt (by
      by_cases h : remaining = 0
      · rw [(hexact h).1]
        linarith
      · linarith [(abs_le.mp (hround h).1).2]) (by omega)), nofun, nofun⟩
  · rename_i hlow
    obtain ⟨hf63, hf64, herror, hnear⟩ := spec_approximate hpos hlt (x := exponent + remaining)
      (by omega) (by omega) hexact hround
    exact Approximation.isGuess_round hf63 hf64 herror hnear
      (le_boundary_zero hlt (fun h => (hexact h).1) (fun h => ⟨(hround h).1, (hround h).2.1⟩) hf64
        herror hnear)

end Guess

end S4LibLite
