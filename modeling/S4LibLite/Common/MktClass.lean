import S4LibLite.Common.MktCodeTheorems

/-!
# Stocks, indices and funds (`isStk`, `isIdx` and `isFund` of `s4mktCode.cpp`)

Each classifier has a twin for market strings, which compares leading characters, and one
for market codes, which compares bounds; `pureCodeIsStk` is a third one for pure codes.

* `take_eq_fmtD0_iff`, leading digits as a quotient of the number;
* `mktCodeStrIsStk_iff` to `mktCodeIntIsFund_iff`, every classifier by market and number;
* `classifiers_agree_iff`, where the twins agree.
-/

namespace S4LibLite.MktCode

/-! ## Market strings -/

/-- `isStk` of a market string. -/
def mktCodeStrIsStk (mktCodeStr : Bytes) : Bool :=
  if mktCodeStr.length ≠ 8 then false
  else
    let leading := mktCodeStr.take 4
    leading == lit "sz00" || leading == lit "sz30" || leading == lit "sh60"

/-- `isIdx` of a market string. -/
def mktCodeStrIsIdx (mktCodeStr : Bytes) : Bool :=
  if mktCodeStr.length ≠ 8 then false
  else
    let leading := mktCodeStr.take 5
    if leading == lit "sz399" || leading == lit "sh000" then true
    else
      let leading := mktCodeStr.take 4
      leading == lit "sz98"

/-- `isFund` of a market string. -/
def mktCodeStrIsFund (mktCodeStr : Bytes) : Bool :=
  if mktCodeStr.length ≠ 8 then false
  else
    let leading := mktCodeStr.take 5
    if leading == lit "sh501" || leading == lit "sh502" || leading == lit "sh510" ||
        leading == lit "sh511" || leading == lit "sh512" || leading == lit "sh513" ||
        leading == lit "sh515" || leading == lit "sh516" || leading == lit "sh518" ||
        leading == lit "sh560" || leading == lit "sh561" || leading == lit "sh562" ||
        leading == lit "sh563" || leading == lit "sh588" then true
    else
      let leading := mktCodeStr.take 4
      leading == lit "sz16" || leading == lit "sz15"

/-! ## Market codes -/

/-- `isSZmkt`: the base itself is out. -/
def isSZmkt (mktCodeInt : UInt32) : Bool := szPRB < mktCodeInt && mktCodeInt < szPRB + prbMK

/-- `isSHmkt`: the base itself is out. -/
def isSHmkt (mktCodeInt : UInt32) : Bool := shPRB < mktCodeInt && mktCodeInt < shPRB + prbMK

/-- `isStk` of a market code. -/
def mktCodeIntIsStk (mktCodeInt : UInt32) : Bool :=
  if isSHmkt mktCodeInt then shPRB + 600000 ≤ mktCodeInt && mktCodeInt ≤ shPRB + 609999
  else if isSZmkt mktCodeInt then
    (szPRB ≤ mktCodeInt && mktCodeInt ≤ szPRB + 9999) ||
      (szPRB + 300000 ≤ mktCodeInt && mktCodeInt ≤ szPRB + 309999)
  else false

/-- `isIdx` of a market code. The upper bound of Shenzhen is one of Shanghai. -/
def mktCodeIntIsIdx (mktCodeInt : UInt32) : Bool :=
  if isSHmkt mktCodeInt then shPRB ≤ mktCodeInt && mktCodeInt ≤ shPRB + 999
  else if isSZmkt mktCodeInt then
    szPRB + 390000 ≤ mktCodeInt && mktCodeInt ≤ shPRB + 399999
  else false

/-- `isFund` of a market code. -/
def mktCodeIntIsFund (mktCodeInt : UInt32) : Bool :=
  if isSHmkt mktCodeInt then
    let code := (mktCodeInt - shPRB).toInt32.toInt
    (501000 ≤ code && code ≤ 502999) || (506000 ≤ code && code ≤ 506099) ||
      (510000 ≤ code && code ≤ 513999) || (515000 ≤ code && code ≤ 516999) ||
      (518000 ≤ code && code ≤ 518999) || (560000 ≤ code && code ≤ 563999) ||
      (588000 ≤ code && code ≤ 588499)
  else if isSZmkt mktCodeInt then
    let code := (mktCodeInt - szPRB).toInt32.toInt
    (160000 ≤ code && code ≤ 169999) || (159000 ≤ code && code ≤ 159999)
  else false

/-- `pureCodeIsStk`; the parameter is an `int`. -/
def pureCodeIsStk (pureCode : Int32) : Bool :=
  (600000 ≤ pureCode.toInt && pureCode.toInt ≤ 609999) ||
    (0 ≤ pureCode.toInt && pureCode.toInt ≤ 9999) ||
    (300000 ≤ pureCode.toInt && pureCode.toInt ≤ 309999)

/-! ## Leading digits -/

/-- The first `w` digits are those of `n` when the number lies in its decade. -/
theorem take_eq_fmtD0_iff {ds : Bytes} (hds : ∀ c ∈ ds, isDigit c = true) {w : ℕ}
    (hw : w ≤ ds.length) (n : ℕ) :
    ds.take w = fmtD0 w n ↔ decVal ds / 10 ^ (ds.length - w) = n := by
  have htake : ∀ c ∈ ds.take w, isDigit c = true := fun c hc => hds c (List.mem_of_mem_take hc)
  have hlen : (ds.take w).length = w := by rw [List.length_take, Nat.min_eq_left hw]
  have := eq_fmtD0_iff htake n
  rwa [hlen, decVal_take hds] at this

section
variable {ds : Bytes} (hlen : ds.length = 6) (hds : ∀ c ∈ ds, isDigit c = true)
include hlen hds

/-- Four leading characters of a market string. -/
theorem leading4_beq (m₀ m₁ p₀ p₁ : UInt8) (n : ℕ) :
    ((m₀ :: m₁ :: ds).take 4 == p₀ :: p₁ :: fmtD0 2 n)
      = decide (m₀ = p₀ ∧ m₁ = p₁ ∧ decVal ds / 10000 = n) := by
  have hn := take_eq_fmtD0_iff hds (w := 2) (by omega) n
  rw [hlen, show 10 ^ (6 - 2) = 10000 from rfl] at hn
  rw [Bool.eq_iff_iff, beq_iff_eq, decide_eq_true_eq]
  show m₀ :: m₁ :: ds.take 2 = _ ↔ _
  rw [List.cons.injEq, List.cons.injEq, hn]

/-- Five leading characters of a market string. -/
theorem leading5_beq (m₀ m₁ p₀ p₁ : UInt8) (n : ℕ) :
    ((m₀ :: m₁ :: ds).take 5 == p₀ :: p₁ :: fmtD0 3 n)
      = decide (m₀ = p₀ ∧ m₁ = p₁ ∧ decVal ds / 1000 = n) := by
  have hn := take_eq_fmtD0_iff hds (w := 3) (by omega) n
  rw [hlen, show 10 ^ (6 - 3) = 1000 from rfl] at hn
  rw [Bool.eq_iff_iff, beq_iff_eq, decide_eq_true_eq]
  show m₀ :: m₁ :: ds.take 3 = _ ↔ _
  rw [List.cons.injEq, List.cons.injEq, hn]

/-- `isStk` of a string, by market and number. -/
theorem mktCodeStrIsStk_iff (m₀ m₁ : UInt8) :
    mktCodeStrIsStk (m₀ :: m₁ :: ds) = true ↔
      m₀ = 115 ∧ ((m₁ = 122 ∧ (decVal ds / 10000 = 0 ∨ decVal ds / 10000 = 30)) ∨
        (m₁ = 104 ∧ decVal ds / 10000 = 60)) := by
  have hsize : (m₀ :: m₁ :: ds).length = 8 := by
    rw [List.length_cons, List.length_cons, hlen]
  have hlits : lit "sz00" = 115 :: 122 :: fmtD0 2 (0 : ℕ) ∧
      lit "sz30" = 115 :: 122 :: fmtD0 2 (30 : ℕ) ∧
      lit "sh60" = 115 :: 104 :: fmtD0 2 (60 : ℕ) := by decide
  unfold mktCodeStrIsStk
  rw [if_neg (not_not.mpr hsize)]
  simp only [hlits, leading4_beq hlen hds, Bool.or_eq_true, decide_eq_true_eq]
  tauto

/-- `isIdx` of a string, by market and number. -/
theorem mktCodeStrIsIdx_iff (m₀ m₁ : UInt8) :
    mktCodeStrIsIdx (m₀ :: m₁ :: ds) = true ↔
      m₀ = 115 ∧ ((m₁ = 122 ∧ (decVal ds / 1000 = 399 ∨ decVal ds / 10000 = 98)) ∨
        (m₁ = 104 ∧ decVal ds / 1000 = 0)) := by
  have hsize : (m₀ :: m₁ :: ds).length = 8 := by
    rw [List.length_cons, List.length_cons, hlen]
  have hlits : lit "sz399" = 115 :: 122 :: fmtD0 3 (399 : ℕ) ∧
      lit "sh000" = 115 :: 104 :: fmtD0 3 (0 : ℕ) ∧
      lit "sz98" = 115 :: 122 :: fmtD0 2 (98 : ℕ) := by decide
  unfold mktCodeStrIsIdx
  rw [if_neg (not_not.mpr hsize)]
  simp only [hlits, leading4_beq hlen hds, leading5_beq hlen hds, ite_eq_iff, Bool.or_eq_true,
    decide_eq_true_eq]
  by_cases hm₀ : m₀ = 115
  · by_cases hm₁ : m₁ = 122
    · simp only [hm₀, hm₁, true_and, show ((122 : UInt8) = 104) = False by decide, false_and,
        and_false, or_false, and_true]
      omega
    · simp [hm₀, hm₁]
  · simp [hm₀]

/-- `isFund` of a string, by market and number. -/
theorem mktCodeStrIsFund_iff (m₀ m₁ : UInt8) :
    mktCodeStrIsFund (m₀ :: m₁ :: ds) = true ↔
      m₀ = 115 ∧ ((m₁ = 104 ∧ decVal ds / 1000 ∈
          [501, 502, 510, 511, 512, 513, 515, 516, 518, 560, 561, 562, 563, 588]) ∨
        (m₁ = 122 ∧ (decVal ds / 10000 = 16 ∨ decVal ds / 10000 = 15))) := by
  have hsize : (m₀ :: m₁ :: ds).length = 8 := by
    rw [List.length_cons, List.length_cons, hlen]
  -- the literals of the source, as market and first digits
  have hsh : lit "sh501" = 115 :: 104 :: fmtD0 3 (501 : ℕ) ∧
      lit "sh502" = 115 :: 104 :: fmtD0 3 (502 : ℕ) ∧
      lit "sh510" = 115 :: 104 :: fmtD0 3 (510 : ℕ) ∧
      lit "sh511" = 115 :: 104 :: fmtD0 3 (511 : ℕ) ∧
      lit "sh512" = 115 :: 104 :: fmtD0 3 (512 : ℕ) ∧
      lit "sh513" = 115 :: 104 :: fmtD0 3 (513 : ℕ) ∧
      lit "sh515" = 115 :: 104 :: fmtD0 3 (515 : ℕ) ∧
      lit "sh516" = 115 :: 104 :: fmtD0 3 (516 : ℕ) ∧
      lit "sh518" = 115 :: 104 :: fmtD0 3 (518 : ℕ) ∧
      lit "sh560" = 115 :: 104 :: fmtD0 3 (560 : ℕ) ∧
      lit "sh561" = 115 :: 104 :: fmtD0 3 (561 : ℕ) ∧
      lit "sh562" = 115 :: 104 :: fmtD0 3 (562 : ℕ) ∧
      lit "sh563" = 115 :: 104 :: fmtD0 3 (563 : ℕ) ∧
      lit "sh588" = 115 :: 104 :: fmtD0 3 (588 : ℕ) := by decide
  have hsz : lit "sz16" = 115 :: 122 :: fmtD0 2 (16 : ℕ) ∧
      lit "sz15" = 115 :: 122 :: fmtD0 2 (15 : ℕ) := by decide
  unfold mktCodeStrIsFund
  rw [if_neg (not_not.mpr hsize)]
  simp only [hsh, hsz, leading4_beq hlen hds, leading5_beq hlen hds, ite_eq_iff, Bool.or_eq_true,
    decide_eq_true_eq, List.mem_cons, List.not_mem_nil, or_false]
  by_cases hm₀ : m₀ = 115
  · by_cases hm₁ : m₁ = 104
    · simp only [hm₀, hm₁, true_and, and_true, false_and, and_false, or_false,
        show ((104 : UInt8) = 122) = False by decide, or_assoc]
    · simp only [hm₀, hm₁, true_and, and_true, false_and, or_false, false_or, not_false_eq_true]
      exact and_or_left.symm
  · simp only [hm₀, false_and, or_false, and_false]

end

/-! ## Bounds -/

theorem isSHmkt_iff {n : UInt32} :
    isSHmkt n = true ↔ 1700000000 < n.toNat ∧ n.toNat < 1799999999 := by
  rw [isSHmkt, Bool.and_eq_true, decide_eq_true_eq, decide_eq_true_eq, UInt32.lt_iff_toNat_lt,
    UInt32.lt_iff_toNat_lt]
  rfl

theorem isSZmkt_iff {n : UInt32} :
    isSZmkt n = true ↔ 3300000000 < n.toNat ∧ n.toNat < 3399999999 := by
  rw [isSZmkt, Bool.and_eq_true, decide_eq_true_eq, decide_eq_true_eq, UInt32.lt_iff_toNat_lt,
    UInt32.lt_iff_toNat_lt]
  rfl

/-- Bounds on a market code, as the classifiers write them. -/
theorem bounds_iff {lo hi n : UInt32} :
    (lo ≤ n && n ≤ hi) = true ↔ lo.toNat ≤ n.toNat ∧ n.toNat ≤ hi.toNat := by
  rw [Bool.and_eq_true, decide_eq_true_eq, decide_eq_true_eq, UInt32.le_iff_toNat_le,
    UInt32.le_iff_toNat_le]

/-- What a classifier answers, market by market. -/
theorem byMarket_iff {n : UInt32} {sh sz : Bool} :
    (if isSHmkt n = true then sh else if isSZmkt n = true then sz else false) = true ↔
      (1700000000 < n.toNat ∧ n.toNat < 1799999999 ∧ sh = true) ∨
        (3300000000 < n.toNat ∧ n.toNat < 3399999999 ∧ sz = true) := by
  have hsh := isSHmkt_iff (n := n)
  have hsz := isSZmkt_iff (n := n)
  split_ifs with h h'
  · rw [iff_true_left h] at hsh
    rw [or_iff_left (by omega), and_iff_right hsh.1, and_iff_right hsh.2]
  · rw [iff_true_left h'] at hsz
    rw [or_iff_right (by omega), and_iff_right hsz.1, and_iff_right hsz.2]
  · rw [iff_false_left h] at hsh
    rw [iff_false_left h'] at hsz
    exact iff_of_false not_false (by omega)

theorem mktCodeIntIsStk_iff {n : UInt32} :
    mktCodeIntIsStk n = true ↔ (1700600000 ≤ n.toNat ∧ n.toNat ≤ 1700609999) ∨
      (3300000000 < n.toNat ∧ n.toNat ≤ 3300009999) ∨
      (3300300000 ≤ n.toNat ∧ n.toNat ≤ 3300309999) := by
  have hsh : (shPRB + 600000 ≤ n && n ≤ shPRB + 609999) = true ↔
      1700600000 ≤ n.toNat ∧ n.toNat ≤ 1700609999 := bounds_iff
  have hsz : (szPRB ≤ n && n ≤ szPRB + 9999) = true ↔
      3300000000 ≤ n.toNat ∧ n.toNat ≤ 3300009999 := bounds_iff
  have hsz' : (szPRB + 300000 ≤ n && n ≤ szPRB + 309999) = true ↔
      3300300000 ≤ n.toNat ∧ n.toNat ≤ 3300309999 := bounds_iff
  rw [mktCodeIntIsStk, byMarket_iff, Bool.or_eq_true, hsh, hsz, hsz']
  omega

/-- No Shenzhen code is an index. -/
theorem mktCodeIntIsIdx_iff {n : UInt32} :
    mktCodeIntIsIdx n = true ↔ 1700000000 < n.toNat ∧ n.toNat ≤ 1700000999 := by
  have hsh : (shPRB ≤ n && n ≤ shPRB + 999) = true ↔
      1700000000 ≤ n.toNat ∧ n.toNat ≤ 1700000999 := bounds_iff
  have hsz : (szPRB + 390000 ≤ n && n ≤ shPRB + 399999) = true ↔
      3300390000 ≤ n.toNat ∧ n.toNat ≤ 1700399999 := bounds_iff
  rw [mktCodeIntIsIdx, byMarket_iff, hsh, hsz]
  omega

theorem mktCodeIntIsFund_iff {n : UInt32} :
    mktCodeIntIsFund n = true ↔
      (1700501000 ≤ n.toNat ∧ n.toNat ≤ 1700502999) ∨
        (1700506000 ≤ n.toNat ∧ n.toNat ≤ 1700506099) ∨
        (1700510000 ≤ n.toNat ∧ n.toNat ≤ 1700513999) ∨
        (1700515000 ≤ n.toNat ∧ n.toNat ≤ 1700516999) ∨
        (1700518000 ≤ n.toNat ∧ n.toNat ≤ 1700518999) ∨
        (1700560000 ≤ n.toNat ∧ n.toNat ≤ 1700563999) ∨
        (1700588000 ≤ n.toNat ∧ n.toNat ≤ 1700588499) ∨
        (3300159000 ≤ n.toNat ∧ n.toNat ≤ 3300169999) := by
  have hsh (hlo : 1700000000 < n.toNat) (hhi : n.toNat < 1799999999) :
      (n - shPRB).toInt32.toInt = n.toNat - 1700000000 :=
    toInt_sub_base (inMarket_sh_iff.mpr (by omega)) (by decide)
  have hsz (hlo : 3300000000 < n.toNat) (hhi : n.toNat < 3399999999) :
      (n - szPRB).toInt32.toInt = n.toNat - 3300000000 :=
    toInt_sub_base (inMarket_sz_iff.mpr (by omega)) (by decide)
  rw [mktCodeIntIsFund, byMarket_iff]
  simp only [Bool.or_eq_true, Bool.and_eq_true, decide_eq_true_eq, and_or_left, or_assoc]
  -- interval by interval
  refine or_congr ?_ (or_congr ?_ (or_congr ?_ (or_congr ?_ (or_congr ?_ (or_congr ?_
    (or_congr ?_ ?_))))))
  all_goals omega

/-! ## The twins -/

/-- Where the two codings of the exchange tables differ, by market and number. Stocks and
indices differ at the base of a market, which the bounds leave out; the indices of
Shenzhen, whose upper bound is one of Shanghai; and funds where the prefixes are cut to
other lengths than the intervals. -/
def TablesDiffer (s : Bytes) : Prop :=
  (lit "sh" <+: s ∧ (decVal (s.drop 2) = 0 ∨
      (506000 ≤ decVal (s.drop 2) ∧ decVal (s.drop 2) ≤ 506099) ∨
      (588500 ≤ decVal (s.drop 2) ∧ decVal (s.drop 2) ≤ 588999))) ∨
    (lit "sz" <+: s ∧ (decVal (s.drop 2) = 0 ∨
      (150000 ≤ decVal (s.drop 2) ∧ decVal (s.drop 2) ≤ 158999) ∨
      (399000 ≤ decVal (s.drop 2) ∧ decVal (s.drop 2) ≤ 399999) ∨
      (980000 ≤ decVal (s.drop 2) ∧ decVal (s.drop 2) ≤ 989999)))

/-- The three classifiers of a string, and those of a code. -/
def StrIntAgree (s : Bytes) (n : UInt32) : Prop :=
  mktCodeStrIsStk s = mktCodeIntIsStk n ∧ mktCodeStrIsIdx s = mktCodeIntIsIdx n ∧
    mktCodeStrIsFund s = mktCodeIntIsFund n

section
variable {ds : Bytes} (hlen : ds.length = 6) (hds : ∀ c ∈ ds, isDigit c = true)
include hlen hds

/-- The twins on Shanghai strings. -/
theorem strIntAgree_sh :
    StrIntAgree (115 :: 104 :: ds) (shPRB + UInt32.ofNat (decVal ds)) ↔
      ¬ (decVal ds = 0 ∨ (506000 ≤ decVal ds ∧ decVal ds ≤ 506099) ∨
        (588500 ≤ decVal ds ∧ decVal ds ≤ 588999)) := by
  obtain ⟨hval, -, hlt⟩ := base_add_decVal shPRB (by decide) hlen hds
  have hprb : shPRB.toNat = 1700000000 := rfl
  apply (and_congr Bool.eq_iff_iff (and_congr Bool.eq_iff_iff Bool.eq_iff_iff)).trans
  simp only [mktCodeStrIsStk_iff hlen hds, mktCodeStrIsIdx_iff hlen hds,
    mktCodeStrIsFund_iff hlen hds, mktCodeIntIsStk_iff, mktCodeIntIsIdx_iff,
    mktCodeIntIsFund_iff, hval, hprb, show ((104 : UInt8) = 122) = False by decide,
    List.mem_cons, List.not_mem_nil, true_and, false_and, false_or, or_false]
  constructor
  · intro h
    obtain ⟨-, hidx, hfund⟩ := h
    omega
  · intro h
    refine ⟨by omega, by omega, ?_⟩
    constructor <;> intro h' <;> omega

/-- The twins on Shenzhen strings. -/
theorem strIntAgree_sz :
    StrIntAgree (115 :: 122 :: ds) (szPRB + UInt32.ofNat (decVal ds)) ↔
      ¬ (decVal ds = 0 ∨ (150000 ≤ decVal ds ∧ decVal ds ≤ 158999) ∨
        (399000 ≤ decVal ds ∧ decVal ds ≤ 399999) ∨
        (980000 ≤ decVal ds ∧ decVal ds ≤ 989999)) := by
  obtain ⟨hval, -, hlt⟩ := base_add_decVal szPRB (by decide) hlen hds
  have hprb : szPRB.toNat = 3300000000 := rfl
  apply (and_congr Bool.eq_iff_iff (and_congr Bool.eq_iff_iff Bool.eq_iff_iff)).trans
  simp only [mktCodeStrIsStk_iff hlen hds, mktCodeStrIsIdx_iff hlen hds,
    mktCodeStrIsFund_iff hlen hds, mktCodeIntIsStk_iff, mktCodeIntIsIdx_iff,
    mktCodeIntIsFund_iff, hval, hprb, show ((122 : UInt8) = 104) = False by decide,
    true_and, false_and, false_or, or_false]
  constructor
  · intro h
    obtain ⟨hstk, hidx, hfund⟩ := h
    omega
  · intro h
    refine ⟨by omega, by omega, by omega⟩

end

/-- The twins on canonical strings. -/
theorem strIntAgree_iff {s : Bytes} {n : UInt32} (hs : IsCanonical s)
    (hn : mktCodeStrToMktCodeInt s = .ok n) : StrIntAgree s n ↔ ¬ TablesDiffer s := by
  obtain ⟨m, ds, hm, rfl, hlen, hds⟩ := hs
  have hdrop : ∀ m₀ m₁ : UInt8, ([m₀, m₁] ++ ds).drop 2 = ds := fun _ _ => rfl
  rcases hm with rfl | rfl
  · have hpre : ¬ lit "sz" <+: lit "sh" ++ ds := not_sz_isPrefix_sh ds
    rw [mktCodeStrToMktCodeInt_sh hds, Except.ok.injEq] at hn
    rw [← hn]
    apply (strIntAgree_sh hlen hds).trans
    rw [TablesDiffer, show lit "sh" = [115, 104] from rfl, hdrop]
    simp only [List.prefix_append, true_and, hpre, false_and, or_false,
      show ([115, 104] : Bytes) = lit "sh" from rfl]
  · have hpre : ¬ lit "sh" <+: lit "sz" ++ ds := not_sh_isPrefix_sz ds
    rw [mktCodeStrToMktCodeInt_sz hds, Except.ok.injEq] at hn
    rw [← hn]
    apply (strIntAgree_sz hlen hds).trans
    rw [TablesDiffer, show lit "sz" = [115, 122] from rfl, hdrop]
    simp only [List.prefix_append, true_and, hpre, false_and, false_or,
      show ([115, 122] : Bytes) = lit "sz" from rfl]

/-- A pure code is a stock when its market code is, but for the base of Shenzhen. -/
theorem pureCodeIsStk_iff {p n : UInt32} (hn : pureCodeIntToMktCodeInt p = .ok n) :
    pureCodeIsStk p.toInt32 = mktCodeIntIsStk n ↔ p ≠ 0 := by
  have hzero : p ≠ 0 ↔ p.toNat ≠ 0 := by
    rw [not_iff_not, ← UInt32.toNat_inj]
    rfl
  have hsh : shPRB.toNat = 1700000000 := rfl
  have hsz : szPRB.toNat = 3300000000 := rfl
  have hlt : p.toNat < 10 ^ 8 := by
    rcases pureCodeIntToMktCodeInt_eq_ok_iff.mp hn with h | h <;> omega
  have hstk : pureCodeIsStk p.toInt32 = true ↔ (600000 ≤ p.toNat ∧ p.toNat ≤ 609999) ∨
      p.toNat ≤ 9999 ∨ (300000 ≤ p.toNat ∧ p.toNat ≤ 309999) := by
    simp only [pureCodeIsStk, toInt_toInt32 hlt, Bool.or_eq_true, Bool.and_eq_true,
      decide_eq_true_eq]
    omega
  rw [Bool.eq_iff_iff, hstk, mktCodeIntIsStk_iff, hzero]
  rcases pureCodeIntToMktCodeInt_eq_ok_iff.mp hn with ⟨hmin, hmax, rfl⟩ | ⟨hmax, rfl⟩
  · rw [UInt32.toNat_add, hsh, Nat.mod_eq_of_lt (by omega)]
    omega
  · rw [UInt32.toNat_add, hsz, Nat.mod_eq_of_lt (by omega)]
    omega

/-- **The classifiers of strings, market codes and pure codes.** On a canonical string the
classifiers of the string and of its code agree exactly outside the numbers where the two
tables differ; a pure code and its market code disagree at zero only. -/
theorem classifiers_agree_iff (s : Bytes) (p n m : UInt32) :
    (IsCanonical s → mktCodeStrToMktCodeInt s = .ok n →
      ((mktCodeStrIsStk s = mktCodeIntIsStk n ∧ mktCodeStrIsIdx s = mktCodeIntIsIdx n ∧
        mktCodeStrIsFund s = mktCodeIntIsFund n) ↔ ¬ TablesDiffer s)) ∧
      (pureCodeIntToMktCodeInt p = .ok m →
        (pureCodeIsStk p.toInt32 = mktCodeIntIsStk m ↔ p ≠ 0)) :=
  ⟨fun hs hn => strIntAgree_iff hs hn, fun hm => pureCodeIsStk_iff hm⟩

theorem classifiers_agree_600997 :
    mktCodeStrIsStk (lit "sh600997") = mktCodeIntIsStk 1700600997 ∧
      pureCodeIsStk 600997 = mktCodeIntIsStk 1700600997 := by
  have h : IsCanonical (lit "sh600997") :=
    ⟨lit "sh", lit "600997", Or.inl rfl, rfl, rfl, List.all_eq_true.mp rfl⟩
  have hd : ¬ TablesDiffer (lit "sh600997") := by
    have hdec : decVal ((lit "sh600997").drop 2) = 600997 := by decide
    have hpre : ¬ lit "sz" <+: lit "sh600997" := by decide
    simp [TablesDiffer, hdec, hpre]
  have hagree := classifiers_agree_iff (lit "sh600997") 600997 1700600997 1700600997
  exact ⟨((hagree.1 h (by decide)).mpr hd).1, (hagree.2 (by decide)).mpr (by decide)⟩

/-- `"sz399001"`, the component index of Shenzhen, is an index as a string and not as a
code. -/
theorem classifiers_disagree_sz399001 :
    ¬ ((∀ s n, IsCanonical s → mktCodeStrToMktCodeInt s = .ok n →
        (mktCodeStrIsStk s = mktCodeIntIsStk n ∧ mktCodeStrIsIdx s = mktCodeIntIsIdx n ∧
          mktCodeStrIsFund s = mktCodeIntIsFund n)) ∧
      ∀ p n, pureCodeIntToMktCodeInt p = .ok n →
        pureCodeIsStk p.toInt32 = mktCodeIntIsStk n) := by
  intro hall
  have h : IsCanonical (lit "sz399001") :=
    ⟨lit "sz", lit "399001", Or.inr rfl, rfl, rfl, List.all_eq_true.mp rfl⟩
  have hidx := (hall.1 (lit "sz399001") 3300399001 h (by decide)).2.1
  exact absurd hidx (by decide)

end S4LibLite.MktCode
