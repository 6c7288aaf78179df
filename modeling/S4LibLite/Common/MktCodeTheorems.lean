import S4LibLite.Common.MktCode

/-!
# Conversions between the spellings of a security

Every conversion prints or reads at most eight decimal digits, so no buffer is too
small and no `uint32_t` wraps.

* `parseDigits_digits`, the digit loop of the parsers computes the number modulo `2^32`;
* `mktCodeIntToMktCodeStr_eq`, the formatter never truncates;
* `mktCodeInt_mktCodeStr_roundtrip`, reading a printed market code gives the code back;
* `mktCodeStr_mktCodeInt_roundtrip_iff`, printing a parsed market string gives the string
  back on MSVC, and elsewhere for Shanghai only;
* `pureCode_mktCode_consistent`, pure codes never cross markets.
-/

namespace S4LibLite.MktCode

/-! ## The digit loop of the parsers -/

/-- One step of the loop on a digit character. -/
theorem parseDigits_step {v : ℕ} {c : UInt8} (hc : isDigit c = true) :
    UInt32.ofNat v * 10 + charToUInt32 c - 48 = UInt32.ofNat (v * 10 + digitVal c) := by
  rw [charToUInt32_of_isDigit hc, UInt32.ofNat_add, UInt32.ofNat_add, UInt32.ofNat_mul]
  show UInt32.ofNat v * 10 + (48 + UInt32.ofNat (digitVal c)) - 48
    = UInt32.ofNat v * 10 + UInt32.ofNat (digitVal c)
  grind

/-- Behind the two characters of the market, the parsers compute the number the digits
denote, modulo `2^32`. -/
theorem parseDigits_digits (m₀ m₁ : UInt8) {ds : Bytes} (h : ∀ c ∈ ds, isDigit c = true) :
    parseDigits (m₀ :: m₁ :: ds) = UInt32.ofNat (decVal ds) := by
  unfold parseDigits
  -- the market is dropped, and the loop is a fold from the left
  show ds.foldl (fun c ch => c * 10 + charToUInt32 ch - 48) 0 = _
  induction ds using List.reverseRecOn with
  | nil => rfl
  | append_singleton ds c ih =>
    have hds : ∀ c ∈ ds, isDigit c = true := fun c hc => h c (List.mem_append_left _ hc)
    have hc : isDigit c = true := h c (List.mem_append_right _ (List.mem_singleton_self c))
    rw [List.foldl_append, ih hds, List.foldl_cons, List.foldl_nil, parseDigits_step hc,
      decVal_append_singleton]

theorem mktCodeStrToMktCodeInt_sh {ds : Bytes} (h : ∀ c ∈ ds, isDigit c = true) :
    mktCodeStrToMktCodeInt (lit "sh" ++ ds) = .ok (shPRB + UInt32.ofNat (decVal ds)) := by
  rw [← parseDigits_digits 115 104 h]
  rfl

theorem mktCodeStrToMktCodeInt_sz {ds : Bytes} (h : ∀ c ∈ ds, isDigit c = true) :
    mktCodeStrToMktCodeInt (lit "sz" ++ ds) = .ok (szPRB + UInt32.ofNat (decVal ds)) := by
  rw [← parseDigits_digits 115 122 h]
  rfl

/-! ## Market ranges -/

theorem inMarket_sh_iff {c : UInt32} :
    inMarket shPRB c = true ↔ 1700000000 ≤ c.toNat ∧ c.toNat ≤ 1799999999 := by
  rw [inMarket, Bool.and_eq_true, decide_eq_true_eq, decide_eq_true_eq, UInt32.le_iff_toNat_le,
    UInt32.le_iff_toNat_le]
  rfl

theorem inMarket_sz_iff {c : UInt32} :
    inMarket szPRB c = true ↔ 3300000000 ≤ c.toNat ∧ c.toNat ≤ 3399999999 := by
  rw [inMarket, Bool.and_eq_true, decide_eq_true_eq, decide_eq_true_eq, UInt32.le_iff_toNat_le,
    UInt32.le_iff_toNat_le]
  rfl

/-- The part of a market code behind its base: at most eight digits, with or without a
detour through `int`. -/
theorem sub_base {prb c : UInt32} (h : inMarket prb c = true) (hprb : prb.toNat ≤ 3300000000) :
    (c - prb).toNat = c.toNat - prb.toNat ∧ (c - prb).toNat < 10 ^ 8 := by
  rw [inMarket, Bool.and_eq_true, decide_eq_true_eq, decide_eq_true_eq, UInt32.le_iff_toNat_le,
    UInt32.le_iff_toNat_le, UInt32.toNat_add] at h
  have hmk : prbMK.toNat = 99999999 := rfl
  have hsub : (c - prb).toNat = c.toNat - prb.toNat :=
    UInt32.toNat_sub_of_le c prb (UInt32.le_iff_toNat_le.mpr h.1)
  rw [hmk, Nat.mod_eq_of_lt (by omega)] at h
  omega

theorem toInt_toInt32 {c : UInt32} (h : c.toNat < 10 ^ 8) : c.toInt32.toInt = c.toNat := by
  have hofNat : c.toInt32 = Int32.ofNat c.toNat := by
    rw [← UInt32.toInt32_ofNat', UInt32.ofNat_toNat]
  rw [hofNat, Int32.toInt_ofNat_of_lt (by omega)]

/-- The number of a security, as an `int`. -/
theorem toInt_sub_base {prb c : UInt32} (h : inMarket prb c = true)
    (hprb : prb.toNat ≤ 3300000000) : (c - prb).toInt32.toInt = (c.toNat : ℤ) - prb.toNat := by
  obtain ⟨hsub, hlt⟩ := sub_base h hprb
  have hle : prb.toNat ≤ c.toNat := by
    rw [inMarket, Bool.and_eq_true, decide_eq_true_eq, UInt32.le_iff_toNat_le] at h
    exact h.1
  rw [toInt_toInt32 hlt, hsub, Nat.cast_sub hle]

theorem base_add_sub (prb c : UInt32) : prb + UInt32.ofNat (c - prb).toNat = c := by
  rw [UInt32.ofNat_toNat]
  grind

/-! ## Market codes and market strings -/

/-- The text `mktCodeInt_to_mktCodeStr` formats. -/
def formatMktCode (cc : Compiler) (mktCode : UInt32) : Bytes :=
  if inMarket shPRB mktCode then lit "sh" ++ fmtD0 6 (mktCode - shPRB).toNat
  else
    match cc with
    | .msvc => lit "sz" ++ fmtD0 6 (mktCode - szPRB).toNat
    | .other => lit "sz" ++ fmtD0 8 (mktCode - szPRB).toNat

/-- The formatter prints its text into eleven bytes, or rejects the code. -/
theorem mktCodeIntToMktCodeStr_eq (cc : Compiler) (c : UInt32) :
    mktCodeIntToMktCodeStr cc c
      = if inMarket shPRB c ∨ inMarket szPRB c then printInto cc 11 (formatMktCode cc c)
        else .error (.codeNameConvert (lit "unkonw code :" ++ mktCodeText c)) := by
  unfold mktCodeIntToMktCodeStr formatMktCode
  by_cases hsh : inMarket shPRB c = true
  · have hint := toInt_toInt32 (sub_base hsh (by decide)).2
    rw [if_pos hsh, if_pos hsh, if_pos (Or.inl hsh)]
    cases cc <;> simp only [hint]
  · by_cases hsz : inMarket szPRB c = true
    · have hint := toInt_toInt32 (sub_base hsz (by decide)).2
      rw [if_neg hsh, if_neg hsh, if_pos hsz, if_pos (Or.inr hsz)]
      cases cc <;> simp only [hint]
    · rw [if_neg hsh, if_neg hsz, if_neg (by tauto)]

theorem length_lit_append_fmtD0 {m : Bytes} (hm : m.length = 2) {w n : ℕ} (hw : w ≤ 8)
    (hn : n < 10 ^ 8) : (m ++ fmtD0 w n).length < 11 := by
  have := length_fmtD0_le hw hn
  rw [List.length_append, hm]
  omega

/-- The formatted text of an accepted code fits its buffer. -/
theorem length_formatMktCode {cc : Compiler} {c : UInt32}
    (h : inMarket shPRB c ∨ inMarket szPRB c) : (formatMktCode cc c).length < 11 := by
  unfold formatMktCode
  by_cases hsh : inMarket shPRB c = true
  · rw [if_pos hsh]
    exact length_lit_append_fmtD0 rfl (by omega) (sub_base hsh (by decide)).2
  · have hlt := (sub_base (h.resolve_left hsh) (by decide)).2
    rw [if_neg hsh]
    cases cc
    · exact length_lit_append_fmtD0 rfl (by omega) hlt
    · exact length_lit_append_fmtD0 rfl le_rfl hlt

theorem printInto_of_lt {cc : Compiler} {size : ℕ} {text : Bytes} (h : text.length < size) :
    printInto cc size text = .ok text := by
  unfold printInto
  cases cc
  · exact if_pos h
  · rw [snprintf_of_lt h]

/-- Reading a formatted code. -/
theorem mktCodeStrToMktCodeInt_formatMktCode (cc : Compiler) (c : UInt32) :
    mktCodeStrToMktCodeInt (formatMktCode cc c) = .ok c := by
  have hsz : ∀ w, mktCodeStrToMktCodeInt (lit "sz" ++ fmtD0 w (c - szPRB).toNat) = .ok c := by
    intro w
    rw [mktCodeStrToMktCodeInt_sz fun _ h => isDigit_of_mem_fmtD0 h, decVal_fmtD0, base_add_sub]
  unfold formatMktCode
  by_cases hsh : inMarket shPRB c = true
  · rw [if_pos hsh, mktCodeStrToMktCodeInt_sh fun _ h => isDigit_of_mem_fmtD0 h, decVal_fmtD0,
      base_add_sub]
  · rw [if_neg hsh]
    cases cc
    · exact hsz 6
    · exact hsz 8

/-- A code is accepted exactly in the two market ranges. -/
theorem mktCodeIntToMktCodeStr_eq_ok_iff {cc : Compiler} {c : UInt32} {s : Bytes} :
    mktCodeIntToMktCodeStr cc c = .ok s ↔
      (inMarket shPRB c ∨ inMarket szPRB c) ∧ s = formatMktCode cc c := by
  rw [mktCodeIntToMktCodeStr_eq]
  by_cases h : inMarket shPRB c = true ∨ inMarket szPRB c = true
  · rw [if_pos h, printInto_of_lt (length_formatMktCode h), Except.ok.injEq, eq_comm]
    tauto
  · rw [if_neg h]
    simp [h]

/-- **Printing and reading market codes.** The codes of the two market ranges, and no
others, are accepted; the text of an accepted code fits its buffer of eleven bytes, the
parser gives the code back, and no other code prints as this text. -/
theorem mktCodeInt_mktCodeStr_roundtrip (cc : Compiler) (c : UInt32) :
    ((∃ s, mktCodeIntToMktCodeStr cc c = .ok s) ↔
        (shPRB.toNat ≤ c.toNat ∧ c.toNat ≤ shPRB.toNat + prbMK.toNat) ∨
          (szPRB.toNat ≤ c.toNat ∧ c.toNat ≤ szPRB.toNat + prbMK.toNat)) ∧
      ∀ s, mktCodeIntToMktCodeStr cc c = .ok s →
        mktCodeIntToMktCodeStr cc c = printInto cc 11 (formatMktCode cc c) ∧
        (formatMktCode cc c).length + 1 ≤ 11 ∧
        mktCodeStrToMktCodeInt s = .ok c ∧
        ∀ c', mktCodeIntToMktCodeStr cc c' = .ok s → c' = c := by
  constructor
  · simp only [mktCodeIntToMktCodeStr_eq_ok_iff, exists_and_left, exists_eq, and_true]
    rw [inMarket_sh_iff, inMarket_sz_iff]
    rfl
  · intro s hs
    obtain ⟨hc, rfl⟩ := mktCodeIntToMktCodeStr_eq_ok_iff.mp hs
    refine ⟨?_, length_formatMktCode hc, mktCodeStrToMktCodeInt_formatMktCode cc c, ?_⟩
    · rw [mktCodeIntToMktCodeStr_eq, if_pos hc]
    · intro c' hc'
      have heq := (mktCodeIntToMktCodeStr_eq_ok_iff.mp hc').2
      -- the parser gives one code for a text
      have hread : (Except.ok c : Except CodeError UInt32) = .ok c' := by
        rw [← mktCodeStrToMktCodeInt_formatMktCode cc c, heq,
          mktCodeStrToMktCodeInt_formatMktCode]
      exact (Except.ok.inj hread).symm

theorem mktCodeInt_mktCodeStr_roundtrip_600997 :
    mktCodeStrToMktCodeInt (lit "sh600997") = .ok 1700600997 :=
  ((mktCodeInt_mktCodeStr_roundtrip .other 1700600997).2 (lit "sh600997") (by decide)).2.2.1

/-! ## Canonical market strings -/

/-- `"sh"` or `"sz"`, and six digits. -/
def IsCanonical (s : Bytes) : Prop :=
  ∃ m ds, (m = lit "sh" ∨ m = lit "sz") ∧ s = m ++ ds ∧ ds.length = 6 ∧
    ∀ c ∈ ds, isDigit c = true

/-- A market code made of a base and the number six digits denote. -/
theorem base_add_decVal (prb : UInt32) (hprb : prb.toNat ≤ 3300000000) {ds : Bytes}
    (hlen : ds.length = 6) (hds : ∀ c ∈ ds, isDigit c = true) :
    (prb + UInt32.ofNat (decVal ds)).toNat = prb.toNat + decVal ds ∧
      (prb + UInt32.ofNat (decVal ds) - prb).toNat = decVal ds ∧ decVal ds < 10 ^ 6 := by
  have hlt : decVal ds < 10 ^ 6 := by
    have := decVal_lt hds
    rwa [hlen] at this
  have hofNat : (UInt32.ofNat (decVal ds)).toNat = decVal ds :=
    UInt32.toNat_ofNat_of_lt' (by show decVal ds < 2 ^ 32; omega)
  refine ⟨?_, ?_, hlt⟩
  · rw [UInt32.toNat_add, hofNat, Nat.mod_eq_of_lt (by omega)]
  · rw [show prb + UInt32.ofNat (decVal ds) - prb = UInt32.ofNat (decVal ds) by grind, hofNat]

/-- Six digits are printed as they were read. -/
theorem fmtD0_decVal_six {ds : Bytes} (hlen : ds.length = 6)
    (hds : ∀ c ∈ ds, isDigit c = true) : fmtD0 6 (decVal ds) = ds := by
  have := fmtD0_decVal hds
  rwa [hlen] at this

/-- A canonical Shanghai string comes back: both compilers pad to six digits. -/
theorem mktCodeInt_roundtrip_sh (cc : Compiler) {ds : Bytes} (hlen : ds.length = 6)
    (hds : ∀ c ∈ ds, isDigit c = true) :
    (mktCodeStrToMktCodeInt (lit "sh" ++ ds) >>= mktCodeIntToMktCodeStr cc)
      = .ok (lit "sh" ++ ds) := by
  obtain ⟨hval, hsub, hlt⟩ := base_add_decVal shPRB (by decide) hlen hds
  have hin : inMarket shPRB (shPRB + UInt32.ofNat (decVal ds)) = true := by
    rw [inMarket_sh_iff, hval, show shPRB.toNat = 1700000000 from rfl]
    omega
  rw [mktCodeStrToMktCodeInt_sh hds]
  show mktCodeIntToMktCodeStr cc _ = _
  rw [mktCodeIntToMktCodeStr_eq_ok_iff]
  refine ⟨Or.inl hin, ?_⟩
  unfold formatMktCode
  rw [if_pos hin, hsub, fmtD0_decVal_six hlen hds]

/-- What a canonical Shenzhen string comes back as: its six digits on MSVC, eight digits
elsewhere. -/
theorem mktCodeInt_roundtrip_sz (cc : Compiler) {ds : Bytes} (hlen : ds.length = 6)
    (hds : ∀ c ∈ ds, isDigit c = true) :
    (mktCodeStrToMktCodeInt (lit "sz" ++ ds) >>= mktCodeIntToMktCodeStr cc)
      = .ok (lit "sz" ++ match cc with
          | .msvc => ds
          | .other => fmtD0 8 (decVal ds)) := by
  obtain ⟨hval, hsub, hlt⟩ := base_add_decVal szPRB (by decide) hlen hds
  have hprb : szPRB.toNat = 3300000000 := rfl
  have hin : inMarket szPRB (szPRB + UInt32.ofNat (decVal ds)) = true := by
    rw [inMarket_sz_iff, hval]
    omega
  have hout : ¬ inMarket shPRB (szPRB + UInt32.ofNat (decVal ds)) = true := by
    rw [inMarket_sh_iff, hval]
    omega
  rw [mktCodeStrToMktCodeInt_sz hds]
  show mktCodeIntToMktCodeStr cc _ = _
  rw [mktCodeIntToMktCodeStr_eq_ok_iff]
  refine ⟨Or.inr hin, ?_⟩
  unfold formatMktCode
  rw [if_neg hout, hsub]
  cases cc with
  | msvc => rw [fmtD0_decVal_six hlen hds]
  | other => rfl

/-- The two prefixes differ in their second byte. -/
theorem not_sh_isPrefix_sz (ds : Bytes) : ¬ lit "sh" <+: lit "sz" ++ ds := by
  intro hp
  obtain ⟨t, ht⟩ := hp
  have := congrArg (fun l => l.getD 1 0) ht
  exact absurd this (by show (104 : UInt8) ≠ 122; decide)

theorem not_sz_isPrefix_sh (ds : Bytes) : ¬ lit "sz" <+: lit "sh" ++ ds := by
  intro hp
  obtain ⟨t, ht⟩ := hp
  have := congrArg (fun l => l.getD 1 0) ht
  exact absurd this (by show (122 : UInt8) ≠ 104; decide)

/-- **Reading and printing canonical strings.** The string comes back on MSVC; elsewhere
it does so for Shanghai, and never for Shenzhen, whose format pads to eight digits. -/
theorem mktCodeStr_mktCodeInt_roundtrip_iff (cc : Compiler) {s : Bytes} (h : IsCanonical s) :
    (mktCodeStrToMktCodeInt s >>= mktCodeIntToMktCodeStr cc) = .ok s ↔
      cc = .msvc ∨ lit "sh" <+: s := by
  obtain ⟨m, ds, hm, rfl, hlen, hds⟩ := h
  rcases hm with rfl | rfl
  · rw [mktCodeInt_roundtrip_sh cc hlen hds]
    exact ⟨fun _ => Or.inr (List.prefix_append _ _), fun _ => rfl⟩
  · rw [mktCodeInt_roundtrip_sz cc hlen hds]
    cases cc with
    | msvc => exact ⟨fun _ => Or.inl rfl, fun _ => rfl⟩
    | other =>
      constructor
      · -- eight digits are printed for six
        intro heq
        have hlt : decVal ds < 10 ^ 6 := (base_add_decVal szPRB (by decide) hlen hds).2.2
        have hl := congrArg List.length (List.append_cancel_left (Except.ok.inj heq))
        rw [hlen, length_fmtD0_eq (by omega)] at hl
        omega
      · intro hor
        rcases hor with hcc | hp
        · exact absurd hcc (by decide)
        · exact absurd hp (not_sh_isPrefix_sz ds)

theorem mktCodeStr_mktCodeInt_roundtrip_600997 :
    IsCanonical (lit "sh600997") ∧
      (mktCodeStrToMktCodeInt (lit "sh600997") >>= mktCodeIntToMktCodeStr .other)
        = .ok (lit "sh600997") := by
  have h : IsCanonical (lit "sh600997") :=
    ⟨lit "sh", lit "600997", Or.inl rfl, rfl, rfl, List.all_eq_true.mp rfl⟩
  exact ⟨h, (mktCodeStr_mktCodeInt_roundtrip_iff .other h).mpr (Or.inr (by decide))⟩

/-- Off MSVC `"sz000001"` comes back as `"sz00000001"`. -/
theorem mktCodeStr_mktCodeInt_roundtrip_fails :
    ¬ ∀ cc s, IsCanonical s →
      (mktCodeStrToMktCodeInt s >>= mktCodeIntToMktCodeStr cc) = .ok s := by
  intro hall
  have h : IsCanonical (lit "sz000001") :=
    ⟨lit "sz", lit "000001", Or.inr rfl, rfl, rfl, List.all_eq_true.mp rfl⟩
  have heq := hall .other (lit "sz000001") h
  have hrun : (mktCodeStrToMktCodeInt (lit "sz000001") >>= mktCodeIntToMktCodeStr .other)
      = .ok (lit "sz00000001") := by decide
  rw [hrun] at heq
  exact absurd heq (by decide)

/-! ## Pure codes -/

/-- The two ranges of pure codes, by the market code each becomes. -/
theorem pureCodeIntToMktCodeInt_eq_ok_iff {p m : UInt32} :
    pureCodeIntToMktCodeInt p = .ok m ↔
      (600000 ≤ p.toNat ∧ p.toNat ≤ 699999 ∧ m = shPRB + p) ∨
        (p.toNat ≤ 399999 ∧ m = szPRB + p) := by
  unfold pureCodeIntToMktCodeInt shCodeMin shCodeMax szCodeMin szCodeMax
  by_cases hsh : 600000 ≤ p.toNat ∧ p.toNat ≤ 699999
  · rw [if_pos hsh, Except.ok.injEq, eq_comm]
    constructor
    · intro h
      exact Or.inl ⟨hsh.1, hsh.2, h⟩
    · intro h
      rcases h with h | h
      · exact h.2.2
      · omega
  · rw [if_neg hsh]
    by_cases hsz : 0 ≤ p.toNat ∧ p.toNat ≤ 399999
    · rw [if_pos hsz, Except.ok.injEq, eq_comm]
      constructor
      · intro h
        exact Or.inr ⟨hsz.2, h⟩
      · intro h
        rcases h with h | h
        · exact absurd ⟨h.1, h.2.1⟩ hsh
        · exact h.2
    · rw [if_neg hsz]
      simp only [reduceCtorEq, false_iff]
      omega

/-- A checked result. -/
theorem ite_error_eq_ok_iff {P : Prop} [Decidable P] {e : CodeError} {c p : UInt32} :
    (if P then .error e else .ok c : Except CodeError UInt32) = .ok p ↔ ¬ P ∧ c = p := by
  by_cases hP : P
  · rw [if_pos hP]
    simp [hP]
  · rw [if_neg hP, Except.ok.injEq]
    simp [hP]

/-- A decoder of market codes accepts Shanghai from `600000` on and Shenzhen below it. -/
theorem mktCodeIntToPureCodeInt_eq_ok_iff {m p : UInt32} :
    mktCodeIntToPureCodeInt m = .ok p ↔
      (inMarket shPRB m ∧ 600000 ≤ p.toNat ∧ m = shPRB + p) ∨
        (inMarket szPRB m ∧ p.toNat < 600000 ∧ m = szPRB + p) := by
  have hsub : ∀ prb : UInt32, m = prb + p ↔ m - prb = p := by
    intro prb
    constructor <;> intro h <;> grind
  -- the ranges of the two markets do not meet
  have hboth : inMarket shPRB m = true → ¬ inMarket szPRB m = true := by
    rw [inMarket_sh_iff, inMarket_sz_iff]
    omega
  unfold mktCodeIntToPureCodeInt shCodeMin
  rw [hsub, hsub]
  by_cases hsh : inMarket shPRB m = true
  · rw [if_pos hsh]
    simp only [ite_error_eq_ok_iff, hsh, hboth hsh, true_and, Bool.false_eq_true, false_and,
      or_false]
    apply and_congr_left
    intro he
    rw [he, not_lt]
  · rw [if_neg hsh]
    by_cases hsz : inMarket szPRB m = true
    · rw [if_pos hsz]
      simp only [ite_error_eq_ok_iff, hsh, hsz, true_and, Bool.false_eq_true, false_and,
        false_or]
      apply and_congr_left
      intro he
      rw [he, not_le]
    · rw [if_neg hsz]
      simp only [reduceCtorEq, hsh, hsz, Bool.false_eq_true, false_and, or_false]

/-- The string twin of the decoder prints what the integer twin returns, and throws what
it throws. -/
theorem mktCodeIntToPureCodeStr_eq (cc : Compiler) (m : UInt32) :
    mktCodeIntToPureCodeStr cc m
      = (mktCodeIntToPureCodeInt m).map fun p => fmtD0 6 p.toNat := by
  -- a code without its base has at most eight digits, and fits the buffer
  have hprint : ∀ prb : UInt32, inMarket prb m = true → prb.toNat ≤ 3300000000 →
      printInto cc 11 (fmtD0 6 (m - prb).toInt32.toInt) = .ok (fmtD0 6 (m - prb).toNat) := by
    intro prb hin hprb
    have hlt := (sub_base hin hprb).2
    have hlen := length_fmtD0_le (show 6 ≤ 8 by omega) hlt
    rw [toInt_toInt32 hlt, printInto_of_lt (by omega)]
  unfold mktCodeIntToPureCodeStr mktCodeIntToPureCodeInt
  by_cases hsh : inMarket shPRB m = true
  · rw [if_pos hsh, if_pos hsh]
    by_cases hlt : (m - shPRB).toNat < shCodeMin
    · simp only [if_pos hlt, if_neg (show ¬ shCodeMin ≤ (m - shPRB).toNat by omega)]
      rfl
    · simp only [if_neg hlt, if_pos (show shCodeMin ≤ (m - shPRB).toNat by omega),
        hprint shPRB hsh (by decide)]
      rfl
  · rw [if_neg hsh, if_neg hsh]
    by_cases hsz : inMarket szPRB m = true
    · rw [if_pos hsz, if_pos hsz]
      by_cases hle : shCodeMin ≤ (m - szPRB).toNat
      · simp only [if_pos hle, if_neg (show ¬ (m - szPRB).toNat < shCodeMin by omega)]
        rfl
      · simp only [if_neg hle, if_pos (show (m - szPRB).toNat < shCodeMin by omega),
          hprint szPRB hsz (by decide)]
        rfl
    · rw [if_neg hsz, if_neg hsz]
      rfl

/-- The printers of pure codes, on a Shanghai code. -/
theorem pureCodeInt_print_sh (cc : Compiler) {p : UInt32} (hmin : 600000 ≤ p.toNat)
    (hmax : p.toNat ≤ 699999) :
    pureCodeIntToPureCodeStr cc p.toInt32 = .ok (fmtD0 6 p.toNat) ∧
      pureCodeIntToMktCodeStr cc p.toInt32 = .ok (lit "sh" ++ fmtD0 6 p.toNat) := by
  have hlen : (fmtD0 6 p.toNat).length = 6 := length_fmtD0_eq (by omega)
  have hrange : (shCodeMin : ℤ) ≤ p.toInt32.toInt ∧ p.toInt32.toInt ≤ (shCodeMax : ℤ) := by
    rw [toInt_toInt32 (by omega)]
    unfold shCodeMin shCodeMax
    omega
  unfold pureCodeIntToPureCodeStr pureCodeIntToMktCodeStr
  rw [if_pos (Or.inl hrange), if_pos hrange, toInt_toInt32 (by omega)]
  refine ⟨printInto_of_lt (by omega), printInto_of_lt ?_⟩
  rw [List.length_append, hlen]
  decide

/-- The printers of pure codes, on a Shenzhen code. -/
theorem pureCodeInt_print_sz (cc : Compiler) {p : UInt32} (hmax : p.toNat ≤ 399999) :
    pureCodeIntToPureCodeStr cc p.toInt32 = .ok (fmtD0 6 p.toNat) ∧
      pureCodeIntToMktCodeStr cc p.toInt32 = .ok (lit "sz" ++ fmtD0 6 p.toNat) := by
  have hlen : (fmtD0 6 p.toNat).length = 6 := length_fmtD0_eq (by omega)
  have hrange : (szCodeMin : ℤ) ≤ p.toInt32.toInt ∧ p.toInt32.toInt ≤ (szCodeMax : ℤ) := by
    rw [toInt_toInt32 (by omega)]
    unfold szCodeMin szCodeMax
    omega
  have hout : ¬ ((shCodeMin : ℤ) ≤ p.toInt32.toInt ∧ p.toInt32.toInt ≤ (shCodeMax : ℤ)) := by
    rw [toInt_toInt32 (by omega)]
    unfold shCodeMin
    omega
  unfold pureCodeIntToPureCodeStr pureCodeIntToMktCodeStr
  rw [if_pos (Or.inr hrange), if_neg hout, if_pos hrange, toInt_toInt32 (by omega)]
  refine ⟨printInto_of_lt (by omega), printInto_of_lt ?_⟩
  rw [List.length_append, hlen]
  decide

/-- Reading a printed pure code back. -/
theorem mktCodeStrToPureCodeInt_print (p : UInt32) :
    (600000 ≤ p.toNat → mktCodeStrToPureCodeInt (lit "sh" ++ fmtD0 6 p.toNat) = .ok p) ∧
      (p.toNat < 600000 → mktCodeStrToPureCodeInt (lit "sz" ++ fmtD0 6 p.toNat) = .ok p) := by
  have hparse : ∀ m₀ m₁ : UInt8, parseDigits (m₀ :: m₁ :: fmtD0 6 p.toNat) = p := by
    intro m₀ m₁
    rw [parseDigits_digits m₀ m₁ fun _ h => isDigit_of_mem_fmtD0 h, decVal_fmtD0,
      UInt32.ofNat_toNat]
  have hlit : lit "sh" = [115, 104] ∧ lit "sz" = [115, 122] := by decide
  rw [hlit.1, hlit.2]
  generalize fmtD0 6 p.toNat = ds at hparse ⊢
  constructor
  · intro hmin
    have hsh : cAt (115 :: 104 :: ds) 0 = 115 ∧ cAt (115 :: 104 :: ds) 1 = 104 := ⟨rfl, rfl⟩
    unfold mktCodeStrToPureCodeInt shCodeMin
    simp only [List.cons_append, List.nil_append, hparse, if_pos hsh, if_pos hmin]
  · intro hmax
    have hsh : ¬ (cAt (115 :: 122 :: ds) 0 = 115 ∧ cAt (115 :: 122 :: ds) 1 = 104) :=
      fun h => absurd h.2 (by show (122 : UInt8) ≠ 104; decide)
    have hsz : cAt (115 :: 122 :: ds) 0 = 115 ∧ cAt (115 :: 122 :: ds) 1 = 122 := ⟨rfl, rfl⟩
    unfold mktCodeStrToPureCodeInt shCodeMin
    simp only [List.cons_append, List.nil_append, hparse, if_neg hsh, if_pos hsz, if_pos hmax]

/-- The decoder undoes the encoder. -/
theorem mktCodeIntToPureCodeInt_of_encode {p m : UInt32}
    (hp : pureCodeIntToMktCodeInt p = .ok m) : mktCodeIntToPureCodeInt m = .ok p := by
  rw [mktCodeIntToPureCodeInt_eq_ok_iff]
  rcases pureCodeIntToMktCodeInt_eq_ok_iff.mp hp with ⟨hmin, hmax, rfl⟩ | ⟨hmax, rfl⟩
  · have hin : inMarket shPRB (shPRB + p) = true := by
      rw [inMarket_sh_iff, UInt32.toNat_add, show shPRB.toNat = 1700000000 from rfl]
      omega
    exact Or.inl ⟨hin, hmin, rfl⟩
  · have hin : inMarket szPRB (szPRB + p) = true := by
      rw [inMarket_sz_iff, UInt32.toNat_add, show szPRB.toNat = 3300000000 from rfl]
      omega
    exact Or.inr ⟨hin, by omega, rfl⟩

/-- Both printers accept what the encoder accepts, and the market string reads back. -/
theorem pureCodeInt_print_of_encode (cc : Compiler) {p m : UInt32}
    (hp : pureCodeIntToMktCodeInt p = .ok m) :
    pureCodeIntToPureCodeStr cc p.toInt32 = .ok (fmtD0 6 p.toNat) ∧
      (pureCodeIntToMktCodeStr cc p.toInt32 >>= mktCodeStrToPureCodeInt) = .ok p := by
  rcases pureCodeIntToMktCodeInt_eq_ok_iff.mp hp with ⟨hmin, hmax, -⟩ | ⟨hmax, -⟩
  · obtain ⟨hpure, hmkt⟩ := pureCodeInt_print_sh cc hmin hmax
    refine ⟨hpure, ?_⟩
    rw [hmkt]
    simp only [bind, Except.bind]
    exact (mktCodeStrToPureCodeInt_print p).1 hmin
  · obtain ⟨hpure, hmkt⟩ := pureCodeInt_print_sz cc hmax
    refine ⟨hpure, ?_⟩
    rw [hmkt]
    simp only [bind, Except.bind]
    exact (mktCodeStrToPureCodeInt_print p).2 (by omega)

/-- The encoder throws on a decoded code or goes back to the code it came from: the ranges
of the two sides meet in one market only. -/
theorem pureCodeIntToMktCodeInt_of_decode {p m : UInt32}
    (hm : mktCodeIntToPureCodeInt m = .ok p) :
    (∃ e, pureCodeIntToMktCodeInt p = .error e) ∨ pureCodeIntToMktCodeInt p = .ok m := by
  cases henc : pureCodeIntToMktCodeInt p with
  | error e => exact Or.inl ⟨e, rfl⟩
  | ok m' =>
    rw [mktCodeIntToPureCodeInt_eq_ok_iff] at hm
    rw [pureCodeIntToMktCodeInt_eq_ok_iff] at henc
    rcases hm with ⟨-, hp, rfl⟩ | ⟨-, hp, rfl⟩
    · rcases henc with ⟨-, -, rfl⟩ | ⟨hmax, -⟩
      · exact Or.inr rfl
      · omega
    · rcases henc with ⟨hmin, -⟩ | ⟨-, rfl⟩
      · omega
      · exact Or.inr rfl

/-- A pure code is decoded from one market code at most. -/
theorem mktCodeIntToPureCodeInt_inj {p m m' : UInt32}
    (hm : mktCodeIntToPureCodeInt m = .ok p) (hm' : mktCodeIntToPureCodeInt m' = .ok p) :
    m' = m := by
  rw [mktCodeIntToPureCodeInt_eq_ok_iff] at hm hm'
  -- the pure code alone tells the market
  by_cases hp : 600000 ≤ p.toNat
  · have hsh := hm.resolve_right fun h => absurd h.2.1 (by omega)
    have hsh' := hm'.resolve_right fun h => absurd h.2.1 (by omega)
    rw [hsh.2.2, hsh'.2.2]
  · have hsz := hm.resolve_left fun h => hp h.2.1
    have hsz' := hm'.resolve_left fun h => hp h.2.1
    rw [hsz.2.2, hsz'.2.2]

/-- **Pure codes never cross markets.** An accepted pure code comes back from its market
code and from its market string, and both spell it alike. A market code that decodes to a
pure code is the only one to do so, and the pure code does not encode to another one. -/
theorem pureCode_mktCode_consistent (cc : Compiler) :
    (∀ p m, pureCodeIntToMktCodeInt p = .ok m →
        mktCodeIntToPureCodeInt m = .ok p ∧
        (∃ s, mktCodeIntToPureCodeStr cc m = .ok s ∧
          pureCodeIntToPureCodeStr cc p.toInt32 = .ok s) ∧
        (pureCodeIntToMktCodeStr cc p.toInt32 >>= mktCodeStrToPureCodeInt) = .ok p) ∧
      ∀ m, ((∃ e, mktCodeIntToPureCodeStr cc m = .error e) ↔
          ∃ e, mktCodeIntToPureCodeInt m = .error e) ∧
        ∀ p, mktCodeIntToPureCodeInt m = .ok p →
          ((∃ e, pureCodeIntToMktCodeInt p = .error e) ∨ pureCodeIntToMktCodeInt p = .ok m) ∧
          ∀ m', mktCodeIntToPureCodeInt m' = .ok p → m' = m := by
  constructor
  · intro p m hp
    have hdec := mktCodeIntToPureCodeInt_of_encode hp
    obtain ⟨hpure, hmkt⟩ := pureCodeInt_print_of_encode cc hp
    refine ⟨hdec, ⟨_, ?_, hpure⟩, hmkt⟩
    rw [mktCodeIntToPureCodeStr_eq, hdec]
    rfl
  · intro m
    constructor
    · rw [mktCodeIntToPureCodeStr_eq]
      cases mktCodeIntToPureCodeInt m <;> simp [Except.map]
    · intro p hm
      exact ⟨pureCodeIntToMktCodeInt_of_decode hm,
        fun m' hm' => mktCodeIntToPureCodeInt_inj hm hm'⟩

theorem pureCode_mktCode_consistent_600997 :
    mktCodeIntToPureCodeInt 1700600997 = .ok 600997 :=
  ((pureCode_mktCode_consistent .other).1 600997 1700600997 (by decide)).1

end S4LibLite.MktCode
