import S4LibLite.Common.MktCodeTheorems

/-!
# Reading market strings

The readers find the market in the first two characters of a market string. The reader of the
pure string then decides by one character, those of numbers by the whole number.

* `readsPureStr_iff`, the one character is the second digit, where the first one is meant;
* `mktCodeStrToMktCodeInt_exact_iff`, the code is exact as long as the number stays in the
  range of the market.
-/

namespace S4LibLite.MktCode

/-! ## The pure string -/

/-- The digits a tradable security of a market begins with. -/
def leadsPure (mktCode : Bytes) (c : UInt8) : Bool :=
  if lit "sh" <+: mktCode then c = 54 else c = 48 || c = 51

/-- What reading a market string of six digits should give: the digits, if their first one
is of a tradable security, which then are the pure code. -/
structure ReadsPureStr (mktCode : Bytes) : Prop where
  digits : leadsPure mktCode (cAt mktCode 2) = true →
    mktCodeStrToPureCodeStr mktCode = .ok (mktCode.drop 2)
  throws : leadsPure mktCode (cAt mktCode 2) = false →
    ∃ e, mktCodeStrToPureCodeStr mktCode = .error e
  number : ∀ pure, mktCodeStrToPureCodeStr mktCode = .ok pure →
    ∃ p, mktCodeStrToPureCodeInt mktCode = .ok p ∧ p.toNat = decVal pure

theorem leadsPure_sh (ds : Bytes) (c : UInt8) : leadsPure (lit "sh" ++ ds) c = (c = 54 : Bool) :=
  if_pos (List.prefix_append _ _)

theorem leadsPure_sz (ds : Bytes) (c : UInt8) :
    leadsPure (lit "sz" ++ ds) c = (c = 48 || c = 51 : Bool) :=
  if_neg (not_sh_isPrefix_sz ds)

/-- The reader takes the second digit for the first. -/
theorem mktCodeStrToPureCodeStr_eq_ok_iff {m ds t : Bytes} (hm : m = lit "sh" ∨ m = lit "sz") :
    mktCodeStrToPureCodeStr (m ++ ds) = .ok t ↔
      leadsPure (m ++ ds) (cAt (m ++ ds) 3) = true ∧ t = ds := by
  rcases hm with rfl | rfl
  · rw [leadsPure_sh, decide_eq_true_eq]
    show (if cAt (lit "sh" ++ ds) 3 = 54 then Except.ok ds else _) = Except.ok t ↔ _
    by_cases h : cAt (lit "sh" ++ ds) 3 = 54
    · rw [if_pos h, Except.ok.injEq, eq_comm, and_iff_right h]
    · rw [if_neg h]
      simp [h]
  · rw [leadsPure_sz, Bool.or_eq_true, decide_eq_true_eq, decide_eq_true_eq]
    show (if cAt (lit "sz" ++ ds) 3 = 48 ∨ cAt (lit "sz" ++ ds) 3 = 51 then Except.ok ds else _)
      = Except.ok t ↔ _
    by_cases h : cAt (lit "sz" ++ ds) 3 = 48 ∨ cAt (lit "sz" ++ ds) 3 = 51
    · rw [if_pos h, Except.ok.injEq, eq_comm, and_iff_right h]
    · rw [if_neg h]
      simp [h]

/-! ## Digits and numbers -/

/-- A digit character is told by its digit. -/
theorem isDigit_eq_iff {c d : UInt8} (hc : isDigit c = true) (hd : isDigit d = true) :
    c = d ↔ digitVal c = digitVal d := by
  constructor
  · exact congrArg digitVal
  · intro h
    rw [← digitChar_digitVal hc, h, digitChar_digitVal hd]

/-- The digit `k` of six, as the number has it. -/
theorem leadsPure_iff {m ds : Bytes} (hm : m = lit "sh" ∨ m = lit "sz") (hlen : ds.length = 6)
    (hds : ∀ c ∈ ds, isDigit c = true) {k : ℕ} (hk : k < 6) :
    leadsPure (m ++ ds) (cAt (m ++ ds) (2 + k)) = true ↔
      (m = lit "sh" ∧ decVal ds / 10 ^ (5 - k) % 10 = 6) ∨
        (m = lit "sz" ∧ (decVal ds / 10 ^ (5 - k) % 10 = 0 ∨ decVal ds / 10 ^ (5 - k) % 10 = 3))
    := by
  have hat : cAt (m ++ ds) (2 + k) = ds.getD k 0 := by
    rcases hm with rfl | rfl
    · rw [Nat.add_comm]
      rfl
    · rw [Nat.add_comm]
      rfl
  have hdigit : isDigit (ds.getD k 0) = true := by
    rw [List.getD_eq_getElem?_getD, List.getElem?_eq_getElem (hlen ▸ hk), Option.getD_some]
    exact hds _ (List.getElem_mem _)
  -- the character at the index is the digit of the number
  have hval := digitVal_getD hds (hlen ▸ hk)
  rw [hlen, show 6 - (k + 1) = 5 - k by omega] at hval
  rw [hat, ← hval]
  rcases hm with rfl | rfl
  · rw [leadsPure_sh, decide_eq_true_eq, isDigit_eq_iff hdigit (by decide)]
    simp only [true_and, show lit "sh" ≠ lit "sz" by decide, false_and, or_false]
    rfl
  · rw [leadsPure_sz, Bool.or_eq_true, decide_eq_true_eq, decide_eq_true_eq,
      isDigit_eq_iff hdigit (by decide), isDigit_eq_iff hdigit (by decide)]
    simp only [true_and, show lit "sz" ≠ lit "sh" by decide, false_and, false_or]
    rfl

/-- The reader of the number, on the digits of a tradable security. -/
theorem mktCodeStrToPureCodeInt_of_leads {m ds : Bytes} (hm : m = lit "sh" ∨ m = lit "sz")
    (hlen : ds.length = 6) (hds : ∀ c ∈ ds, isDigit c = true)
    (hleads : leadsPure (m ++ ds) (cAt (m ++ ds) 2) = true) :
    ∃ p, mktCodeStrToPureCodeInt (m ++ ds) = .ok p ∧ p.toNat = decVal ds := by
  have hlt : decVal ds < 10 ^ 6 := by
    have := decVal_lt hds
    rwa [hlen] at this
  have hnat : (UInt32.ofNat (decVal ds)).toNat = decVal ds :=
    UInt32.toNat_ofNat_of_lt' (by show decVal ds < 2 ^ 32; omega)
  have hprint := mktCodeStrToPureCodeInt_print (UInt32.ofNat (decVal ds))
  rw [hnat, fmtD0_decVal_six hlen hds] at hprint
  refine ⟨_, ?_, hnat⟩
  rcases (leadsPure_iff hm hlen hds (show 0 < 6 by omega)).mp hleads with ⟨rfl, h⟩ | ⟨rfl, h⟩
  · exact hprint.1 (by omega)
  · exact hprint.2 (by omega)

/-! ## One character for another -/

/-- **The reader of the pure string**, on a market string of six digits: it does what it
should where the first two digits agree on whether the security is tradable. -/
theorem readsPureStr_iff {s : Bytes} (h : IsCanonical s) :
    ReadsPureStr s ↔ leadsPure s (cAt s 2) = leadsPure s (cAt s 3) := by
  obtain ⟨m, ds, hm, rfl, hlen, hds⟩ := h
  have hdrop : (m ++ ds).drop 2 = ds := by
    rcases hm with rfl | rfl
    · rfl
    · rfl
  have hok : ∀ t, mktCodeStrToPureCodeStr (m ++ ds) = .ok t ↔
      leadsPure (m ++ ds) (cAt (m ++ ds) 3) = true ∧ t = ds :=
    fun _ => mktCodeStrToPureCodeStr_eq_ok_iff hm
  constructor
  · -- the first digit says what should happen, the second what does
    intro hreads
    cases hfirst : leadsPure (m ++ ds) (cAt (m ++ ds) 2) with
    | true => exact (((hok _).mp (hreads.digits hfirst)).1).symm
    | false =>
      obtain ⟨e, he⟩ := hreads.throws hfirst
      cases hsecond : leadsPure (m ++ ds) (cAt (m ++ ds) 3) with
      | false => rfl
      | true =>
        rw [(hok ds).mpr ⟨hsecond, rfl⟩] at he
        exact absurd he (by simp)
  · intro heq
    refine ⟨fun hfirst => ?_, fun hfirst => ?_, fun pure hpure => ?_⟩
    · rw [hdrop]
      exact (hok ds).mpr ⟨heq ▸ hfirst, rfl⟩
    · cases hread : mktCodeStrToPureCodeStr (m ++ ds) with
      | error e => exact ⟨e, rfl⟩
      | ok t =>
        have := ((hok t).mp hread).1
        rw [← heq, hfirst] at this
        exact absurd this (by decide)
    · obtain ⟨hsecond, rfl⟩ := (hok pure).mp hpure
      exact mktCodeStrToPureCodeInt_of_leads hm hlen hds (heq ▸ hsecond)

/-- The pure codes whose market string begins with the digit of a tradable security. -/
def IsTradable (p : UInt32) : Prop :=
  (600000 ≤ p.toNat ∧ p.toNat ≤ 699999) ∨ p.toNat ≤ 99999 ∨
    (300000 ≤ p.toNat ∧ p.toNat ≤ 399999)

/-- The second of the six digits is one of a tradable security of the market, too. -/
def SecondDigitLeads (p : UInt32) : Prop :=
  if 600000 ≤ p.toNat then p.toNat / 10000 % 10 = 6
  else p.toNat / 10000 % 10 = 0 ∨ p.toNat / 10000 % 10 = 3

/-- Printing a pure code as a market string and reading its pure string. -/
theorem pureCodeInt_mktCodeStr_pureCodeStr_iff (cc : Compiler) {p : UInt32} (hp : IsTradable p) :
    (pureCodeIntToMktCodeStr cc p.toInt32 >>= mktCodeStrToPureCodeStr)
        = pureCodeIntToPureCodeStr cc p.toInt32 ↔ SecondDigitLeads p := by
  have hds : ∀ c ∈ fmtD0 6 p.toNat, isDigit c = true := fun c hc => isDigit_of_mem_fmtD0 hc
  have hlen : (fmtD0 6 p.toNat).length = 6 := by
    apply length_fmtD0_eq
    rcases hp with h | h | h <;> omega
  have hleads := fun {m : Bytes} hm =>
    leadsPure_iff (m := m) hm hlen hds (show 1 < 6 by omega)
  have hbind : ∀ s, (Except.ok s >>= mktCodeStrToPureCodeStr) = mktCodeStrToPureCodeStr s :=
    fun _ => rfl
  unfold SecondDigitLeads
  by_cases hsh : 600000 ≤ p.toNat
  · have hmax : p.toNat ≤ 699999 := by
      rcases hp with h | h | h <;> omega
    obtain ⟨hpure, hmkt⟩ := pureCodeInt_print_sh cc hsh hmax
    rw [hpure, hmkt, if_pos hsh, hbind, mktCodeStrToPureCodeStr_eq_ok_iff (Or.inl rfl),
      and_iff_left rfl, hleads (Or.inl rfl), decVal_fmtD0]
    simp [show lit "sh" ≠ lit "sz" by decide]
  · have hmax : p.toNat ≤ 399999 := by
      rcases hp with h | h | h <;> omega
    obtain ⟨hpure, hmkt⟩ := pureCodeInt_print_sz cc hmax
    rw [hpure, hmkt, if_neg hsh, hbind, mktCodeStrToPureCodeStr_eq_ok_iff (Or.inr rfl),
      and_iff_left rfl, hleads (Or.inr rfl), decVal_fmtD0]
    simp [show lit "sz" ≠ lit "sh" by decide]

/-- **Pure strings out of market strings.** A market string of six digits is read as it
should be exactly where its second digit says the same as its first; the market string of
a tradable pure code gives the pure string exactly where the second digit would be one, too. -/
theorem mktCodeStr_pureCodeStr_iff (cc : Compiler) :
    (∀ s, IsCanonical s → (ReadsPureStr s ↔ leadsPure s (cAt s 2) = leadsPure s (cAt s 3))) ∧
      ∀ p, IsTradable p →
        ((pureCodeIntToMktCodeStr cc p.toInt32 >>= mktCodeStrToPureCodeStr)
            = pureCodeIntToPureCodeStr cc p.toInt32 ↔ SecondDigitLeads p) :=
  ⟨fun _ hs => readsPureStr_iff hs, fun _ hp => pureCodeInt_mktCodeStr_pureCodeStr_iff cc hp⟩

theorem mktCodeStr_pureCodeStr_660000 :
    mktCodeStrToPureCodeStr (lit "sh660000") = .ok (lit "660000") ∧
      (pureCodeIntToMktCodeStr .other 660000 >>= mktCodeStrToPureCodeStr)
        = pureCodeIntToPureCodeStr .other 660000 := by
  have h : IsCanonical (lit "sh660000") :=
    ⟨lit "sh", lit "660000", Or.inl rfl, rfl, rfl, List.all_eq_true.mp rfl⟩
  have hiff := mktCodeStr_pureCodeStr_iff .other
  exact ⟨((hiff.1 _ h).mpr (by decide)).digits (by decide),
    (hiff.2 660000 (Or.inl (by decide))).mpr (by unfold SecondDigitLeads; decide)⟩

/-- The string of the header's example is rejected. -/
theorem mktCodeStr_pureCodeStr_600997 :
    ¬ ((∀ s, IsCanonical s → ReadsPureStr s) ∧ ∀ cc p, IsTradable p →
      (pureCodeIntToMktCodeStr cc p.toInt32 >>= mktCodeStrToPureCodeStr)
        = pureCodeIntToPureCodeStr cc p.toInt32) := by
  intro hall
  have h : IsCanonical (lit "sh600997") :=
    ⟨lit "sh", lit "600997", Or.inl rfl, rfl, rfl, List.all_eq_true.mp rfl⟩
  have hread := (hall.1 _ h).digits (by decide)
  exact absurd hread (by decide)

/-! ## The market code -/

/-- A market, and digits of any number. -/
structure IsMktStr (m ds : Bytes) : Prop where
  market : m = lit "sh" ∨ m = lit "sz"
  ne_nil : ds ≠ []
  digits : ∀ c ∈ ds, isDigit c = true

/-- The base of a market's codes. -/
def marketBase (m : Bytes) : UInt32 := if m = lit "sh" then shPRB else szPRB

/-- What reading a market string should give, if anything: the base and the number, a code of
this market and not of the other one. -/
structure ReadsMktCode (m ds : Bytes) : Prop where
  exact : ∀ c, mktCodeStrToMktCodeInt (m ++ ds) = .ok c →
    c.toNat = (marketBase m).toNat + decVal ds ∧ inMarket (marketBase m) c = true
  market : ∀ c, mktCodeStrToMktCodeInt (m ++ ds) = .ok c →
    (m = lit "sh" → inMarket szPRB c = false) ∧ (m = lit "sz" → inMarket shPRB c = false)

theorem marketBase_le (m : Bytes) : (marketBase m).toNat ≤ 3300000000 := by
  unfold marketBase
  split_ifs <;> decide

theorem inMarket_iff {m : Bytes} {c : UInt32} : inMarket (marketBase m) c = true ↔
    (marketBase m).toNat ≤ c.toNat ∧ c.toNat ≤ (marketBase m).toNat + 99999999 := by
  unfold marketBase
  split_ifs
  · exact inMarket_sh_iff
  · exact inMarket_sz_iff

/-- The reader never throws, and its sum wraps. -/
theorem mktCodeStrToMktCodeInt_eq {m ds : Bytes} (h : IsMktStr m ds) :
    mktCodeStrToMktCodeInt (m ++ ds) = .ok (marketBase m + UInt32.ofNat (decVal ds)) := by
  unfold marketBase
  rcases h.market with rfl | rfl
  · rw [if_pos rfl, mktCodeStrToMktCodeInt_sh h.digits]
  · rw [if_neg (by decide), mktCodeStrToMktCodeInt_sz h.digits]

/-- Nothing wraps in the range of the market. -/
theorem toNat_marketBase_add {n : ℕ} (m : Bytes) (hn : n ≤ prbMK.toNat) :
    (marketBase m + UInt32.ofNat n).toNat = (marketBase m).toNat + n := by
  have hbase := marketBase_le m
  have hmk : prbMK.toNat = 99999999 := rfl
  rw [UInt32.toNat_add, UInt32.toNat_ofNat_of_lt' (by show n < 2 ^ 32; omega),
    Nat.mod_eq_of_lt (by omega)]

theorem readsMktCode_iff {m ds : Bytes} (h : IsMktStr m ds) :
    ReadsMktCode m ds ↔ decVal ds ≤ prbMK.toNat := by
  have hmk : prbMK.toNat = 99999999 := rfl
  have hread := mktCodeStrToMktCodeInt_eq h
  constructor
  · intro hreads
    obtain ⟨hexact, hin⟩ := hreads.exact _ hread
    rw [inMarket_iff] at hin
    omega
  · intro hle
    have hsum := toNat_marketBase_add m hle
    refine ⟨fun c hc => ?_, fun c hc => ?_⟩
    · rw [hread, Except.ok.injEq] at hc
      rw [← hc, inMarket_iff]
      omega
    · rw [hread, Except.ok.injEq] at hc
      rw [← hc]
      -- the two ranges lie apart
      refine ⟨fun hm => Bool.eq_false_iff.mpr fun hsz => ?_,
        fun hm => Bool.eq_false_iff.mpr fun hsh => ?_⟩
      · have hbase : (marketBase m).toNat = 1700000000 := by
          rw [hm]
          rfl
        rw [inMarket_sz_iff] at hsz
        omega
      · have hbase : (marketBase m).toNat = 3300000000 := by
          rw [hm]
          rfl
        rw [inMarket_sh_iff] at hsh
        omega

/-- **Market codes out of market strings** of any number of digits. The code is the base plus
the number, in the range of its market, exactly where the number is at most `PRB_MK`; two such
strings with one code have one market and one number. -/
theorem mktCodeStrToMktCodeInt_exact_iff {m ds : Bytes} (h : IsMktStr m ds) :
    (ReadsMktCode m ds ↔ decVal ds ≤ prbMK.toNat) ∧
      ∀ m' ds', IsMktStr m' ds' → decVal ds ≤ prbMK.toNat → decVal ds' ≤ prbMK.toNat →
        mktCodeStrToMktCodeInt (m ++ ds) = mktCodeStrToMktCodeInt (m' ++ ds') →
        m = m' ∧ decVal ds = decVal ds' := by
  refine ⟨readsMktCode_iff h, ?_⟩
  intro m' ds' h' hle hle' heq
  have hmk : prbMK.toNat = 99999999 := rfl
  have hsh : (marketBase (lit "sh")).toNat = 1700000000 := rfl
  have hsz : (marketBase (lit "sz")).toNat = 3300000000 := rfl
  rw [mktCodeStrToMktCodeInt_eq h, mktCodeStrToMktCodeInt_eq h', Except.ok.injEq] at heq
  have hnat := congrArg UInt32.toNat heq
  rw [toNat_marketBase_add m hle, toNat_marketBase_add m' hle'] at hnat
  rcases h.market with rfl | rfl
  · rcases h'.market with rfl | rfl
    · exact ⟨rfl, by omega⟩
    · omega
  · rcases h'.market with rfl | rfl
    · omega
    · exact ⟨rfl, by omega⟩

theorem mktCodeStrToMktCodeInt_exact_600997 : ReadsMktCode (lit "sh") (lit "00600997") :=
  (mktCodeStrToMktCodeInt_exact_iff
    ⟨Or.inl rfl, by decide, List.all_eq_true.mp rfl⟩).1.mpr (by decide)

/-- A Shanghai string of ten digits is read as the code of `"sz000001"`. -/
theorem mktCodeStrToMktCodeInt_aliases : ¬ ∀ m ds, IsMktStr m ds → ReadsMktCode m ds := by
  intro hall
  have h : IsMktStr (lit "sh") (lit "1600000001") :=
    ⟨Or.inl rfl, by decide, List.all_eq_true.mp rfl⟩
  have hread : mktCodeStrToMktCodeInt (lit "sh" ++ lit "1600000001") = .ok 3300000001 := by decide
  have hmarket := ((hall _ _ h).market _ hread).1 rfl
  exact absurd hmarket (by decide)

end S4LibLite.MktCode
