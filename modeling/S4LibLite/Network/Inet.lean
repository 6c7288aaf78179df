import S4LibLite.Common.CStr
import S4LibLite.Common.JsonText
import Mathlib.Data.Nat.Bitwise

/-!
# Addresses as text (`inet_ntoa` of `sockutil.cpp` and `inet_addr`)

`SockUtil` keeps addresses as texts and compares them as such; every step from an adapter to an
answer goes through its own `inet_ntoa` and the `inet_addr` of the C library, which reads one to
four numbers, decimal, octal or hexadecimal.

* `inetNtoa`, `inetAddr`;
* `inetAddr_inetNtoa`, an address is read back as it was printed.
-/

namespace S4LibLite.Network

/-- `p[i]` for `unsigned char *p = (unsigned char *)&addr`, on a little-endian machine. -/
def byteOf (i : ℕ) (addr : UInt32) : ℕ := addr.toNat / 256 ^ i % 256

/-- `SockUtil::inet_ntoa`, "%u.%u.%u.%u". -/
def inetNtoa (addr : UInt32) : Bytes :=
  fmtD0 1 (byteOf 0 addr) ++ 46 :: (fmtD0 1 (byteOf 1 addr) ++ 46 ::
    (fmtD0 1 (byteOf 2 addr) ++ 46 :: fmtD0 1 (byteOf 3 addr)))

/-- `htonl` on a little-endian machine. -/
def htonl (x : UInt32) : UInt32 :=
  (x <<< 24) ||| ((x &&& (0xff00 : UInt32)) <<< 8) ||| ((x >>> 8) &&& (0xff00 : UInt32))
    ||| (x >>> 24)

/-- An octal digit. -/
def isOctal (c : UInt8) : Bool := 48 ≤ c && c ≤ 55

/-- What a hexadecimal digit is worth. -/
def hexVal (c : UInt8) : ℕ :=
  if c ≤ 57 then c.toNat - 48 else if c ≤ 70 then c.toNat - 55 else c.toNat - 87

/-- `strtoul(s, &end, 0)` on a text that begins with a digit. -/
def strtoul0 (s : Bytes) : ℕ × Bytes :=
  if s.head? = some 48 then
    let t := s.drop 2
    if (s[1]? = some 120 ∨ s[1]? = some 88) ∧ t.head?.any Json.isHex then
      (Numeral.value 16 ((t.takeWhile Json.isHex).map hexVal), t.dropWhile Json.isHex)
    else (Numeral.value 8 ((s.takeWhile isOctal).map digitVal), s.dropWhile isOctal)
  else (decVal (s.takeWhile isDigit), s.dropWhile isDigit)

/-- The loop of `inet_aton`: the bytes in front, and the number at the end, which may have as many
bits as they leave. -/
def inetParts (dots : ℕ) (parts : List ℕ) (s : Bytes) : Option (List ℕ × ℕ) :=
  let read := strtoul0 s
  if s.head?.any isDigit = false ∨ read.1 > 0xffffffff then none
  else if read.2.head? = some 46 then
    match dots with
    | 0 => none
    | dots + 1 =>
      if read.1 > 255 then none else inetParts dots (parts ++ [read.1]) read.2.tail
  else if read.2.head?.all isSpace ∧ read.1 < 256 ^ (4 - parts.length) then some (parts, read.1)
  else none

/-- `inet_addr`, with `INADDR_NONE` for a text that is no address. -/
def inetAddr (s : Bytes) : UInt32 :=
  match inetParts 3 [] s with
  | some (parts, val) => UInt32.ofNat (Nat.ofDigits 256 parts) ||| htonl (UInt32.ofNat val)
  | none => 0xFFFFFFFF

/-- The empty text is no address. -/
theorem inetAddr_nil : inetAddr [] = 0xFFFFFFFF := by decide +kernel

theorem byteOf_lt (i : ℕ) (addr : UInt32) : byteOf i addr < 256 := Nat.mod_lt _ (by decide)

/-- A number is read in decimal unless it begins with a zero, and zero is the same in octal. -/
theorem strtoul0_fmtD0 {n : ℕ} {t : Bytes} (ht : ∀ c ∈ t.head?, isDigit c = false)
    (hx : t.head? ≠ some 120 ∧ t.head? ≠ some 88) : strtoul0 (fmtD0 1 n ++ t) = (n, t) := by
  have hdigits : ∀ c ∈ fmtD0 1 n, isDigit c = true := fun c hc => isDigit_of_mem_fmtD0 hc
  by_cases hn : n = 0
  · subst hn
    have hzero : fmtD0 1 ((0 : ℕ) : ℤ) = [48] := by decide
    have hoctal : ∀ c ∈ t.head?, isOctal c = false := fun c hc => by
      have hnot := ht c hc
      rw [isDigit, Bool.and_eq_false_iff] at hnot
      rw [isOctal, Bool.and_eq_false_iff]
      refine hnot.imp id fun h => ?_
      rw [decide_eq_false_iff_not] at h ⊢
      exact fun h55 => h (UInt8.le_trans h55 (by decide))
    have hhead : ([48] ++ t : Bytes).head? = some 48 := rfl
    have hsecond : ([48] ++ t)[1]? = t.head? := by
      cases t <;> rfl
    have hrun : ∀ c ∈ [(48 : UInt8)], isOctal c = true := fun c hc => by
      rw [List.mem_singleton.mp hc]
      rfl
    have htake := takeWhile_run (p := isOctal) (s := [48]) (t := t) hrun hoctal
    have hdrop := dropWhile_run (p := isOctal) (s := [48]) (t := t) hrun hoctal
    rw [hzero, strtoul0, if_pos hhead, hsecond]
    dsimp only
    rw [if_neg fun h => h.1.elim hx.1 hx.2, htake, hdrop]
    rfl
  · have hhead : (fmtD0 1 n ++ t).head? ≠ some 48 := by
      rw [List.head?_append_of_ne_nil _ (fmtD0_ne_nil (by norm_num) n)]
      intro h48
      refine hn (Numeral.head?_padded_one (b := 10) ?_)
      rw [← map_digitVal_fmtD0, List.head?_map, h48]
      rfl
    rw [strtoul0, if_neg hhead, takeWhile_run hdigits ht, dropWhile_run hdigits ht, decVal_fmtD0]

theorem head?_fmtD0 (n : ℕ) (t : Bytes) : (fmtD0 1 n ++ t).head?.any isDigit = true := by
  obtain ⟨c, s, hs⟩ := List.exists_cons_of_ne_nil (fmtD0_ne_nil (w := 1) (by norm_num) n)
  rw [hs, List.cons_append, List.head?_cons, Option.any_some]
  exact isDigit_of_mem_fmtD0 (by rw [hs]; exact List.mem_cons_self)

/-- A byte with a point behind it. -/
theorem inetParts_dot {n dots : ℕ} (hn : n < 256) (parts : List ℕ) (t : Bytes) :
    inetParts (dots + 1) parts (fmtD0 1 n ++ 46 :: t) = inetParts dots (parts ++ [n]) t := by
  have hread : strtoul0 (fmtD0 1 n ++ 46 :: t) = (n, 46 :: t) :=
    strtoul0_fmtD0 (fun c hc => by rw [← Option.some.inj hc]; rfl) (by simp)
  rw [inetParts, hread, head?_fmtD0]
  dsimp only
  rw [if_neg (by simp; omega), if_pos List.head?_cons, if_neg (by omega), List.tail_cons]

/-- The last byte of four. -/
theorem inetParts_last {n dots : ℕ} (hn : n < 256) {parts : List ℕ} (hparts : parts.length = 3) :
    inetParts dots parts (fmtD0 1 n) = some (parts, n) := by
  have hread : strtoul0 (fmtD0 1 n) = (n, []) := by
    have := strtoul0_fmtD0 (n := n) (t := []) (by simp) (by simp)
    rwa [List.append_nil] at this
  have hhead := head?_fmtD0 n []
  rw [List.append_nil] at hhead
  rw [inetParts.eq_def, hread, hhead]
  dsimp only
  rw [if_neg (by simp; omega), if_neg (by simp), if_pos ⟨rfl, by rw [hparts]; omega⟩]

/-! ## The order of bytes -/

theorem htonl_or (x y : UInt32) : htonl (x ||| y) = htonl x ||| htonl y := by
  rw [htonl, htonl, htonl]
  apply UInt32.toBitVec_inj.mp
  ext i hi
  simp
  grind

/-- The number with the bytes `a`, `b`, `c` and `d`, the highest first. -/
def ofBytes (a b c d : ℕ) : UInt32 :=
  UInt32.ofNat (2 ^ 24 * a) ||| (UInt32.ofNat (2 ^ 16 * b)
    ||| (UInt32.ofNat (2 ^ 8 * c) ||| UInt32.ofNat d))

/-- Four bytes as a number. -/
theorem toNat_ofBytes {a b c d : ℕ} (ha : a < 256) (hb : b < 256) (hc : c < 256) (hd : d < 256) :
    (ofBytes a b c d).toNat = 2 ^ 24 * a + 2 ^ 16 * b + 2 ^ 8 * c + d := by
  have hofNat : ∀ {n : ℕ}, n < 2 ^ 32 → (UInt32.ofNat n).toNat = n := fun hn =>
    UInt32.toNat_ofNat_of_lt' hn
  rw [ofBytes, UInt32.toNat_or, UInt32.toNat_or, UInt32.toNat_or, hofNat (by omega),
    hofNat (by omega), hofNat (by omega), hofNat (by omega),
    ← Nat.two_pow_add_eq_or_of_lt (show d < 2 ^ 8 by omega),
    ← Nat.two_pow_add_eq_or_of_lt (show 2 ^ 8 * c + d < 2 ^ 16 by omega),
    ← Nat.two_pow_add_eq_or_of_lt (show 2 ^ 16 * b + (2 ^ 8 * c + d) < 2 ^ 24 by omega)]
  omega

/-- An address is made of its bytes. -/
theorem ofBytes_byteOf (x : UInt32) :
    ofBytes (byteOf 3 x) (byteOf 2 x) (byteOf 1 x) (byteOf 0 x) = x := by
  apply UInt32.toNat_inj.mp
  rw [toNat_ofBytes (byteOf_lt _ _) (byteOf_lt _ _) (byteOf_lt _ _) (byteOf_lt _ _)]
  have := x.toNat_lt
  simp only [byteOf]
  omega

/-- `htonl` turns the bytes round. -/
theorem htonl_ofBytes {a b c d : ℕ} (ha : a < 256) (hb : b < 256) (hc : c < 256) (hd : d < 256) :
    htonl (ofBytes a b c d) = ofBytes d c b a := by
  have hbyte : ∀ n : Fin 256, htonl (UInt32.ofNat (2 ^ 24 * n)) = UInt32.ofNat n
      ∧ htonl (UInt32.ofNat (2 ^ 16 * n)) = UInt32.ofNat (2 ^ 8 * n)
      ∧ htonl (UInt32.ofNat (2 ^ 8 * n)) = UInt32.ofNat (2 ^ 16 * n)
      ∧ htonl (UInt32.ofNat n) = UInt32.ofNat (2 ^ 24 * n) := by
    decide +kernel
  rw [ofBytes, htonl_or, htonl_or, htonl_or, (hbyte ⟨a, ha⟩).1, (hbyte ⟨b, hb⟩).2.1,
    (hbyte ⟨c, hc⟩).2.2.1, (hbyte ⟨d, hd⟩).2.2.2, ofBytes]
  ac_rfl

/-- The first byte in memory is the highest in network order. -/
theorem toNat_htonl (x : UInt32) : (htonl x).toNat
    = 2 ^ 24 * byteOf 0 x + 2 ^ 16 * byteOf 1 x + 2 ^ 8 * byteOf 2 x + byteOf 3 x := by
  conv_lhs => rw [← ofBytes_byteOf x]
  rw [htonl_ofBytes (byteOf_lt _ _) (byteOf_lt _ _) (byteOf_lt _ _) (byteOf_lt _ _),
    toNat_ofBytes (byteOf_lt _ _) (byteOf_lt _ _) (byteOf_lt _ _) (byteOf_lt _ _)]

/-- **An address** is read back as it was printed. -/
theorem inetAddr_inetNtoa (addr : UInt32) : inetAddr (inetNtoa addr) = addr := by
  have hparts : inetParts 3 [] (inetNtoa addr)
      = some ([byteOf 0 addr, byteOf 1 addr, byteOf 2 addr], byteOf 3 addr) := by
    rw [inetNtoa, inetParts_dot (byteOf_lt 0 addr), inetParts_dot (byteOf_lt 1 addr),
      inetParts_dot (byteOf_lt 2 addr), inetParts_last (byteOf_lt 3 addr) rfl]
    rfl
  have hlow : Nat.ofDigits 256 [byteOf 0 addr, byteOf 1 addr, byteOf 2 addr]
      = 2 ^ 16 * byteOf 2 addr + 2 ^ 8 * byteOf 1 addr + byteOf 0 addr := by
    simp only [Nat.ofDigits_cons, Nat.ofDigits_nil]
    omega
  have hsplit : UInt32.ofNat (byteOf 3 addr) = ofBytes 0 0 0 (byteOf 3 addr) := by
    simp [ofBytes]
  rw [inetAddr, hparts]
  dsimp only
  rw [hsplit, htonl_ofBytes (by norm_num) (by norm_num) (by norm_num) (byteOf_lt _ _), hlow]
  have h0 := byteOf_lt 0 addr
  have h1 := byteOf_lt 1 addr
  have h2 := byteOf_lt 2 addr
  have h3 := byteOf_lt 3 addr
  apply UInt32.toNat_inj.mp
  conv_rhs => rw [← ofBytes_byteOf addr, toNat_ofBytes h3 h2 h1 h0]
  rw [UInt32.toNat_or, toNat_ofBytes h3 (by norm_num) (by norm_num) (by norm_num),
    UInt32.toNat_ofNat_of_lt' (by rw [UInt32.size]; omega), Nat.lor_comm]
  rw [add_zero, mul_zero, add_zero, mul_zero, add_zero,
    ← Nat.two_pow_add_eq_or_of_lt (show 2 ^ 16 * byteOf 2 addr + 2 ^ 8 * byteOf 1 addr
      + byteOf 0 addr < 2 ^ 24 by omega)]
  omega

/-- Different addresses have different texts. -/
theorem inetNtoa_inj {a b : UInt32} (h : inetNtoa a = inetNtoa b) : a = b := by
  rw [← inetAddr_inetNtoa a, h, inetAddr_inetNtoa]

end S4LibLite.Network
