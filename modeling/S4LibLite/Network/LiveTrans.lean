import S4LibLite.Common.MktCodeTheorems
import S4LibLite.Network.L2Recver

/-!
# Forwarding

`liveTrans` and the market code parser reach the same key by different ways: `atoi` and a
base on one side, the digit loop and a base on the other.

* `liveTrans_forward`, the four ways a call of `liveTrans` can end;
* `liveCode_eq`, its key is the market code of the record's security;
* `liveTrans_iff_mem_liveList`, what is forwarded, and as what.
-/

namespace S4LibLite.Network

open Sbe MktCode

/-! ## The ways a call can end -/

/-- What `liveTrans` can do with the record at `p`. -/
inductive Forward (b : RecvBuffer) (time : UInt64) (p : ℕ) (l : Live) : Option Bool × Live → Prop
  | filtered (hcode : liveCode b p ∉ l.liveList) : Forward b time p l (some false, l)
  | starved (hcode : liveCode b p ∈ l.liveList) (hnone : l.q.tryBest l.q.taken = none) :
    Forward b time p l (none, { l with q := { l.q with taken := l.q.taken + 1 } })
  | overrun {x : Particle} (hcode : liveCode b p ∈ l.liveList)
      (hx : l.q.tryBest l.q.taken = some x)
      (hlen : x.pBuffer.length < (b.slice p (b.header p).msgLen).length) :
    Forward b time p l (none,
      { l with
        q := { l.q with taken := l.q.taken + 1 }
        copies := l.copies ++ [(p, (b.header p).msgLen)] })
  | forwarded {x : Particle} (hcode : liveCode b p ∈ l.liveList)
      (hx : l.q.tryBest l.q.taken = some x)
      (hlen : (b.slice p (b.header p).msgLen).length ≤ x.pBuffer.length) :
    Forward b time p l (some true,
      { l with
        q := { l.q with
          taken := l.q.taken + 1
          sent := l.q.sent ++ [{
            info := { dataLen := (b.header p).msgLen, localTimeMs := time, type := .marketData }
            pBuffer := b.slice p (b.header p).msgLen
              ++ x.pBuffer.drop (b.slice p (b.header p).msgLen).length }] }
        copies := l.copies ++ [(p, (b.header p).msgLen)] })

theorem liveTrans_forward (b : RecvBuffer) (time : UInt64) (p : ℕ) (l : Live) :
    Forward b time p l (liveTrans b time p l) := by
  unfold liveTrans
  by_cases hcode : liveCode b p ∈ l.liveList
  · cases hx : l.q.tryBest l.q.taken with
    | none =>
      simp only [if_pos hcode, L2DataQ.pGetTryBest, hx]
      exact Forward.starved hcode hx
    | some x =>
      by_cases hlen : (b.slice p (b.header p).msgLen).length ≤ x.pBuffer.length
      · simp only [if_pos hcode, L2DataQ.pGetTryBest, hx, memcpy_of_le hlen, L2DataQ.send]
        exact Forward.forwarded hcode hx hlen
      · simp only [if_pos hcode, L2DataQ.pGetTryBest, hx, memcpy, if_neg hlen]
        exact Forward.overrun hcode hx (by omega)
  · simp only [if_neg hcode]
    exact Forward.filtered hcode

/-! ## The key -/

/-- An accepted record of market data whose `SecurityID[9]` holds the digits `ds` and a NUL. -/
structure CodedRecord (b : RecvBuffer) (p len : ℕ) (k : MsgKind) (ds : Bytes) : Prop where
  accepted : (b.header p).accepted len = some (.msg k)
  inside : p + len ≤ 4096
  digits : ∀ c ∈ ds, isDigit c = true
  six_le : 6 ≤ ds.length
  le_eight : ds.length ≤ 8
  securityID : ds ++ [0] <+: b.slice (p + 4) 9

/-- The market of a `SecurityIDSource`, as the market strings spell it. -/
def marketOf (source : UInt8) : Bytes := if source = securityIDSourceSSH then lit "sh" else lit "sz"

/-- The base of its market codes. -/
def baseOf (source : UInt8) : UInt32 := if source = securityIDSourceSSH then shPRB else szPRB

namespace CodedRecord

variable {b : RecvBuffer} {p len : ℕ} {k : MsgKind} {ds : Bytes}

theorem decVal_lt (h : CodedRecord b p len k ds) : decVal ds < 10 ^ 8 :=
  lt_of_lt_of_le (S4LibLite.decVal_lt h.digits) (Nat.pow_le_pow_right (by norm_num) h.le_eight)

/-- `atoi` stops at the NUL inside the field. -/
theorem atoi_securityID (h : CodedRecord b p len k ds) :
    (atoi (b.securityID p)).toUInt32 = UInt32.ofNat (decVal ds) := by
  obtain ⟨t, ht⟩ := h.securityID.trans (List.take_prefix 9 _)
  have hne : ds ≠ [] := by
    intro hnil
    have := h.six_le
    rw [hnil, List.length_nil] at this
    omega
  have hstop : ∀ c ∈ (0 :: t : Bytes).head?, isDigit c = false := by
    intro c hc
    rw [List.head?_cons, Option.mem_some_iff] at hc
    rw [← hc]
    rfl
  rw [RecvBuffer.securityID, ← ht, List.append_assoc, List.singleton_append,
    atoi_digits hne h.digits (h.le_eight.trans (by omega)) hstop]
  rfl

theorem liveCode_eq (h : CodedRecord b p len k ds) :
    liveCode b p = baseOf (b.header p).securityIDSource + UInt32.ofNat (decVal ds) := by
  unfold liveCode baseOf
  rw [h.atoi_securityID]
  by_cases hs : (b.header p).securityIDSource = securityIDSourceSSH
  · rw [if_pos hs, if_pos hs, UInt32.add_comm]
  · rw [if_neg hs, if_neg hs, UInt32.add_comm]

/-- The key is the market code the parser reads out of the market string. -/
theorem mktCodeStrToMktCodeInt_eq (h : CodedRecord b p len k ds) :
    mktCodeStrToMktCodeInt (marketOf (b.header p).securityIDSource ++ ds)
      = .ok (liveCode b p) := by
  rw [h.liveCode_eq]
  unfold marketOf baseOf
  by_cases hs : (b.header p).securityIDSource = securityIDSourceSSH
  · rw [if_pos hs, if_pos hs, mktCodeStrToMktCodeInt_sh h.digits]
  · rw [if_neg hs, if_neg hs, mktCodeStrToMktCodeInt_sz h.digits]

/-- Nothing wraps: the key is the sum of the base and the number. -/
theorem toNat_liveCode (h : CodedRecord b p len k ds) :
    (liveCode b p).toNat = (baseOf (b.header p).securityIDSource).toNat + decVal ds := by
  have hlt := h.decVal_lt
  have hbase : (baseOf (b.header p).securityIDSource).toNat ≤ 3300000000 := by
    unfold baseOf
    by_cases hs : (b.header p).securityIDSource = securityIDSourceSSH
    · rw [if_pos hs]
      decide
    · rw [if_neg hs]
      decide
  rw [h.liveCode_eq, UInt32.toNat_add,
    UInt32.toNat_ofNat_of_lt' (by show decVal ds < 2 ^ 32; omega),
    Nat.mod_eq_of_lt (by omega)]

/-- A Shanghai key lies below every Shenzhen key. -/
theorem liveCode_lt {b' : RecvBuffer} {p' len' : ℕ} {k' : MsgKind} {ds' : Bytes}
    (h : CodedRecord b p len k ds) (h' : CodedRecord b' p' len' k' ds')
    (hs : (b.header p).securityIDSource = securityIDSourceSSH)
    (hs' : (b'.header p').securityIDSource = securityIDSourceSSZ) :
    (liveCode b p).toNat < (liveCode b' p').toNat := by
  have hlt := h.decVal_lt
  have hsh : (baseOf securityIDSourceSSH).toNat = 1700000000 := rfl
  have hsz : (baseOf securityIDSourceSSZ).toNat = 3300000000 := rfl
  rw [h.toNat_liveCode, h'.toNat_liveCode, hs, hs', hsh, hsz]
  omega

theorem length_slice (h : CodedRecord b p len k ds) :
    (b.slice p (b.header p).msgLen).length = (b.header p).msgLen := by
  have hle := (accepted_bounds h.accepted).2.1
  have hin := h.inside
  have hmem := b.size_le
  exact b.length_slice (by omega)

end CodedRecord

/-- **What `liveTrans` forwards.** With room for a record in every frame and a frame to be
had, a record is forwarded if and only if the live list contains its market code: then one
particle goes out, with the bytes of the record, and otherwise nothing happens. No key
wraps, and no Shanghai record shares one with a Shenzhen record. -/
theorem liveTrans_iff_mem_liveList {b : RecvBuffer} {p len : ℕ} {k : MsgKind} {ds : Bytes}
    (h : CodedRecord b p len k ds) (time : UInt64) (l : Live) :
    ∃ key, mktCodeStrToMktCodeInt (marketOf (b.header p).securityIDSource ++ ds) = .ok key ∧
      key.toNat = (baseOf (b.header p).securityIDSource).toNat + decVal ds ∧
      (key ∉ l.liveList → liveTrans b time p l = (some false, l)) ∧
      (key ∈ l.liveList → 360 ≤ l.q.pageSize → (l.q.tryBest l.q.taken).isSome →
        ∃ x l', liveTrans b time p l = (some true, l') ∧ l'.liveList = l.liveList ∧
          l'.q.sent = l.q.sent ++ [x] ∧ x.info.type = .marketData ∧
          x.info.dataLen = (b.header p).msgLen ∧
          x.pBuffer.take x.info.dataLen = b.slice p (b.header p).msgLen ∧
          (b.slice p (b.header p).msgLen).length = (b.header p).msgLen) ∧
      ∀ b' p' len' k' ds', CodedRecord b' p' len' k' ds' →
        (b.header p).securityIDSource = securityIDSourceSSH →
        (b'.header p').securityIDSource = securityIDSourceSSZ → liveCode b' p' ≠ key := by
  refine ⟨liveCode b p, h.mktCodeStrToMktCodeInt_eq, h.toNat_liveCode, ?_, ?_, ?_⟩
  · intro hcode
    have hforward := liveTrans_forward b time p l
    generalize liveTrans b time p l = r at hforward ⊢
    cases hforward with
    | filtered => rfl
    | starved hmem => exact absurd hmem hcode
    | overrun hmem => exact absurd hmem hcode
    | forwarded hmem => exact absurd hmem hcode
  · intro hcode hpage hsome
    have hforward := liveTrans_forward b time p l
    have hsize := accepted_bounds h.accepted
    have hslice := h.length_slice
    generalize liveTrans b time p l = r at hforward ⊢
    cases hforward with
    | filtered hmem => exact absurd hcode hmem
    | starved _ hnone =>
      rw [hnone] at hsome
      exact absurd hsome (by decide)
    | overrun _ hx hlen =>
      -- the frame has a page, and a record has at most 360 bytes
      have := l.q.length_pBuffer _ _ hx
      omega
    | forwarded =>
      refine ⟨_, _, rfl, rfl, rfl, rfl, rfl, ?_, hslice⟩
      show List.take (b.header p).msgLen (b.slice p (b.header p).msgLen ++ _) = _
      exact List.take_left' hslice
  · intro b' p' len' k' ds' h' hs hs' heq
    have hlt := h.liveCode_lt h' hs hs'
    rw [heq] at hlt
    exact lt_irrefl _ hlt

/-- Two Shanghai index records, of `600997` and of `600998`. -/
def indexRecords : RecvBuffer :=
  .zeroed ([101, 11, 88, 0] ++ lit "600997" ++ List.replicate 78 0
    ++ [101, 11, 88, 0] ++ lit "600998")

/-- A queue of zeroed frames that never runs dry. -/
def L2DataQ.fresh : L2DataQ where
  pageSize := 360
  tryBest _ := some ⟨⟨0, 0, .unknown⟩, List.replicate 360 0⟩
  length_pBuffer := by
    intro _ p hp
    rw [← Option.some.inj hp, List.length_replicate]
  taken := 0
  sent := []

/-- One code is subscribed. -/
def subscribed : Live := ⟨{1700600997}, .fresh, []⟩

/-- The Shanghai index record of `600997` is forwarded, byte for byte, and that of `600998`
is not. -/
theorem liveTrans_iff_mem_liveList_600997 :
    (∃ key, mktCodeStrToMktCodeInt (lit "sh600997") = .ok key ∧ key.toNat = 1700600997 ∧
      key ∈ subscribed.liveList ∧ ∃ x l', liveTrans indexRecords 0 0 subscribed = (some true, l') ∧
        l'.q.sent = [x] ∧ x.info.type = .marketData ∧ x.info.dataLen = 88 ∧
        x.pBuffer.take 88 = indexRecords.slice 0 88) ∧
      liveTrans indexRecords 0 88 subscribed = (some false, subscribed) := by
  have h : CodedRecord indexRecords 0 179 .indexSnap (lit "600997") :=
    ⟨by decide, by decide, List.all_eq_true.mp rfl, by decide, by decide, by decide⟩
  have h' : CodedRecord indexRecords 88 91 .indexSnap (lit "600998") :=
    ⟨by decide, by decide, List.all_eq_true.mp rfl, by decide, by decide, by decide⟩
  obtain ⟨key, hkey, hnat, -, hforward, -⟩ := liveTrans_iff_mem_liveList h 0 subscribed
  obtain ⟨key', -, hnat', hfiltered, -⟩ := liveTrans_iff_mem_liveList h' 0 subscribed
  have hcode : key = 1700600997 := UInt32.toNat_inj.mp hnat
  have hmem : key ∈ subscribed.liveList := Finset.mem_singleton.mpr hcode
  obtain ⟨x, l', hl', -, hsent, htype, hlen, hbytes, -⟩ := hforward hmem (by decide) rfl
  refine ⟨⟨key, hkey, hnat, hmem, x, l', hl', hsent, htype, hlen, ?_⟩, hfiltered fun hno => ?_⟩
  · rw [hlen] at hbytes
    exact hbytes
  · have hcode' : key' = 1700600998 := UInt32.toNat_inj.mp hnat'
    exact absurd ((Finset.mem_singleton.mp hno).symm.trans hcode') (by decide)

end S4LibLite.Network
