import S4LibLite.Lib.Framing
import S4LibLite.Network.Demux
import Mathlib.Data.List.TakeDrop

/-!
# Well-formed records: the reference parser

The purpose of the demultiplexing loop, stated without it: a datagram is cut into
records, each announced by an admitted combination of `MsgType`, `SecurityIDSource`
and `MsgLen`.

* `admitted`, the table of the combinations, and `sbe`, the framing it gives;
* `first_slice_eq`, reading a header out of the receive buffer decides the same as
  reading it out of the datagram alone, stale bytes or not;
* `demuxSwitch_eq`, the switch of the loop takes exactly the admitted combinations.
-/

namespace S4LibLite.Network

open Sbe

/-! ## The admitted combinations -/

/-- Kind, `MsgType`, `SecurityIDSource` and `MsgLen` of the records the receiver takes. -/
def admitted : List (RecordKind × UInt8 × UInt8 × ℕ) :=
  [(.heartbeat, 1, 101, sizeofHeader), (.heartbeat, 1, 102, sizeofHeader),
    (.msg .instrumentSnap, 111, 101, sizeofSSHInstrumentSnap),
    (.msg .instrumentSnap, 111, 102, sizeofSSZInstrumentSnap),
    (.msg .indexSnap, 11, 101, sizeofSSHIndexSnap), (.msg .indexSnap, 11, 102, sizeofSSZIndexSnap),
    (.msg .order, 192, 101, sizeofSSHOrd), (.msg .order, 192, 102, sizeofSSZOrd),
    (.msg .exec, 191, 101, sizeofSSHExe), (.msg .exec, 191, 102, sizeofSSZExe),
    (.msg .optionSnap, 13, 102, sizeofSSZOptionSnap), (.msg .fundSnap, 12, 102, sizeofSSZFundSnap),
    (.msg .instrumentSnapx5, 2, 101, sizeofSSHInstrumentSnapx5),
    (.msg .fundSnapx5, 4, 101, sizeofSSHFundSnapx5),
    (.msg .indexSnapx5, 10, 101, sizeofSSHIndexSnapx5),
    (.msg .optionSnapx5, 31, 101, sizeofSSHOptionSnapx5)]

/-- The kind of record a combination announces. -/
def recordOf (msgType source : UInt8) (msgLen : ℕ) : Option RecordKind :=
  (admitted.find? fun r => r.2.1 == msgType && r.2.2.1 == source && r.2.2.2 == msgLen).map (·.1)

/-- A combination announces one kind of record. -/
theorem admitted_unique : ∀ r ∈ admitted, ∀ r' ∈ admitted, r.2 = r'.2 → r = r' := by decide

theorem recordOf_eq_some_iff {t s : UInt8} {n : ℕ} {k : RecordKind} :
    recordOf t s n = some k ↔ (k, t, s, n) ∈ admitted := by
  unfold recordOf
  constructor
  · intro h
    obtain ⟨r, hr, hk⟩ := Option.map_eq_some_iff.mp h
    have hmem := List.mem_of_find?_eq_some hr
    have hkey := List.find?_some hr
    simp only [Bool.and_eq_true, beq_iff_eq] at hkey
    obtain ⟨⟨ht, hs⟩, hn⟩ := hkey
    rw [← hk, ← ht, ← hs, ← hn]
    exact hmem
  · intro h
    obtain ⟨r, hr⟩ : ∃ r, (admitted.find? fun r =>
        r.2.1 == t && r.2.2.1 == s && r.2.2.2 == n) = some r := by
      rw [← Option.isSome_iff_exists, List.find?_isSome]
      exact ⟨_, h, by simp⟩
    have hkey := List.find?_some hr
    simp only [Bool.and_eq_true, beq_iff_eq] at hkey
    obtain ⟨⟨ht, hs⟩, hn⟩ := hkey
    -- no two rows ask for the same header, so the one found is this one
    have heq : r.2 = (t, s, n) := by rw [← ht, ← hs, ← hn]
    rw [hr, admitted_unique r (List.mem_of_find?_eq_some hr) _ h heq, Option.map_some]

/-- Every record holds a header, and takes a multiple of eight bytes, at most 360. -/
theorem admitted_size : ∀ r ∈ admitted,
    sizeofHeader ≤ r.2.2.2 ∧ 8 ∣ r.2.2.2 ∧ r.2.2.2 ≤ 360 := by decide

/-- The switch has a case for the type of every record. -/
theorem admitted_msgType : ∀ r ∈ admitted, r.2.1 ∈
    [msgTypeSSHInstrumentSnap, msgTypeSSHIndexSnap, msgTypeSSZOptionSnap, msgTypeSSZFundSnap,
      msgTypeSSHOrder, msgTypeSSHExecution, msgTypeSSHInstrumentSnapx5, msgTypeSSHFundSnapx5,
      msgTypeSSHIndexSnapx5, msgTypeSSHOptionSnapx5, msgTypeHeartbeat] := by decide

/-- A heartbeat is a bare header. -/
theorem admitted_heartbeat : ∀ r ∈ admitted, r.1 = .heartbeat → r.2.2.2 = sizeofHeader := by
  decide

theorem sizeofHeader_eq : sizeofHeader = 24 := by decide

/-! ## The framing of a datagram -/

/-- The record a text begins with: its first four bytes announce it, and it is there
in full. -/
def firstRecord : Bytes → Option (RecordKind × ℕ)
  | source :: msgType :: lo :: hi :: l =>
    if lo.toNat + 256 * hi.toNat ≤ l.length + 4 then
      (recordOf msgType source (lo.toNat + 256 * hi.toNat)).map
        fun k => (k, lo.toNat + 256 * hi.toNat)
    else none
  | _ => none

theorem firstRecord_eq_some_iff {l : Bytes} {k : RecordKind} {n : ℕ} :
    firstRecord l = some (k, n) ↔
      ∃ source msgType lo hi l', l = source :: msgType :: lo :: hi :: l' ∧
        n = lo.toNat + 256 * hi.toNat ∧ n ≤ l.length ∧ (k, msgType, source, n) ∈ admitted := by
  constructor
  · intro h
    unfold firstRecord at h
    split at h
    · rename_i source msgType lo hi l'
      split at h
      · rename_i hle
        obtain ⟨k', hk', he⟩ := Option.map_eq_some_iff.mp h
        obtain ⟨rfl, rfl⟩ := Prod.mk.inj he
        exact ⟨source, msgType, lo, hi, l', rfl, rfl, hle, recordOf_eq_some_iff.mp hk'⟩
      · exact absurd h (by simp)
    · exact absurd h (by simp)
  · intro h
    obtain ⟨source, msgType, lo, hi, l', rfl, rfl, hle, hmem⟩ := h
    unfold firstRecord
    simp only [if_pos (show lo.toNat + 256 * hi.toNat ≤ l'.length + 4 from hle),
      recordOf_eq_some_iff.mpr hmem, Option.map_some]

/-- The records of the two exchanges, as a framing of datagrams. -/
def sbe : Framing UInt8 RecordKind where
  first := firstRecord
  first_pos := by
    intro l k n h
    obtain ⟨_, _, _, _, _, -, -, -, hmem⟩ := firstRecord_eq_some_iff.mp h
    have := (admitted_size _ hmem).1
    rw [sizeofHeader_eq] at this
    dsimp only at this
    omega
  first_le := by
    intro l k n h
    obtain ⟨_, _, _, _, _, -, -, hle, -⟩ := firstRecord_eq_some_iff.mp h
    exact hle
  first_take := by
    -- a record is announced by its first four bytes, which `take n` keeps
    intro l k n h r
    obtain ⟨source, msgType, lo, hi, l', rfl, hn, hle, hmem⟩ := firstRecord_eq_some_iff.mp h
    have h24 := (admitted_size _ hmem).1
    rw [sizeofHeader_eq] at h24
    dsimp only at h24
    obtain ⟨m, rfl⟩ : ∃ m, n = m + 4 := ⟨n - 4, by omega⟩
    refine firstRecord_eq_some_iff.mpr ⟨source, msgType, lo, hi, l'.take m ++ r, rfl, hn, ?_, hmem⟩
    rw [List.length_append, List.length_take, Nat.min_eq_left hle]
    omega

/-! ## Slices of the buffer -/

namespace RecvBuffer

variable (b : RecvBuffer)

theorem length_slice {p n : ℕ} (h : p + n ≤ b.mem.length) : (b.slice p n).length = n := by
  rw [slice, List.length_take, List.length_drop]
  omega

theorem take_slice {p n m : ℕ} (h : m ≤ n) : (b.slice p n).take m = b.slice p m := by
  rw [slice, slice, List.take_take, Nat.min_eq_left h]

theorem drop_slice (p n m : ℕ) : (b.slice p n).drop m = b.slice (p + m) (n - m) := by
  rw [slice, slice, List.drop_take, List.drop_drop]

end RecvBuffer

/-! ## Headers in the receive buffer -/

/-- What a header announces, when `len` bytes are left for it. -/
def SBEHeader.accepted (h : SBEHeader) (len : ℕ) : Option RecordKind :=
  (recordOf h.msgType h.securityIDSource h.msgLen).filter fun _ => h.msgLen ≤ len

theorem accepted_eq_some_iff {h : SBEHeader} {len : ℕ} {k : RecordKind} :
    h.accepted len = some k ↔
      (k, h.msgType, h.securityIDSource, h.msgLen) ∈ admitted ∧ h.msgLen ≤ len := by
  rw [SBEHeader.accepted, Option.filter_eq_some_iff, recordOf_eq_some_iff, decide_eq_true_eq]

/-- The size of an accepted record. -/
theorem accepted_bounds {h : SBEHeader} {len : ℕ} {k : RecordKind} (hk : h.accepted len = some k) :
    24 ≤ h.msgLen ∧ h.msgLen ≤ len ∧ 8 ∣ h.msgLen ∧ h.msgLen ≤ 360 := by
  obtain ⟨hmem, hle⟩ := accepted_eq_some_iff.mp hk
  obtain ⟨h24, h8, h360⟩ := admitted_size _ hmem
  rw [sizeofHeader_eq] at h24
  exact ⟨h24, hle, h8, h360⟩

/-- The bytes of a slice are the bytes of the buffer from `p` on. -/
theorem slice_getD (b : RecvBuffer) {p len i : ℕ} (hi : i < len) :
    (b.slice p len).getD i 0 = b.byte (p + i) := by
  rw [RecvBuffer.slice, RecvBuffer.byte, List.getD_eq_getElem?_getD, List.getD_eq_getElem?_getD,
    List.getElem?_take_of_lt hi, List.getElem?_drop]

/-- The header at `p` is spelled by the first four bytes of a slice that has them. -/
theorem header_of_slice {b : RecvBuffer} {p len : ℕ} (hp : p + len ≤ b.mem.length)
    {source msgType lo hi : UInt8} {l : Bytes}
    (hr : b.slice p len = source :: msgType :: lo :: hi :: l) :
    b.header p = ⟨source, msgType, lo.toNat + 256 * hi.toNat⟩ := by
  have hlen : 4 ≤ len := by
    rw [← b.length_slice hp, hr]
    exact Nat.le_add_left 4 l.length
  have hget : ∀ i < 4, (source :: msgType :: lo :: hi :: l).getD i 0 = b.byte (p + i) := by
    intro i hi4
    rw [← hr]
    exact slice_getD b (by omega)
  have hsource : source = b.byte p := hget 0 (by omega)
  have htype : msgType = b.byte (p + 1) := hget 1 (by omega)
  have hlo : lo = b.byte (p + 2) := hget 2 (by omega)
  have hhi : hi = b.byte (p + 3) := hget 3 (by omega)
  rw [hsource, htype, hlo, hhi]
  rfl

/-- A slice of four bytes or more begins with a header. -/
theorem slice_eq_cons {b : RecvBuffer} {p len : ℕ} (hp : p + len ≤ b.mem.length)
    (hlen : 4 ≤ len) : ∃ source msgType lo hi l,
      b.slice p len = source :: msgType :: lo :: hi :: l := by
  have hslice := b.length_slice hp
  match hs : b.slice p len with
  | source :: msgType :: lo :: hi :: l => exact ⟨source, msgType, lo, hi, l, rfl⟩
  | [] | [_] | [_, _] | [_, _, _] => rw [hs] at hslice; simp at hslice; omega

/-- **Stale bytes do not matter.** The header at `p`, read out of the receive buffer,
is accepted with `len` bytes left exactly when the `len` bytes alone begin with a
record; with fewer than four bytes left neither is. -/
theorem first_slice_eq (b : RecvBuffer) {p len : ℕ} (hp : p + len ≤ b.mem.length) :
    sbe.first (b.slice p len)
      = ((b.header p).accepted len).map fun k => (k, (b.header p).msgLen) := by
  ext ⟨k, n⟩
  rw [Option.map_eq_some_iff]
  constructor
  · intro h
    obtain ⟨source, msgType, lo, hi, l', hr, hn, hle, hmem⟩ := firstRecord_eq_some_iff.mp h
    rw [b.length_slice hp] at hle
    have hheader := header_of_slice hp hr
    refine ⟨k, accepted_eq_some_iff.mpr ?_, ?_⟩
    · rw [hheader, ← hn]
      exact ⟨hmem, hle⟩
    · rw [hheader, ← hn]
  · intro h
    obtain ⟨k', hacc, he⟩ := h
    obtain ⟨rfl, rfl⟩ := Prod.mk.inj he
    obtain ⟨hmem, hle⟩ := accepted_eq_some_iff.mp hacc
    -- every admitted size leaves room for the header
    have hsize := accepted_bounds hacc
    obtain ⟨source, msgType, lo, hi, l', hr⟩ := slice_eq_cons hp (show 4 ≤ len by omega)
    have hheader := header_of_slice hp hr
    rw [← b.length_slice hp] at hle
    refine firstRecord_eq_some_iff.mpr ⟨source, msgType, lo, hi, l', hr, ?_, hle, ?_⟩
    · rw [hheader]
    · rw [hheader] at hmem ⊢
      exact hmem

/-! ## The switch of the loop -/

section
variable {σ : Type} (liveTrans : TransFn σ)

/-- What the body of the loop does with an accepted record. -/
def onAccepted (h : SBEHeader) (s : DemuxState σ) : Option RecordKind → DemuxState σ
  | some (.msg k) => onMsg liveTrans k h true s
  | some .heartbeat => onHeartbeat true s
  | none => onUnknown s

/-- The cases test the rows of the table for their `MsgType`, one disjunct a row. -/
theorem accepted_of_rows {h : SBEHeader} {len : ℕ} {kind : RecordKind} {ok : Bool}
    (rows : List (UInt8 × ℕ))
    (hrows : admitted.filter (fun r => r.2.1 == h.msgType) = rows.map fun r => (kind, h.msgType, r))
    (hok : ok = rows.any fun r => h.fits r.1 r.2 len) :
    h.accepted len = if ok then some kind else none := by
  ext k
  -- the rows of the type are all there is to look at
  have hmem : (k, h.msgType, h.securityIDSource, h.msgLen) ∈ admitted ↔
      k = kind ∧ (h.securityIDSource, h.msgLen) ∈ rows := by
    have hfilter : (k, h.msgType, h.securityIDSource, h.msgLen)
        ∈ admitted.filter (fun r => r.2.1 == h.msgType) ↔
          (k, h.msgType, h.securityIDSource, h.msgLen) ∈ admitted := by
      rw [List.mem_filter]
      simp
    rw [← hfilter, hrows, List.mem_map]
    constructor
    · intro hr
      obtain ⟨r, hr, he⟩ := hr
      obtain ⟨hk, he⟩ := Prod.mk.inj he
      exact ⟨hk.symm, (Prod.mk.inj he).2 ▸ hr⟩
    · intro hr
      exact ⟨_, hr.2, by rw [hr.1]⟩
  have hany : ok = true ↔ (h.securityIDSource, h.msgLen) ∈ rows ∧ h.msgLen ≤ len := by
    rw [hok, List.any_eq_true]
    constructor
    · intro hr
      obtain ⟨r, hr, hfits⟩ := hr
      simp only [SBEHeader.fits, Bool.and_eq_true, beq_iff_eq, decide_eq_true_eq] at hfits
      obtain ⟨⟨hs, hn⟩, hle⟩ := hfits
      rw [hs, hn]
      exact ⟨hr, hle⟩
    · intro hr
      exact ⟨_, hr.1, by simp [SBEHeader.fits, hr.2]⟩
  rw [accepted_eq_some_iff, hmem, and_assoc, ← hany]
  cases ok
  · simp
  · simp [eq_comm]

/-- A market data case of the switch, by its rows of the table. -/
theorem onMsg_eq {k : MsgKind} {h : SBEHeader} {ok : Bool} {s : DemuxState σ}
    (rows : List (UInt8 × ℕ))
    (hrows : admitted.filter (fun r => r.2.1 == h.msgType)
      = rows.map fun r => (.msg k, h.msgType, r))
    (hok : ok = rows.any fun r => h.fits r.1 r.2 s.len) :
    onMsg liveTrans k h ok s = onAccepted liveTrans h s (h.accepted s.len) := by
  rw [accepted_of_rows rows hrows hok]
  cases ok <;> rfl

theorem onHeartbeat_eq {h : SBEHeader} {s : DemuxState σ} (ht : h.msgType = msgTypeHeartbeat) :
    onHeartbeat (okHeartbeat h s.len) s = onAccepted liveTrans h s (h.accepted s.len) := by
  have hok : okHeartbeat h s.len = [(securityIDSourceSSH, sizeofHeader),
      (securityIDSourceSSZ, sizeofHeader)].any fun r => h.fits r.1 r.2 s.len := by
    simp only [okHeartbeat, List.any_cons, List.any_nil, SBEHeader.fits, Bool.or_false,
      Bool.and_assoc, Bool.and_or_distrib_right]
  rw [accepted_of_rows _ (by rw [ht]; rfl) hok]
  cases okHeartbeat h s.len <;> rfl

/-- **The switch takes exactly the admitted combinations.** -/
theorem demuxSwitch_eq (h : SBEHeader) (s : DemuxState σ) :
    demuxSwitch liveTrans h s = onAccepted liveTrans h s (h.accepted s.len) := by
  -- one case a type, with its rows of the table
  unfold demuxSwitch
  by_cases h1 : h.msgType = msgTypeSSHInstrumentSnap
  · rw [if_pos h1]
    exact onMsg_eq liveTrans [(securityIDSourceSSH, sizeofSSHInstrumentSnap),
      (securityIDSourceSSZ, sizeofSSZInstrumentSnap)] (by rw [h1]; rfl) (by simp [okInstrumentSnap])
  rw [if_neg h1]
  by_cases h2 : h.msgType = msgTypeSSHIndexSnap
  · rw [if_pos h2]
    exact onMsg_eq liveTrans [(securityIDSourceSSH, sizeofSSHIndexSnap),
      (securityIDSourceSSZ, sizeofSSZIndexSnap)] (by rw [h2]; rfl) (by simp [okIndexSnap])
  rw [if_neg h2]
  by_cases h3 : h.msgType = msgTypeSSZOptionSnap
  · rw [if_pos h3]
    exact onMsg_eq liveTrans [(securityIDSourceSSZ, sizeofSSZOptionSnap)]
      (by rw [h3]; rfl) (by simp [okOptionSnap])
  rw [if_neg h3]
  by_cases h4 : h.msgType = msgTypeSSZFundSnap
  · rw [if_pos h4]
    exact onMsg_eq liveTrans [(securityIDSourceSSZ, sizeofSSZFundSnap)]
      (by rw [h4]; rfl) (by simp [okFundSnap])
  rw [if_neg h4]
  by_cases h5 : h.msgType = msgTypeSSHOrder
  · rw [if_pos h5]
    exact onMsg_eq liveTrans [(securityIDSourceSSH, sizeofSSHOrd),
      (securityIDSourceSSZ, sizeofSSZOrd)] (by rw [h5]; rfl) (by simp [okOrder])
  rw [if_neg h5]
  by_cases h6 : h.msgType = msgTypeSSHExecution
  · rw [if_pos h6]
    exact onMsg_eq liveTrans [(securityIDSourceSSH, sizeofSSHExe),
      (securityIDSourceSSZ, sizeofSSZExe)] (by rw [h6]; rfl) (by simp [okExecution])
  rw [if_neg h6]
  by_cases h7 : h.msgType = msgTypeSSHInstrumentSnapx5
  · rw [if_pos h7]
    exact onMsg_eq liveTrans [(securityIDSourceSSH, sizeofSSHInstrumentSnapx5)]
      (by rw [h7]; rfl) (by simp [okInstrumentSnapx5])
  rw [if_neg h7]
  by_cases h8 : h.msgType = msgTypeSSHFundSnapx5
  · rw [if_pos h8]
    exact onMsg_eq liveTrans [(securityIDSourceSSH, sizeofSSHFundSnapx5)]
      (by rw [h8]; rfl) (by simp [okFundSnapx5])
  rw [if_neg h8]
  by_cases h9 : h.msgType = msgTypeSSHIndexSnapx5
  · rw [if_pos h9]
    exact onMsg_eq liveTrans [(securityIDSourceSSH, sizeofSSHIndexSnapx5)]
      (by rw [h9]; rfl) (by simp [okIndexSnapx5])
  rw [if_neg h9]
  by_cases h10 : h.msgType = msgTypeSSHOptionSnapx5
  · rw [if_pos h10]
    exact onMsg_eq liveTrans [(securityIDSourceSSH, sizeofSSHOptionSnapx5)]
      (by rw [h10]; rfl) (by simp [okOptionSnapx5])
  rw [if_neg h10]
  by_cases h11 : h.msgType = msgTypeHeartbeat
  · rw [if_pos h11]
    exact onHeartbeat_eq liveTrans h11
  rw [if_neg h11]
  -- no row of the table has another type
  have hnone : h.accepted s.len = none := by
    refine Option.eq_none_iff_forall_ne_some.mpr fun k hk => ?_
    have hmem := admitted_msgType _ (accepted_eq_some_iff.mp hk).1
    simp only [List.mem_cons, List.not_mem_nil, or_false] at hmem
    tauto
  rw [hnone]
  rfl

end

end S4LibLite.Network
