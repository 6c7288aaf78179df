import S4LibLite.Network.LiveTrans

/-!
# What decides on a record

`liveTrans` decides by the exchange and by the number `atoi` reads, which begins in the
`SecurityID` of the record and ends where its digits do.

* `decided_inside`, with another character in the field, the field decides;
* `exists_undecided`, otherwise the bytes behind it do;
* `independent_iff`, the fields that decide.
-/

namespace S4LibLite.Network

open Sbe MktCode

/-! ## Two records with one field -/

/-- An accepted record of market data, of the exchange `source` and with `field` for its
`SecurityID`. -/
structure FieldRecord (b : RecvBuffer) (p len : ℕ) (source : UInt8) (field : Bytes) : Prop where
  accepted : ∃ k, (b.header p).accepted len = some (.msg k)
  inside : p + len ≤ 4096
  source_eq : (b.header p).securityIDSource = source
  field_eq : b.slice (p + 4) 9 = field

/-- The offsets `liveTrans` reads to decide on the record at `p`: its `SecurityIDSource`, and the
characters `atoi` looks at. -/
def decisionReads (b : RecvBuffer) (p : ℕ) : List ℕ :=
  p :: (List.range (strtolRead (b.securityID p))).map (p + 4 + ·)

/-- Whatever else is in the records and behind them, the field is decided on alike, and nothing
outside the records is read for it. -/
def Independent (source : UInt8) (field : Bytes) : Prop :=
  ∀ (b b' : RecvBuffer) (p p' len len' : ℕ), FieldRecord b p len source field →
    FieldRecord b' p' len' source field → ∀ (l l' : Live), l.liveList = l'.liveList →
      ∀ time time',
        ((liveTrans b time p l).1 = some false ↔ (liveTrans b' time' p' l').1 = some false) ∧
          ∀ i ∈ decisionReads b p, p ≤ i ∧ i < p + (b.header p).msgLen

/-- A record is filtered out by its code. -/
theorem liveTrans_filtered_iff (b : RecvBuffer) (time : UInt64) (p : ℕ) (l : Live) :
    (liveTrans b time p l).1 = some false ↔ liveCode b p ∉ l.liveList := by
  have hforward := liveTrans_forward b time p l
  generalize liveTrans b time p l = r at hforward ⊢
  cases hforward with
  | filtered hcode => exact iff_of_true rfl hcode
  | starved hcode => exact iff_of_false (by simp) (not_not.mpr hcode)
  | overrun hcode => exact iff_of_false (by simp) (not_not.mpr hcode)
  | forwarded hcode => exact iff_of_false (by simp) (not_not.mpr hcode)

/-! ## Fields that decide -/

namespace FieldRecord

variable {b : RecvBuffer} {p len : ℕ} {source : UInt8} {field : Bytes}

theorem liveCode_eq (h : FieldRecord b p len source field) :
    liveCode b p = (atoi (b.securityID p)).toUInt32 + baseOf source := by
  unfold liveCode baseOf
  rw [h.source_eq]
  split_ifs <;> rfl

/-- `SecurityID` begins with the field. -/
theorem securityID_eq (h : FieldRecord b p len source field) :
    b.securityID p = field ++ b.mem.drop (p + 4 + 9) := by
  have hsplit := List.take_append_drop 9 (b.mem.drop (p + 4))
  rw [List.drop_drop] at hsplit
  rw [RecvBuffer.securityID, ← h.field_eq, RecvBuffer.slice, hsplit]

theorem length_field (h : FieldRecord b p len source field) : field.length = 9 := by
  obtain ⟨k, hk⟩ := h.accepted
  have hsize := accepted_bounds hk
  have hin := h.inside
  have hmem := b.size_le
  rw [← h.field_eq]
  exact b.length_slice (by omega)

theorem liveCode_of_rest (h : FieldRecord b p len source field) (hrest : strtolRest field ≠ []) :
    liveCode b p = (atoi field).toUInt32 + baseOf source := by
  rw [h.liveCode_eq, h.securityID_eq, atoi, (strtol_append_of_rest hrest _).1]
  rfl

/-- `atoi` looks at the field alone. -/
theorem strtolRead_le (h : FieldRecord b p len source field) (hrest : strtolRest field ≠ []) :
    strtolRead (b.securityID p) ≤ 9 := by
  have hpos := List.length_pos_of_ne_nil hrest
  rw [h.securityID_eq, strtolRead, (strtol_append_of_rest hrest _).2, List.length_append,
    List.length_append, h.length_field]
  omega

end FieldRecord

/-- **A field with another character** behind its number decides. -/
theorem decided_inside {source : UInt8} {field : Bytes} (hrest : strtolRest field ≠ []) :
    Independent source field := by
  intro b b' p p' len len' h h' l l' hlist time time'
  constructor
  · rw [liveTrans_filtered_iff, liveTrans_filtered_iff, h.liveCode_of_rest hrest,
      h'.liveCode_of_rest hrest, hlist]
  · obtain ⟨k, hk⟩ := h.accepted
    have hsize := (accepted_bounds hk).1
    have hread := h.strtolRead_le hrest
    unfold decisionReads
    refine List.forall_mem_cons.mpr ⟨by omega, fun i hi => ?_⟩
    obtain ⟨j, hj, rfl⟩ := List.mem_map.mp hi
    rw [List.mem_range] at hj
    omega

/-! ## Fields that do not -/

/-- An index record of the exchange `source` with the character `d` behind its `SecurityID`. -/
def indexRecord (source : UInt8) (field : Bytes) (d : UInt8) : RecvBuffer :=
  let size := if source = securityIDSourceSSH then sizeofSSHIndexSnap else sizeofSSZIndexSnap
  .zeroed ([source, msgTypeSSHIndexSnap, UInt8.ofNat size, 0] ++ field ++ [d])

theorem fieldRecord_indexRecord {source : UInt8} {field : Bytes}
    (hsource : source = securityIDSourceSSH ∨ source = securityIDSourceSSZ)
    (hlen : field.length = 9) (d : UInt8) :
    FieldRecord (indexRecord source field d) 0 96 source field := by
  have hfield : (indexRecord source field d).slice (0 + 4) 9 = field := by
    show (field ++ [d] ++ List.replicate 4096 0).take 9 = field
    rw [List.append_assoc, List.take_left' hlen]
  rcases hsource with rfl | rfl
  · have hheader : (indexRecord securityIDSourceSSH field d).header 0
        = ⟨securityIDSourceSSH, msgTypeSSHIndexSnap, 88⟩ := rfl
    exact ⟨⟨.indexSnap, by rw [hheader]; decide⟩, by omega, by rw [hheader], hfield⟩
  · have hheader : (indexRecord securityIDSourceSSZ field d).header 0
        = ⟨securityIDSourceSSZ, msgTypeSSHIndexSnap, 96⟩ := rfl
    exact ⟨⟨.indexSnap, by rw [hheader]; decide⟩, by omega, by rw [hheader], hfield⟩

theorem securityID_indexRecord (source : UInt8) (field : Bytes) (d : UInt8) :
    (indexRecord source field d).securityID 0 = field ++ d :: 0 :: List.replicate 4095 0 := by
  show field ++ [d] ++ List.replicate 4096 0 = _
  rw [List.append_assoc, List.singleton_append, List.replicate_succ]

/-- Neighbouring numbers have different codes. -/
theorem toUInt32_ne {x y : ℤ} (h : y = x + 1 ∨ y = x - 1) :
    (Int32.ofInt x).toUInt32 ≠ (Int32.ofInt y).toUInt32 := by
  intro heq
  have hint : (Int32.ofInt x).toInt = (Int32.ofInt y).toInt :=
    congrArg (fun code => (Int32.ofUInt32 code).toInt) heq
  rw [Int32.toInt_ofInt, Int32.toInt_ofInt, Int.bmod_def, Int.bmod_def,
    show (Int32.size : ℤ) = 4294967296 from rfl] at hint
  split_ifs at hint <;> omega

/-- **A field `atoi` reads to its end** does not decide: a digit behind it is read too. -/
theorem exists_undecided {source : UInt8} {field : Bytes}
    (hsource : source = securityIDSourceSSH ∨ source = securityIDSourceSSZ)
    (hlen : field.length = 9) (hrest : strtolRest field = []) : ¬ Independent source field := by
  intro hind
  obtain ⟨minus, n, hn⟩ := strtol_append_digit hrest (show field.length ≤ 9 by omega)
  have h₀ := fieldRecord_indexRecord hsource hlen 48
  have h₁ := fieldRecord_indexRecord hsource hlen 49
  -- the live list holds the code of the first record only
  let l : Live := ⟨{liveCode (indexRecord source field 48) 0}, ⟨360, fun _ => none, by simp, 0, []⟩,
    []⟩
  have hdecide := (hind _ _ 0 0 96 96 h₀ h₁ l l rfl 0 0).1
  rw [liveTrans_filtered_iff, liveTrans_filtered_iff, not_iff_not] at hdecide
  have hcode := Finset.mem_singleton.mp (hdecide.mp (Finset.mem_singleton_self _))
  rw [h₀.liveCode_eq, h₁.liveCode_eq, UInt32.add_left_inj, atoi, atoi, securityID_indexRecord,
    securityID_indexRecord, hn 48 (by decide), hn 49 (by decide)] at hcode
  have hdigit : (digitVal 48 : ℤ) = 0 ∧ (digitVal 49 : ℤ) = 1 := ⟨rfl, rfl⟩
  refine toUInt32_ne ?_ hcode.symm
  rw [hdigit.1, hdigit.2]
  cases minus
  · left
    simp
  · right
    simp
    omega

/-- **The fields that decide** are those `atoi` does not read to their end. -/
theorem independent_iff {source : UInt8} {field : Bytes}
    (hsource : source = securityIDSourceSSH ∨ source = securityIDSourceSSZ)
    (hlen : field.length = 9) : Independent source field ↔ strtolRest field ≠ [] := by
  refine ⟨fun hind hrest => ?_, decided_inside⟩
  exact exists_undecided hsource hlen hrest hind

/-- A code of six digits and its NUL. -/
theorem independent_600997 :
    Independent securityIDSourceSSH (lit "600997" ++ [0, 32, 32]) :=
  (independent_iff (Or.inl rfl) (by decide)).mpr (by decide)

/-- Nine digits. -/
theorem not_independent_600997123 : ¬ ∀ source field, Independent source field := by
  intro hall
  have hind := hall securityIDSourceSSH (lit "600997123")
  exact exists_undecided (Or.inl rfl) (by decide) (by decide) hind

end S4LibLite.Network
