import S4LibLite.Common.JsonSound
import S4LibLite.Lib.Framing

/-!
# Messages with a length in front (`chat_message.h`)

A `chat_message` is a buffer of 516 bytes. Its first four hold, in decimal and filled up with
spaces, how many of the others are in use. The same buffer is filled again for the next message,
so bytes of an earlier one stay behind the body.

* `ChatMessage` and its functions;
* `framing`, how a message is recognised by its header;
* `received_sent`, messages laid end to end are told apart again;
* `bodyJson_received`, the object in a body comes to the other side.
-/

namespace S4LibLite
namespace Network

open Brackets Json

/-- `header_length`. -/
def headerLength : ℕ := 4

/-- `max_body_length`. -/
def maxBodyLength : ℕ := 512

/-- `chat_message`: `data_` is all of the array, whatever part of it is in use. -/
structure ChatMessage where
  data : Bytes
  bodyLength : ℕ
  length_data : data.length = headerLength + maxBodyLength
  bodyLength_le : bodyLength ≤ maxBodyLength

/-- `%4d`: spaces in front of the text, up to the width. -/
def fmtD (w : ℕ) (v : ℤ) : Bytes :=
  List.replicate (w - (fmtD0 1 v).length) 32 ++ fmtD0 1 v

/-- `body_length_ = std::atoi(header)`: the first four bytes up to a zero, as a `size_t`. -/
def readHeader (data : Bytes) : ℕ :=
  let header := (data.take headerLength).takeWhile (· ≠ 0)
  ((atoi header).toInt % 2 ^ 64).toNat

namespace ChatMessage

/-- `length`. -/
def length (m : ChatMessage) : ℕ := headerLength + m.bodyLength

/-- What is sent, `length()` bytes from `data()` on. -/
def text (m : ChatMessage) : Bytes := m.data.take m.length

/-- `body_length()` bytes from `body()` on. -/
def body (m : ChatMessage) : Bytes := (m.data.drop headerLength).take m.bodyLength

/-- `body_length(new_length)`. -/
def setBodyLength (newLength : ℕ) (m : ChatMessage) : ChatMessage where
  data := m.data
  bodyLength := if newLength > maxBodyLength then maxBodyLength else newLength
  length_data := m.length_data
  bodyLength_le := by split <;> omega

/-- Bytes copied to `data() + offset`, inside the array. -/
def write (offset : ℕ) (s : Bytes) (m : ChatMessage) : Option ChatMessage :=
  if h : offset + s.length ≤ headerLength + maxBodyLength then
    some {
      data := m.data.take offset ++ s ++ m.data.drop (offset + s.length)
      bodyLength := m.bodyLength
      length_data := by
        have := m.length_data
        simp only [List.length_append, List.length_take, List.length_drop]
        omega
      bodyLength_le := m.bodyLength_le }
  else none

/-- `decode_header`. -/
def decodeHeader (m : ChatMessage) : Bool × ChatMessage :=
  if h : readHeader m.data > maxBodyLength then
    (false, ⟨m.data, 0, m.length_data, Nat.zero_le _⟩)
  else (true, ⟨m.data, readHeader m.data, m.length_data, Nat.not_lt.mp h⟩)

/-- `encode_header`. -/
def encodeHeader (m : ChatMessage) : ChatMessage where
  data := (fmtD headerLength m.bodyLength).takeD headerLength 0 ++ m.data.drop headerLength
  bodyLength := m.bodyLength
  length_data := by
    have := m.length_data
    rw [List.length_append, List.takeD_length, List.length_drop]
    omega
  bodyLength_le := m.bodyLength_le

/-- `body_json`, with `json::parse` as a parameter. -/
def bodyJson {α : Type*} (parse : Bytes → α) (m : ChatMessage) : Option (Option α) :=
  (searchJson m.body).map fun r =>
    if r.found then some (parse ((m.body.drop r.start.toNat).take (r.stop - r.start + 1).toNat))
    else none

/-- A message made of a text: its length, as much of it as the body holds, and the header. -/
def compose (s : Bytes) (m : ChatMessage) : Option ChatMessage :=
  let m := m.setBodyLength s.length
  (m.write headerLength (s.take m.bodyLength)).map encodeHeader

/-- A message taken from a stream: the header into `data()`, and, when `decode_header` accepts it,
the rest into `body()`. -/
def receive (s : Bytes) (m : ChatMessage) : Option ChatMessage :=
  (m.write 0 (s.take headerLength)).bind fun m =>
    if m.decodeHeader.1 then m.decodeHeader.2.write headerLength (s.drop headerLength) else none

end ChatMessage

/-! ## The header -/

/-- Leading white space changes nothing. -/
theorem atoi_append_of_isSpace {s : Bytes} (hs : ∀ c ∈ s, isSpace c = true) (t : Bytes) :
    atoi (s ++ t) = atoi t := by
  have hskip : (s ++ t).dropWhile isSpace = t.dropWhile isSpace :=
    List.dropWhile_append_of_pos hs
  rw [atoi, atoi, strtol, strtol, hskip]
  dsimp only
  split <;> rfl

theorem length_fmtD {n : ℕ} (hn : n ≤ maxBodyLength) :
    (fmtD headerLength n).length = headerLength := by
  have hle : (fmtD0 1 n).length ≤ 4 :=
    length_fmtD0_le (by norm_num) (lt_of_le_of_lt hn (by decide))
  rw [fmtD, List.length_append, List.length_replicate, headerLength]
  omega

/-- Only the header is read. -/
theorem readHeader_append {s : Bytes} (hlen : s.length = headerLength) (t : Bytes) :
    readHeader (s ++ t) = readHeader s := by
  rw [readHeader, readHeader, ← hlen, List.take_left, List.take_length]

/-- A length reads back. -/
theorem readHeader_fmtD {n : ℕ} (hn : n ≤ maxBodyLength) :
    readHeader (fmtD headerLength n) = n := by
  have hlen := length_fmtD hn
  have hdigits : ∀ c ∈ fmtD0 1 n, isDigit c = true := fun c hc => isDigit_of_mem_fmtD0 hc
  have hnul : ∀ c ∈ fmtD headerLength n, decide (c ≠ 0) = true := by
    intro c hc
    rw [decide_eq_true_eq]
    rintro rfl
    rcases List.mem_append.mp hc with hc | hc
    · exact absurd (List.eq_of_mem_replicate hc) (by decide)
    · exact absurd (hdigits _ hc) (by decide)
  have hshort : (fmtD0 1 n).length ≤ 9 :=
    length_fmtD0_le (by norm_num) (lt_of_le_of_lt hn (by decide))
  have hvalue : atoi (fmtD headerLength n) = Int32.ofInt n := by
    rw [fmtD, atoi_append_of_isSpace (fun c hc => by rw [List.eq_of_mem_replicate hc]; rfl)]
    have := atoi_digits (t := []) (fmtD0_ne_nil (by norm_num) n) hdigits hshort (by simp)
    rwa [List.append_nil, decVal_fmtD0] at this
  rw [readHeader, List.take_of_length_le hlen.le,
    List.takeWhile_eq_self_iff.mpr hnul, hvalue,
    Int32.toInt_ofInt_of_le (by omega) (by rw [maxBodyLength] at hn; omega)]
  rw [maxBodyLength] at hn
  omega

/-! ## Messages in a stream -/

/-- A message is recognised by its header and as many bytes behind it as the header says. -/
def framing : Framing UInt8 ℕ where
  first l :=
    if readHeader l ≤ maxBodyLength ∧ headerLength + readHeader l ≤ l.length then
      some (readHeader l, headerLength + readHeader l)
    else none
  first_pos h := by
    split at h
    · obtain ⟨-, rfl⟩ := Prod.mk.inj (Option.some.inj h)
      exact Nat.add_pos_left (by decide) _
    · exact absurd h (by simp)
  first_le h := by
    split at h
    · rename_i hbounds
      obtain ⟨-, rfl⟩ := Prod.mk.inj (Option.some.inj h)
      exact hbounds.2
    · exact absurd h (by simp)
  first_take {l k n} h r := by
    split at h
    · rename_i hbounds
      obtain ⟨rfl, rfl⟩ := Prod.mk.inj (Option.some.inj h)
      have hread : readHeader (l.take (headerLength + readHeader l) ++ r) = readHeader l := by
        rw [readHeader, List.take_append_of_le_length (by rw [List.length_take]; omega),
          List.take_take, Nat.min_eq_left (Nat.le_add_right _ _), ← readHeader]
      rw [hread, if_pos ⟨hbounds.1, by rw [List.length_append, List.length_take]; omega⟩]
    · exact absurd h (by simp)

namespace ChatMessage

theorem length_body (m : ChatMessage) : m.body.length = m.bodyLength := by
  have := m.length_data
  have := m.bodyLength_le
  rw [body, List.length_take, List.length_drop]
  omega

/-- The header fits its four bytes. -/
theorem data_encodeHeader (m : ChatMessage) :
    m.encodeHeader.data = fmtD headerLength m.bodyLength ++ m.data.drop headerLength := by
  have hlen := length_fmtD m.bodyLength_le
  change List.takeD _ _ _ ++ _ = _
  rw [List.takeD_eq_take _ hlen.ge, List.take_of_length_le hlen.le]

/-- The text is the length and the body. -/
theorem text_encodeHeader (m : ChatMessage) :
    m.encodeHeader.text = fmtD headerLength m.bodyLength ++ m.body := by
  have hlen := length_fmtD m.bodyLength_le
  rw [text, data_encodeHeader, List.take_append, hlen, length, Nat.add_sub_cancel_left,
    List.take_of_length_le (hlen.le.trans (Nat.le_add_right _ _))]
  rfl

/-- A message that is sent is recognised as one. -/
theorem isRecord_encodeHeader (m : ChatMessage) :
    framing.IsRecord m.bodyLength m.encodeHeader.text := by
  have hread : readHeader m.encodeHeader.text = m.bodyLength := by
    rw [text_encodeHeader, readHeader_append (length_fmtD m.bodyLength_le),
      readHeader_fmtD m.bodyLength_le]
  have hlen : m.encodeHeader.text.length = headerLength + m.bodyLength := by
    rw [text_encodeHeader, List.length_append, length_fmtD m.bodyLength_le, length_body]
  rw [Framing.IsRecord, framing]
  dsimp only
  rw [hread, hlen, if_pos ⟨m.bodyLength_le, le_rfl⟩]

/-- Whatever is left in the buffer, the message in it is the one that was sent. -/
theorem receive_encodeHeader (m buffer : ChatMessage) :
    ∃ m', receive m.encodeHeader.text buffer = some m' ∧ m'.body = m.body := by
  have hbody := m.length_body
  have hhead := length_fmtD m.bodyLength_le
  have hle := m.bodyLength_le
  have htake : m.encodeHeader.text.take headerLength = fmtD headerLength m.bodyLength := by
    rw [text_encodeHeader, List.take_left' hhead]
  have hdrop : m.encodeHeader.text.drop headerLength = m.body := by
    rw [text_encodeHeader, List.drop_left' hhead]
  have hread : readHeader (fmtD headerLength m.bodyLength ++ buffer.data.drop headerLength)
      = m.bodyLength := by
    rw [readHeader_append hhead, readHeader_fmtD hle]
  rw [receive, htake, hdrop, write, dif_pos (by rw [hhead]; decide), Option.bind_some,
    decodeHeader]
  dsimp only
  simp only [hhead, List.take_zero, List.nil_append, Nat.zero_add, hread]
  rw [dif_neg (Nat.not_lt.mpr hle), if_pos rfl, write, dif_pos (by rw [hbody]; omega)]
  refine ⟨_, rfl, ?_⟩
  rw [body]
  dsimp only
  rw [List.take_left' hhead, List.append_assoc, List.drop_left' hhead, List.take_left' hbody]

/-- The length is cut at `max_body_length`. -/
theorem bodyLength_setBodyLength (n : ℕ) (m : ChatMessage) :
    (m.setBodyLength n).bodyLength = min n maxBodyLength := by
  rw [setBodyLength]
  dsimp only
  split <;> omega

/-- A text that is too long is cut. -/
theorem exists_compose (s : Bytes) (buffer : ChatMessage) :
    ∃ m : ChatMessage, compose s buffer = some m.encodeHeader ∧ m.body = s.take maxBodyLength := by
  have hlength := bodyLength_setBodyLength s.length buffer
  have htake : s.take (buffer.setBodyLength s.length).bodyLength = s.take maxBodyLength := by
    rw [hlength, Nat.min_comm, ← List.take_take, List.take_length]
  have hcut : (s.take maxBodyLength).length = min s.length maxBodyLength := by
    rw [List.length_take, Nat.min_comm]
  have hhead : ((buffer.setBodyLength s.length).data.take headerLength).length = headerLength := by
    rw [List.length_take, ChatMessage.length_data]
    decide
  rw [compose]
  rw [htake, write, dif_pos (by omega), Option.map_some]
  refine ⟨_, rfl, ?_⟩
  rw [body]
  dsimp only
  rw [List.append_assoc, List.drop_left' hhead, List.take_left' (hcut.trans hlength.symm)]

/-- **Texts that are sent one after the other**, each from a buffer of its own, are told apart
again, whatever follows them, and come out as they were, cut at 512 bytes, whatever was in the
buffers before. -/
theorem received_sent (texts : List (Bytes × ChatMessage)) (rest : Bytes) :
    ∃ sent : List ChatMessage, texts.map (fun s => compose s.1 s.2) = sent.map some
      ∧ ∃ received, framing.records (sent.flatMap text ++ rest) = received ++ framing.records rest
        ∧ List.Forall₂ (fun r s => ∀ buffer,
            (receive r.2 buffer).map body = some (s.1.take maxBodyLength)) received texts := by
  induction texts with
  | nil => exact ⟨[], rfl, [], rfl, .nil⟩
  | cons s texts ih =>
    obtain ⟨sent, hsent, received, hrecords, hbodies⟩ := ih
    obtain ⟨m, hcompose, hbody⟩ := exists_compose s.1 s.2
    refine ⟨m.encodeHeader :: sent, ?_, (m.bodyLength, m.encodeHeader.text) :: received, ?_,
      .cons (fun buffer => ?_) hbodies⟩
    · rw [List.map_cons, List.map_cons, hcompose, hsent]
    · rw [List.flatMap_cons, List.append_assoc, Framing.records_append m.isRecord_encodeHeader,
        hrecords, List.cons_append]
    · obtain ⟨m', hm', hsame⟩ := m.receive_encodeHeader buffer
      rw [hm', Option.map_some, hsame, hbody]

/-! ## The object in a body -/

/-- What `substr` cuts out. -/
theorem substr_append (a J b : Bytes) : ((a ++ J ++ b).drop a.length).take J.length = J := by
  rw [List.append_assoc, List.drop_left, List.take_left]

/-- **The object in a body** is what `json::parse` gets if and only if its brackets cancel out. -/
theorem bodyJson_iff {m : ChatMessage} {a J b : Bytes} (hbody : m.body = a ++ J ++ b)
    (ha : 123 ∉ a) (hJ : IsObject J) : bodyJson id m = some (some J) ↔ Cancels (brackets J) := by
  have hlen := m.length_body
  have hle := m.bodyLength_le
  rw [hbody] at hlen
  have hint : ((a ++ J ++ b).length : ℤ) ≤ intMax := by
    rw [hlen]
    exact (Int.ofNat_le.mpr hle).trans (by decide)
  have hsum : (a ++ J ++ b).length = a.length + J.length + b.length := by
    rw [List.length_append, List.length_append]
  have hfinds := (searchJson_object_iff (b := b) ha hJ).1
  rw [toCInt_of_le hint] at hfinds
  rw [bodyJson, hbody, Option.map_eq_some_iff]
  constructor
  · rintro ⟨r, hr, hfound⟩
    split at hfound
    · rename_i hyes
      obtain ⟨start, stop, hstart, hstop, hencloses⟩ := searchJson_sound hr hyes
      -- the search begins at the first brace, and a text as long as the object ends where it does
      have hfirst : r.start = a.length := by
        obtain ⟨t, rfl, -⟩ := object_eq hJ
        rw [start_of_searchJson hr, List.append_assoc, List.append_assoc, List.cons_append,
          find_eq ha, toCInt_of_le (by omega)]
      have hcut := congrArg List.length (Option.some.inj hfound)
      have horder := hencloses.order
      have hinside := hencloses.inside
      rw [id, List.length_take, List.length_drop] at hcut
      refine (hfinds.mp ⟨r, hr, hyes, hfirst, ?_⟩).1
      omega
    · exact absurd hfound (by simp)
  · intro hcancels
    obtain ⟨r, hr, hyes, hstart, hstop⟩ := hfinds.mpr ⟨hcancels, by omega, by omega⟩
    refine ⟨r, hr, ?_⟩
    have hcount : (r.stop - r.start + 1).toNat = J.length := by omega
    rw [if_pos hyes, hcount, hstart, Int.toNat_natCast, substr_append, id]

/-- What is parsed does not depend on the parser. -/
theorem bodyJson_eq_map {α : Type*} (parse : Bytes → α) (m : ChatMessage) :
    bodyJson parse m = (bodyJson id m).map (Option.map parse) := by
  rw [bodyJson, bodyJson, Option.map_map]
  congr 1
  funext r
  rw [Function.comp_apply]
  split <;> rfl

/-- **An object that is sent** arrives at `json::parse` on the other side if its brackets, those in
its strings included, cancel out, and only then. -/
theorem bodyJson_received_iff {α : Type*} (parse : Bytes → α) {m : ChatMessage} {a J b : Bytes}
    (hbody : m.body = a ++ J ++ b) (ha : 123 ∉ a) (hJ : IsObject J) (buffer : ChatMessage) :
    ((receive m.encodeHeader.text buffer).bind (bodyJson id) = some (some J) ↔
        Cancels (brackets J))
      ∧ (Cancels (brackets J) →
        (receive m.encodeHeader.text buffer).bind (bodyJson parse) = some (some (parse J))) := by
  obtain ⟨m', hm', hsame⟩ := m.receive_encodeHeader buffer
  have hiff := bodyJson_iff (hsame.trans hbody) ha hJ
  rw [hm', Option.bind_some, Option.bind_some]
  refine ⟨hiff, fun hcancels => ?_⟩
  rw [bodyJson_eq_map, hiff.mpr hcancels, Option.map_some, Option.map_some]

/-- `x{"a":1}y`, behind whose nine bytes a longer message has left its own. -/
def plainMessage : ChatMessage where
  data := [32, 32, 32, 57] ++ ([120] ++ plainObject ++ [121]) ++ List.replicate 503 48
  bodyLength := 9
  length_data := by rw [List.length_append, List.length_replicate]; rfl
  bodyLength_le := by decide

theorem bodyJson_received_plain :
    ((receive plainMessage.encodeHeader.text plainMessage).bind (bodyJson id)
        = some (some plainObject) ↔ Cancels (brackets plainObject))
      ∧ (Cancels (brackets plainObject) →
        (receive plainMessage.encodeHeader.text plainMessage).bind (bodyJson List.length)
          = some (some plainObject.length)) := by
  have hdigits : IsDigits [49] := ⟨by decide, List.forall_mem_singleton.mpr rfl⟩
  have hone : Derives .value [49] := Derives.number
    ⟨[], [49], [], [], rfl, Or.inl rfl, ⟨hdigits, by decide⟩, Or.inl rfl, Or.inl rfl⟩
  have hobject : IsObject plainObject := isObject_member hone
  exact bodyJson_received_iff List.length (a := [120]) (b := [121]) rfl (by decide) hobject
    plainMessage

end ChatMessage
end Network
end S4LibLite
