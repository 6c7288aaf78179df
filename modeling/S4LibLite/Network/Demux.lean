import S4LibLite.Network.L2Stats

/-!
# The demultiplexing loop of `recv_thread`

The inner `do`/`while` of `L2_udp_recver_th_native::recv_thread` walks the receive
buffer record by record. `demux` is that loop over the buffer's memory, over whatever
`liveTrans` does: a call answers the forwarded flag, or `none` when the process dies in
it, and leaves a new environment behind.

Two ghost lists are kept for the statements about the loop: `headers`, the offsets of
the headers it has read, and `marks`, the records it has recognised.
-/

namespace S4LibLite.Network

open Sbe

/-! ## The receive buffer -/

/-- The memory from `recv_buffer.get()` on: the 4096 bytes of the buffer, and behind
them whatever the process has mapped. -/
structure RecvBuffer where
  mem : Bytes
  size_le : 4096 ≤ mem.length

namespace RecvBuffer

/-- The byte at offset `i`. -/
def byte (b : RecvBuffer) (i : ℕ) : UInt8 := b.mem.getD i 0

/-- The `n` bytes from offset `p` on. -/
def slice (b : RecvBuffer) (p n : ℕ) : Bytes := (b.mem.drop p).take n

/-- A buffer that holds `d`, and zeros behind it. -/
def zeroed (d : Bytes) : RecvBuffer where
  mem := d ++ List.replicate 4096 0
  size_le := by
    rw [List.length_append, List.length_replicate]
    omega

end RecvBuffer

/-- The fields of `SBE_SSH_header_t` the loop looks at. -/
structure SBEHeader where
  securityIDSource : UInt8
  msgType : UInt8
  msgLen : ℕ
deriving DecidableEq, Repr

/-- `(const SBE_SSH_header_t*)(recv_buffer.get() + p)`; `MsgLen` is little-endian. -/
def RecvBuffer.header (b : RecvBuffer) (p : ℕ) : SBEHeader where
  securityIDSource := b.byte p
  msgType := b.byte (p + 1)
  msgLen := (b.byte (p + 2)).toNat + 256 * (b.byte (p + 3)).toNat

/-- One disjunct of a length test: the record is of this exchange, has the size of its
struct, and lies in the `len` bytes left. -/
def SBEHeader.fits (h : SBEHeader) (source : UInt8) (size len : ℕ) : Bool :=
  h.securityIDSource == source && h.msgLen == size && size ≤ len

/-! ## The loop -/

/-- What the loop works on. `p` is an offset into the receive buffer. -/
structure DemuxState (σ : Type) where
  p : ℕ
  len : ℕ
  stats : L2Stats
  env : σ
  died : Bool
  headers : List ℕ
  marks : List (ℕ × RecordKind)

/-- A callee standing for `liveTrans((char*)pH)`, by the offset it is given. -/
abbrev TransFn (σ : Type) := ℕ → σ → Option Bool × σ

section
variable {σ : Type} (liveTrans : TransFn σ)

/-- `_stats.recv_unknown_cnt++; len = 0;` -/
def onUnknown (s : DemuxState σ) : DemuxState σ :=
  { s with stats := s.stats.countUnknown, len := 0 }

/-- The body of a market data case: count, hand to `liveTrans`, advance by `MsgLen`. -/
def onMsg (k : MsgKind) (h : SBEHeader) (ok : Bool) (s : DemuxState σ) : DemuxState σ :=
  if ok then
    match liveTrans s.p s.env with
    -- the counter is raised before the call, which may not come back
    | (none, env) => { s with stats := s.stats.countRecv k, env := env, died := true }
    | (some live, env) =>
      { s with
        stats := (s.stats.countRecv k).countLive k live
        env := env
        len := s.len - h.msgLen
        p := s.p + h.msgLen
        marks := s.marks ++ [(s.p, .msg k)] }
  else onUnknown s

/-- The body of the heartbeat case: it advances by the size of the header. -/
def onHeartbeat (ok : Bool) (s : DemuxState σ) : DemuxState σ :=
  if ok then
    { s with
      stats := s.stats.countHeartbeat
      len := s.len - sizeofHeader
      p := s.p + sizeofHeader
      marks := s.marks ++ [(s.p, .heartbeat)] }
  else onUnknown s

/-- The length tests of the cases, in source order. -/
def okInstrumentSnap (h : SBEHeader) (len : ℕ) : Bool :=
  h.fits securityIDSourceSSH sizeofSSHInstrumentSnap len ||
    h.fits securityIDSourceSSZ sizeofSSZInstrumentSnap len

def okIndexSnap (h : SBEHeader) (len : ℕ) : Bool :=
  h.fits securityIDSourceSSH sizeofSSHIndexSnap len ||
    h.fits securityIDSourceSSZ sizeofSSZIndexSnap len

def okOptionSnap (h : SBEHeader) (len : ℕ) : Bool :=
  h.fits securityIDSourceSSZ sizeofSSZOptionSnap len

def okFundSnap (h : SBEHeader) (len : ℕ) : Bool :=
  h.fits securityIDSourceSSZ sizeofSSZFundSnap len

def okOrder (h : SBEHeader) (len : ℕ) : Bool :=
  h.fits securityIDSourceSSH sizeofSSHOrd len || h.fits securityIDSourceSSZ sizeofSSZOrd len

def okExecution (h : SBEHeader) (len : ℕ) : Bool :=
  h.fits securityIDSourceSSH sizeofSSHExe len || h.fits securityIDSourceSSZ sizeofSSZExe len

def okInstrumentSnapx5 (h : SBEHeader) (len : ℕ) : Bool :=
  h.fits securityIDSourceSSH sizeofSSHInstrumentSnapx5 len

def okFundSnapx5 (h : SBEHeader) (len : ℕ) : Bool :=
  h.fits securityIDSourceSSH sizeofSSHFundSnapx5 len

def okIndexSnapx5 (h : SBEHeader) (len : ℕ) : Bool :=
  h.fits securityIDSourceSSH sizeofSSHIndexSnapx5 len

def okOptionSnapx5 (h : SBEHeader) (len : ℕ) : Bool :=
  h.fits securityIDSourceSSH sizeofSSHOptionSnapx5 len

def okHeartbeat (h : SBEHeader) (len : ℕ) : Bool :=
  (h.securityIDSource == securityIDSourceSSH || h.securityIDSource == securityIDSourceSSZ) &&
    h.msgLen == sizeofHeader && sizeofHeader ≤ len

/-- `switch (pH->MsgType)`. -/
def demuxSwitch (h : SBEHeader) (s : DemuxState σ) : DemuxState σ :=
  -- message types both exchanges send
  if h.msgType = msgTypeSSHInstrumentSnap then
    onMsg liveTrans .instrumentSnap h (okInstrumentSnap h s.len) s
  else if h.msgType = msgTypeSSHIndexSnap then
    onMsg liveTrans .indexSnap h (okIndexSnap h s.len) s
  else if h.msgType = msgTypeSSZOptionSnap then
    onMsg liveTrans .optionSnap h (okOptionSnap h s.len) s
  else if h.msgType = msgTypeSSZFundSnap then
    onMsg liveTrans .fundSnap h (okFundSnap h s.len) s
  else if h.msgType = msgTypeSSHOrder then
    onMsg liveTrans .order h (okOrder h s.len) s
  else if h.msgType = msgTypeSSHExecution then
    onMsg liveTrans .exec h (okExecution h s.len) s
  else if h.msgType = msgTypeSSHInstrumentSnapx5 then
    onMsg liveTrans .instrumentSnapx5 h (okInstrumentSnapx5 h s.len) s
  else if h.msgType = msgTypeSSHFundSnapx5 then
    onMsg liveTrans .fundSnapx5 h (okFundSnapx5 h s.len) s
  else if h.msgType = msgTypeSSHIndexSnapx5 then
    onMsg liveTrans .indexSnapx5 h (okIndexSnapx5 h s.len) s
  else if h.msgType = msgTypeSSHOptionSnapx5 then
    onMsg liveTrans .optionSnapx5 h (okOptionSnapx5 h s.len) s
  else if h.msgType = msgTypeHeartbeat then
    onHeartbeat (okHeartbeat h s.len) s
  else onUnknown s

/-- The body of the loop: the header at `p` is read whatever `len` is. -/
def demuxStep (b : RecvBuffer) (s : DemuxState σ) : DemuxState σ :=
  demuxSwitch liveTrans (b.header s.p) { s with headers := s.headers ++ [s.p] }

end

end S4LibLite.Network
