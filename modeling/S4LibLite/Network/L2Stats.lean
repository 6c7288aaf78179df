import S4LibLite.Common.CStr
import S4LibLite.Network.Sbe

/-!
# Counters and particles (`L2_udp_recver_th.h`)

`L2Stats` is `L2Stats_t`. Its ten `recv_*_cnt` and ten `live_*_cnt` fields are two
functions of the kind of market data; `fields` lists them in declaration order.
Counters are natural numbers: `size_t` wraps only past `2^64` records.

`L2DataQ` is the receiver's side of the data queue: what each `P_get_tryBest` hands
out, and the particles whose handles it has let go of, oldest first.
-/

namespace S4LibLite.Network

open Sbe

/-! ## `L2Stats_t` -/

structure L2Stats where
  recvFrameCnt : ℕ
  recvHeartbeatCnt : ℕ
  /-- `recv_instrument_snap_cnt` to `recv_option_snapx5_cnt`. -/
  recvCnt : MsgKind → ℕ
  recvUnknownCnt : ℕ
  lastFrameTimeMs : UInt64
  liveCodeNb : ℕ
  /-- `live_instrument_snap_cnt` to `live_option_snapx5_cnt`. -/
  liveCnt : MsgKind → ℕ

namespace L2Stats

/-- `memset(&_stats, 0, sizeof(_stats))`. -/
def zero : L2Stats where
  recvFrameCnt := 0
  recvHeartbeatCnt := 0
  recvCnt := fun _ => 0
  recvUnknownCnt := 0
  lastFrameTimeMs := 0
  liveCodeNb := 0
  liveCnt := fun _ => 0

/-- `_stats.recv_<k>_cnt++`. -/
def countRecv (s : L2Stats) (k : MsgKind) : L2Stats :=
  { s with recvCnt := fun j => if j = k then s.recvCnt j + 1 else s.recvCnt j }

/-- `_stats.live_<k>_cnt += b`. -/
def countLive (s : L2Stats) (k : MsgKind) (b : Bool) : L2Stats :=
  { s with liveCnt := fun j => if j = k then s.liveCnt j + b.toNat else s.liveCnt j }

/-- `_stats.recv_heartbeat_cnt++`. -/
def countHeartbeat (s : L2Stats) : L2Stats := { s with recvHeartbeatCnt := s.recvHeartbeatCnt + 1 }

/-- `_stats.recv_unknown_cnt++`. -/
def countUnknown (s : L2Stats) : L2Stats := { s with recvUnknownCnt := s.recvUnknownCnt + 1 }

/-- The kinds in the order of their fields. -/
def kinds : List MsgKind :=
  [.instrumentSnap, .indexSnap, .fundSnap, .optionSnap, .order, .exec,
    .instrumentSnapx5, .fundSnapx5, .indexSnapx5, .optionSnapx5]

/-- The fields of `L2Stats_t` in declaration order. -/
def fields (s : L2Stats) : List ℕ :=
  [s.recvFrameCnt, s.recvHeartbeatCnt] ++ kinds.map s.recvCnt
    ++ [s.recvUnknownCnt, s.lastFrameTimeMs.toNat, s.liveCodeNb] ++ kinds.map s.liveCnt

/-- A 64-bit field in memory. -/
def le64 (n : ℕ) : Bytes := (List.range 8).map fun i => UInt8.ofNat (n / 256 ^ i)

/-- The bytes of the struct. -/
def toBytes (s : L2Stats) : Bytes := s.fields.flatMap le64

/-- `sizeof(L2Stats_t)`. -/
def size : ℕ := packed (List.replicate 25 uint64)

/-- The sum of the ten `live_*_cnt` counters. -/
def liveSum (s : L2Stats) : ℕ := (kinds.map s.liveCnt).sum

theorem size_eq : size = 200 := by decide

/-- A copy of the statistics has their size. -/
theorem length_toBytes (s : L2Stats) : s.toBytes.length = size := by
  rw [size_eq]
  rfl

/-- Forwarding one record raises the sum of the live counters by one. -/
theorem liveSum_countLive (s : L2Stats) (k : MsgKind) (b : Bool) :
    (s.countLive k b).liveSum = s.liveSum + b.toNat := by
  cases k <;> simp [liveSum, countLive, kinds] <;> omega

@[simp] theorem liveSum_countRecv (s : L2Stats) (k : MsgKind) :
    (s.countRecv k).liveSum = s.liveSum := rfl
end L2Stats

/-! ## Particles and the data queue -/

/-- `L2DataType`. -/
inductive L2DataType
  | unknown | marketData | statsData
deriving DecidableEq, Repr

/-- `L2DataInfo_t`. -/
structure L2DataInfo where
  dataLen : ℕ
  localTimeMs : UInt64
  type : L2DataType
deriving DecidableEq, Repr

/-- `queParticle_t<L2DataInfo_t>`: the frame behind a handle. -/
structure Particle where
  info : L2DataInfo
  pBuffer : Bytes
deriving DecidableEq, Repr

/-- The data queue as one receiver sees it. `tryBest i` is the frame its `i`-th
`P_get_tryBest` hands out, with its former contents, or `none` when that call fails;
every frame has a buffer of `pageSize` bytes. -/
structure L2DataQ where
  pageSize : ℕ
  tryBest : ℕ → Option Particle
  length_pBuffer : ∀ i p, tryBest i = some p → p.pBuffer.length = pageSize
  taken : ℕ
  sent : List Particle

namespace L2DataQ

/-- `P_get_tryBest`. -/
def pGetTryBest (q : L2DataQ) : Option Particle × L2DataQ :=
  (q.tryBest q.taken, { q with taken := q.taken + 1 })

/-- The handle of a filled particle goes out of scope. -/
def send (q : L2DataQ) (p : Particle) : L2DataQ := { q with sent := q.sent ++ [p] }

/-- The particles of type `MARKET_DATA` in a list. -/
def marketCount (ps : List Particle) : ℕ := ps.countP fun p => p.info.type = .marketData

end L2DataQ

/-- `memcpy(dst, src, n)` with `src` the `n` source bytes: `none` when they do not fit
the destination. -/
def memcpy (dst src : Bytes) : Option Bytes :=
  if src.length ≤ dst.length then some (src ++ dst.drop src.length) else none

/-- What fits is copied to the front. -/
theorem memcpy_of_le {dst src : Bytes} (h : src.length ≤ dst.length) :
    memcpy dst src = some (src ++ dst.drop src.length) := if_pos h

end S4LibLite.Network
