import S4LibLite.Common.MktCode
import S4LibLite.Network.DemuxLoop
import S4LibLite.Network.SockUtil

/-!
# The receiver (`L2_udp_recver_th.cpp`, `L2_udp_recver_th_native.cpp`)

`L2Recver` is the state of an `L2_udp_recver_th_native`. An operation answers `none`
when the process dies in it: a null handle or command is dereferenced, or a `memcpy`
leaves its buffer.

The receive thread is its own history: the polls it makes from its first `recv` to the
`_stop` it sees. `stop` joins it, so `stop` is given the polls.
-/

namespace S4LibLite.Network

open Sbe MktCode

/-! ## State -/

/-- What `liveTrans` works on. `copies` records the source range of every `memcpy`, by
offset and length. -/
structure Live where
  liveList : Finset UInt32
  q : L2DataQ
  copies : List (ℕ × ℕ)

structure L2Recver where
  stats : L2Stats
  live : Live
  hasCmdQ : Bool
  reportIntervalMs : UInt32
  lastReportTimeMs : UInt64
  fd : ℤ
  pThread : Bool
  localIp : Bytes
  multicastIp : Bytes

/-- `live_cmd_t`. -/
structure LiveCmd where
  add : Bool
  code : UInt32
deriving DecidableEq, Repr

/-- One turn of the loop of `recv_thread`: what `recv` answers and leaves in the buffer,
the clock, and what the command queue answers. -/
structure Poll where
  recvLen : ℤ
  buffer : RecvBuffer
  nowMs : UInt64
  sizeApprox : ℕ
  cmds : List (Option LiveCmd)
  recvLen_le : recvLen ≤ 4096
  length_cmds : cmds.length ≤ 8

/-! ## Forwarding -/

/-- `SecurityID`, read as a C string from its first character on. -/
def RecvBuffer.securityID (b : RecvBuffer) (p : ℕ) : Bytes := b.mem.drop (p + 4)

/-- The `code` of `liveTrans`. -/
def liveCode (b : RecvBuffer) (p : ℕ) : UInt32 :=
  let code := (atoi (b.securityID p)).toUInt32
  if (b.header p).securityIDSource = securityIDSourceSSH then code + shPRB else code + szPRB

/-- `liveTrans`, on the header at `p`; `time` is `_stats.last_frame_time_ms`. -/
def liveTrans (b : RecvBuffer) (time : UInt64) : TransFn Live := fun p l =>
  let pHeader := b.header p
  if liveCode b p ∈ l.liveList then
    match l.q.pGetTryBest with
    | (none, q) => (none, { l with q := q })
    | (some x, q) =>
      let l := { l with q := q, copies := l.copies ++ [(p, pHeader.msgLen)] }
      match memcpy x.pBuffer (b.slice p pHeader.msgLen) with
      | none => (none, l)
      | some pBuffer =>
        -- the handle goes out of scope, and its destructor sends the frame
        let info := { dataLen := pHeader.msgLen, localTimeMs := time, type := .marketData }
        (some true, { l with q := l.q.send { info := info, pBuffer := pBuffer } })
  else (some false, l)

/-! ## Reports and commands -/

/-- `report_stats(force)`. -/
def reportStats (force : Bool) (nowMs : UInt64) (r : L2Recver) : Option L2Recver :=
  if !force && nowMs < r.lastReportTimeMs + r.reportIntervalMs.toUInt64 then some r
  else
    match r.live.q.pGetTryBest with
    | (none, _) => none
    | (some x, q) =>
      (memcpy x.pBuffer r.stats.toBytes).map fun pBuffer =>
        let info := { dataLen := L2Stats.size, localTimeMs := nowMs, type := .statsData }
        { r with
          live := { r.live with q := q.send { info := info, pBuffer := pBuffer } }
          lastReportTimeMs := nowMs }

/-- The loop of `proc_cmdQ` over its vector of commands: `s` of them were dequeued, `n`
are done. -/
def applyCmds (s : ℕ) : ℕ → List (Option LiveCmd) → Finset UInt32 → Option (Finset UInt32)
  | _, [], liveList => some liveList
  | _, none :: _, _ => none
  | n, some cmd :: cmds, liveList =>
    let liveList := if cmd.add then insert cmd.code liveList else liveList.erase cmd.code
    -- if (++n >= s) break;
    if s ≤ n + 1 then some liveList else applyCmds s (n + 1) cmds liveList

/-- `proc_cmdQ`: the vector has eight places, null behind the commands dequeued. -/
def procCmdQ (sizeApprox : ℕ) (dequeued : List (Option LiveCmd)) (r : L2Recver) :
    Option L2Recver :=
  if r.hasCmdQ = false ∨ sizeApprox = 0 then some r
  else
    let cmds := dequeued ++ List.replicate (8 - dequeued.length) none
    (applyCmds dequeued.length 0 cmds r.live.liveList).map fun liveList =>
      { r with
        live := { r.live with liveList := liveList }
        stats := { r.stats with liveCodeNb := liveList.card } }

/-! ## The receive thread -/

/-- The loop over the records of a datagram of `n` bytes, from its first byte. -/
def datagram {σ : Type} (n : ℕ) (stats : L2Stats) (env : σ) : DemuxState σ where
  p := 0
  len := n
  stats := stats
  env := env
  died := false
  headers := []
  marks := []

/-- The counters as a datagram arrives. -/
def L2Stats.arrive (stats : L2Stats) (nowMs : UInt64) : L2Stats :=
  { stats with recvFrameCnt := stats.recvFrameCnt + 1, lastFrameTimeMs := nowMs }

/-- The branch `recv_len > 0`. -/
def onDatagram (poll : Poll) (r : L2Recver) : Option L2Recver :=
  let s := demux (liveTrans poll.buffer poll.nowMs) poll.buffer
    (datagram poll.recvLen.toNat (r.stats.arrive poll.nowMs) r.live)
  if s.died then none else some { r with stats := s.stats, live := s.env }

/-- The branch `recv_len == -1`. -/
def onIdle (poll : Poll) (r : L2Recver) : Option L2Recver :=
  (reportStats false poll.nowMs r).bind (procCmdQ poll.sizeApprox poll.cmds)

/-- The outer loop of `recv_thread`, until `_stop` is seen or `recv` answers less than `-1`. -/
def recvLoop : List Poll → L2Recver → Option L2Recver
  | [], r => some r
  | poll :: polls, r =>
    if 0 < poll.recvLen then (onDatagram poll r).bind (recvLoop polls)
    else if poll.recvLen = -1 then (onIdle poll r).bind (recvLoop polls)
    else if poll.recvLen < -1 then some r
    else recvLoop polls r

/-- `recv_thread`: the loop, and the exit path behind it. -/
def recvThread (polls : List Poll) (nowMs : UInt64) (r : L2Recver) (os : Os) :
    Option (L2Recver × Os) :=
  (recvLoop polls r).bind fun r =>
    (reportStats true nowMs r).map fun r' => (r', os.close r.fd)

/-! ## `start` and `stop` -/

/-- The arguments of `start`. -/
structure StartArgs where
  multiCastIp : Bytes
  localIp : Bytes
  port : UInt16
  udpLite : Bool

/-- The end of `start`: the addresses are kept and the thread is created. -/
def startThread (args : StartArgs) (r : L2Recver) (os : Os) : Bool × L2Recver × Os :=
  if r.fd < 0 then (false, r, os)
  else
    (true, { r with localIp := args.localIp, multicastIp := args.multiCastIp, pThread := true }, os)

/-- `start` on a multicast address. -/
def startMulticast (args : StartArgs) (calls : StartCalls) (r : L2Recver) (os : Os) :
    Bool × L2Recver × Os :=
  let (fd, os) := bindUdpSock calls args.port (lit "0.0.0.0") args.udpLite os
  let r := { r with fd := fd }
  if fd < 0 then (false, r, os)
  else
    let r := { r with localIp := args.localIp, multicastIp := args.multiCastIp }
    let (rc, os) := addRouteViaIP calls.route args.multiCastIp args.localIp os
    -- neither failure closes the socket, and the second one keeps the route
    if rc ≠ 0 then (false, { r with localIp := [], multicastIp := [] }, os)
    else if joinMultiAddr calls args.multiCastIp (lit "0.0.0.0") ≠ 0 then (false, r, os)
    else startThread args r os

/-- `start`. -/
def start (args : StartArgs) (calls : StartCalls) (r : L2Recver) (os : Os) :
    Bool × L2Recver × Os :=
  if r.pThread then (false, r, os)
  else
    let r := { r with stats := L2Stats.zero, localIp := [], multicastIp := [] }
    if isMulticastAddress args.multiCastIp then startMulticast args calls r os
    else
      let (fd, os) := bindUdpSock calls args.port args.localIp args.udpLite os
      startThread args { r with fd := fd } os

/-- `stop`, joining a thread that has made `polls` and reports at `nowMs`. -/
def stop (calls : RouteCalls) (polls : List Poll) (nowMs : UInt64) (r : L2Recver) (os : Os) :
    Option (Bool × L2Recver × Os) :=
  if r.pThread then
    (recvThread polls nowMs r os).map fun (r, os) =>
      let r := { r with pThread := false }
      -- the address is kept for unicast too
      let os := if r.multicastIp = [] then os
        else (delRouteViaIP calls r.multicastIp r.localIp os).2
      (true, { r with fd := -1 }, os)
  else some (true, r, os)

end S4LibLite.Network
