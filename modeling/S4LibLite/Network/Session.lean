import S4LibLite.Network.RecvThread

/-!
# A session of the receiver, from `start` to `stop`

Forwarding is decided in `liveTrans`, counted in the switch of the loop, and reported
between datagrams. `Reconciled` ties the three together, and every poll keeps it.

* `recvLoop_reconciled`, the counters and the particles agree after any polls;
* `recvLoop_isSome`, the thread survives when the queue is `Healthy` and every command
  it is promised is there;
* `session_reconciles`, the two from a successful `start` to the end of `stop`.
-/

namespace S4LibLite.Network

open Sbe L2DataQ

/-! ## The outer loop -/

/-- **Invariant rule.** What a datagram and an idle turn preserve, the thread preserves. -/
theorem recvLoop_invariant {P : L2Recver → Prop}
    (hdatagram : ∀ poll r r', 0 < poll.recvLen → onDatagram poll r = some r' → P r → P r')
    (hidle : ∀ poll r r', onIdle poll r = some r' → P r → P r') {polls : List Poll}
    {r r' : L2Recver} (hrun : recvLoop polls r = some r') (h : P r) : P r' := by
  -- over the polls: the branches of the loop are the cases of each
  induction polls generalizing r with
  | nil =>
    obtain rfl := Option.some.inj hrun
    exact h
  | cons poll polls ih =>
    rw [recvLoop] at hrun
    by_cases hpos : 0 < poll.recvLen
    · rw [if_pos hpos] at hrun
      obtain ⟨r₁, h₁, hrun⟩ := Option.bind_eq_some_iff.mp hrun
      exact ih hrun (hdatagram poll r r₁ hpos h₁ h)
    rw [if_neg hpos] at hrun
    by_cases hnone : poll.recvLen = -1
    · rw [if_pos hnone] at hrun
      obtain ⟨r₁, h₁, hrun⟩ := Option.bind_eq_some_iff.mp hrun
      exact ih hrun (hidle poll r r₁ h₁ h)
    rw [if_neg hnone] at hrun
    by_cases hbreak : poll.recvLen < -1
    · rw [if_pos hbreak] at hrun
      obtain rfl := Option.some.inj hrun
      exact h
    · rw [if_neg hbreak] at hrun
      exact ih hrun h

/-! ## Counters and particles -/

/-- What the counters have to do with one another and with the particles put on the
queue after `sent`. -/
structure Accounts (sent : List Particle) (stats : L2Stats) (q : L2DataQ) : Prop where
  live_le : ∀ k, stats.liveCnt k ≤ stats.recvCnt k
  sent_eq : ∃ new, q.sent = sent ++ new ∧ stats.liveSum = marketCount new

/-- The counters of the receiver agree with what it has put on the queue since `sent`. -/
structure Reconciled (sent : List Particle) (r : L2Recver) : Prop where
  accounts : Accounts sent r.stats r.live.q
  unknown_le : r.stats.recvUnknownCnt ≤ r.stats.recvFrameCnt

theorem marketCount_append_singleton (ps : List Particle) (p : Particle) :
    marketCount (ps ++ [p])
      = marketCount ps + if p.info.type = .marketData then 1 else 0 := by
  unfold marketCount
  rw [List.countP_append, List.countP_singleton]
  simp

namespace Accounts

variable {sent : List Particle} {stats : L2Stats} {q q' : L2DataQ}

/-- Received and forwarded: one more particle of market data. -/
theorem forward (h : Accounts sent stats q) (k : MsgKind) {p : Particle}
    (hp : p.info.type = .marketData) (hq : q'.sent = q.sent ++ [p]) :
    Accounts sent ((stats.countRecv k).countLive k true) q' where
  live_le j := by
    have := h.live_le j
    simp only [L2Stats.countLive, L2Stats.countRecv, Bool.toNat_true]
    by_cases hj : j = k
    · rw [if_pos hj, if_pos hj]
      omega
    · rw [if_neg hj, if_neg hj]
      exact this
  sent_eq := by
    obtain ⟨new, hnew, hsum⟩ := h.sent_eq
    refine ⟨new ++ [p], by rw [hq, hnew, List.append_assoc], ?_⟩
    rw [L2Stats.liveSum_countLive, L2Stats.liveSum_countRecv, marketCount_append_singleton,
      if_pos hp, hsum]
    rfl

/-- Received only. -/
theorem keep (h : Accounts sent stats q) (k : MsgKind) (hq : q'.sent = q.sent) :
    Accounts sent (stats.countRecv k) q' where
  live_le j := by
    have := h.live_le j
    simp only [L2Stats.countRecv]
    by_cases hj : j = k
    · rw [if_pos hj]
      omega
    · rw [if_neg hj]
      exact this
  sent_eq := by
    rw [hq]
    exact h.sent_eq

/-- A particle that is not market data does not count. -/
theorem report (h : Accounts sent stats q) {p : Particle} (hp : p.info.type ≠ .marketData)
    (hq : q'.sent = q.sent ++ [p]) : Accounts sent stats q' where
  live_le := h.live_le
  sent_eq := by
    obtain ⟨new, hnew, hsum⟩ := h.sent_eq
    refine ⟨new ++ [p], by rw [hq, hnew, List.append_assoc], ?_⟩
    rw [marketCount_append_singleton, if_neg hp, Nat.add_zero, hsum]

end Accounts

theorem countLive_false (stats : L2Stats) (k : MsgKind) : stats.countLive k false = stats := by
  unfold L2Stats.countLive
  simp

/-- A turn of the inner loop keeps the accounts. -/
theorem accounts_turn {b : RecvBuffer} {time : UInt64} {sent : List Particle}
    {s s' : DemuxState Live} (hturn : Turn (liveTrans b time) b s s')
    (h : Accounts sent s.stats s.env.q) : Accounts sent s'.stats s'.env.q := by
  have hforward := liveTrans_forward b time s.p s.env
  cases hturn with
  | unknown => exact ⟨h.live_le, h.sent_eq⟩
  | heartbeat => exact ⟨h.live_le, h.sent_eq⟩
  | @died k env _ hcall =>
    rw [hcall] at hforward
    cases hforward with
    -- the record is counted as received, and nothing is sent
    | starved => exact h.keep k rfl
    | overrun => exact h.keep k rfl
  | @msg k live env _ hcall =>
    rw [hcall] at hforward
    cases hforward with
    | filtered =>
      show Accounts sent ((s.stats.countRecv k).countLive k false) s.env.q
      rw [countLive_false]
      exact h.keep k rfl
    | forwarded => exact h.forward k rfl rfl

/-! ## One poll -/

/-- A datagram. -/
theorem onDatagram_reconciled {poll : Poll} {sent : List Particle} {r r' : L2Recver}
    (hpos : 0 < poll.recvLen) (hrun : onDatagram poll r = some r') (h : Reconciled sent r) :
    Reconciled sent r' := by
  have hn : 1 ≤ poll.recvLen.toNat := by omega
  have hn' : poll.recvLen.toNat ≤ 4096 := by
    have := poll.recvLen_le
    omega
  unfold onDatagram at hrun
  simp only at hrun
  generalize hs : demux (liveTrans poll.buffer poll.nowMs) poll.buffer
    (datagram poll.recvLen.toNat (r.stats.arrive poll.nowMs) r.live) = s at hrun
  cases hdied : s.died with
  | true =>
    rw [hdied] at hrun
    exact absurd hrun (by simp)
  | false =>
    rw [hdied, if_neg (by decide)] at hrun
    obtain rfl := Option.some.inj hrun
    have haccounts : Accounts sent s.stats s.env.q := by
      rw [← hs]
      refine demux_invariant (liveTrans poll.buffer poll.nowMs) poll.buffer
        (P := fun s => Accounts sent s.stats s.env.q) ?_ hn ⟨h.accounts.live_le, h.accounts.sent_eq⟩
      intro s s' _ hturn hs
      exact accounts_turn hturn hs
    refine ⟨haccounts, ?_⟩
    -- the loop counts an unknown at its end only: at most one for the frame that has arrived
    have hout := demux_datagram_outcome hn hn' (hs ▸ hdied)
    rw [hs] at hout
    show s.stats.recvUnknownCnt ≤ s.stats.recvFrameCnt
    rw [hout.recvUnknownCnt, hout.recvFrameCnt]
    show r.stats.recvUnknownCnt + _ ≤ r.stats.recvFrameCnt + 1
    have := h.unknown_le
    split_ifs
    · omega
    · omega

/-- What a report is: one particle of statistics. -/
structure Reports (nowMs : UInt64) (r r' : L2Recver) (x : Particle) : Prop where
  left : ∃ q, r' = { r with live := { r.live with q := q }, lastReportTimeMs := nowMs }
  sent : r'.live.q.sent = r.live.q.sent ++ [x]
  type : x.info.type = .statsData
  bytes : x.pBuffer.take x.info.dataLen = r.stats.toBytes

theorem Reports.stats {nowMs : UInt64} {r r' : L2Recver} {x : Particle}
    (h : Reports nowMs r r' x) : r'.stats = r.stats := by
  obtain ⟨q, hq⟩ := h.left
  rw [hq]

/-- A forced report puts one particle on the queue. -/
theorem reportStats_sent {nowMs : UInt64} {r r' : L2Recver}
    (h : reportStats true nowMs r = some r') : ∃ x, Reports nowMs r r' x := by
  unfold reportStats at h
  rw [Bool.not_true, Bool.false_and, if_neg (by decide)] at h
  cases hx : r.live.q.tryBest r.live.q.taken with
  | none =>
    simp only [pGetTryBest, hx] at h
    exact absurd h (by simp)
  | some x =>
    simp only [pGetTryBest, hx] at h
    obtain ⟨pBuffer, hcopy, rfl⟩ := Option.map_eq_some_iff.mp h
    unfold memcpy at hcopy
    by_cases hlen : r.stats.toBytes.length ≤ x.pBuffer.length
    · rw [if_pos hlen] at hcopy
      obtain rfl := Option.some.inj hcopy
      refine ⟨_, ⟨_, rfl⟩, rfl, rfl, ?_⟩
      show List.take L2Stats.size (r.stats.toBytes ++ _) = _
      exact List.take_left' r.stats.length_toBytes
    · rw [if_neg hlen] at hcopy
      exact absurd hcopy (by simp)

/-- A report that is not forced is sent like a forced one, or left out. -/
theorem reportStats_false (nowMs : UInt64) (r : L2Recver) :
    reportStats false nowMs r = some r ∨ reportStats false nowMs r = reportStats true nowMs r := by
  unfold reportStats
  by_cases h : nowMs < r.lastReportTimeMs + r.reportIntervalMs.toUInt64
  · left
    rw [if_pos (by simp [h])]
  · right
    rw [if_neg (by simp [h]), if_neg (by simp)]

/-- A report that returns is sent, unless it is neither forced nor due. -/
theorem reportStats_cases {force : Bool} {nowMs : UInt64} {r r' : L2Recver}
    (h : reportStats force nowMs r = some r') :
    (force = false ∧ r' = r) ∨ ∃ x, Reports nowMs r r' x := by
  cases force with
  | true => exact Or.inr (reportStats_sent h)
  | false =>
    rcases reportStats_false nowMs r with hskip | hsend
    · rw [hskip] at h
      exact Or.inl ⟨rfl, (Option.some.inj h).symm⟩
    · exact Or.inr (reportStats_sent (hsend ▸ h))

/-- A report counts nothing. -/
theorem reportStats_reconciled {force : Bool} {nowMs : UInt64} {sent : List Particle}
    {r r' : L2Recver} (hrun : reportStats force nowMs r = some r') (h : Reconciled sent r) :
    Reconciled sent r' := by
  rcases reportStats_cases hrun with ⟨-, rfl⟩ | ⟨x, hx⟩
  · exact h
  · refine ⟨?_, by rw [hx.stats]; exact h.unknown_le⟩
    rw [hx.stats]
    exact h.accounts.report (by rw [hx.type]; decide) hx.sent

/-- A poll for commands that returns does nothing, or sets the live list and the counter of its
codes. -/
theorem procCmdQ_cases {sizeApprox : ℕ} {cmds : List (Option LiveCmd)} {r r' : L2Recver}
    (h : procCmdQ sizeApprox cmds r = some r') :
    ((r.hasCmdQ = false ∨ sizeApprox = 0) ∧ r' = r) ∨
      ¬ (r.hasCmdQ = false ∨ sizeApprox = 0) ∧ ∃ liveList,
        applyCmds cmds.length 0 (cmds ++ List.replicate (8 - cmds.length) none) r.live.liveList
          = some liveList ∧
        r' = { r with
          live := { r.live with liveList := liveList }
          stats := { r.stats with liveCodeNb := liveList.card } } := by
  unfold procCmdQ at h
  by_cases hq : r.hasCmdQ = false ∨ sizeApprox = 0
  · rw [if_pos hq] at h
    exact Or.inl ⟨hq, (Option.some.inj h).symm⟩
  · rw [if_neg hq] at h
    obtain ⟨liveList, happly, hr⟩ := Option.map_eq_some_iff.mp h
    exact Or.inr ⟨hq, liveList, happly, hr.symm⟩

/-- Commands count nothing. -/
theorem procCmdQ_reconciled {sizeApprox : ℕ} {cmds : List (Option LiveCmd)} {sent : List Particle}
    {r r' : L2Recver} (hrun : procCmdQ sizeApprox cmds r = some r') (h : Reconciled sent r) :
    Reconciled sent r' := by
  rcases procCmdQ_cases hrun with ⟨-, rfl⟩ | ⟨-, liveList, -, rfl⟩
  · exact h
  · exact ⟨⟨h.accounts.live_le, h.accounts.sent_eq⟩, h.unknown_le⟩

/-! ## Whole runs of the thread -/

/-- Any sequence of polls keeps the counters reconciled. -/
theorem recvLoop_reconciled {polls : List Poll} {sent : List Particle} {r r' : L2Recver}
    (hrun : recvLoop polls r = some r') (h : Reconciled sent r) : Reconciled sent r' := by
  refine recvLoop_invariant (P := Reconciled sent) ?_ ?_ hrun h
  · intro poll r r' hpos hrun h
    exact onDatagram_reconciled hpos hrun h
  · intro poll r r' hrun h
    obtain ⟨r₁, h₁, hrun⟩ := Option.bind_eq_some_iff.mp hrun
    exact procCmdQ_reconciled hrun (reportStats_reconciled h₁ h)

/-! ## The thread survives -/

/-- Every `P_get_tryBest` hands out a frame, and frames have room for every record. -/
structure L2DataQ.Healthy (q : L2DataQ) : Prop where
  page : 360 ≤ q.pageSize
  best : ∀ i, (q.tryBest i).isSome

theorem L2DataQ.Healthy.of_eq {q q' : L2DataQ} (h : q.Healthy) (hpage : q'.pageSize = q.pageSize)
    (hbest : q'.tryBest = q.tryBest) : q'.Healthy :=
  ⟨hpage ▸ h.page, hbest ▸ h.best⟩

/-- The command queue keeps what `size_approx` promises, and no command is null. -/
def Poll.Served (poll : Poll) : Prop :=
  poll.sizeApprox ≠ 0 → poll.cmds ≠ [] ∧ ∀ c ∈ poll.cmds, c.isSome

/-- A turn of the inner loop does not kill the process. -/
theorem healthy_turn {b : RecvBuffer} {time : UInt64} {s s' : DemuxState Live}
    (hturn : Turn (liveTrans b time) b s s') (h : s.env.q.Healthy ∧ s.died = false) :
    s'.env.q.Healthy ∧ s'.died = false := by
  have hforward := liveTrans_forward b time s.p s.env
  cases hturn with
  | unknown => exact h
  | heartbeat => exact h
  | died hacc hcall =>
    rw [hcall] at hforward
    cases hforward with
    | starved _ hnone =>
      -- `P_get_tryBest` does hand out a frame
      have := h.1.best s.env.q.taken
      rw [hnone] at this
      exact absurd this (by decide)
    | overrun _ hx hlen =>
      -- a record has at most 360 bytes, and the frame a page
      have hsize := accepted_bounds hacc
      have hpage := h.1.page
      have hbuf := s.env.q.length_pBuffer _ _ hx
      have hslice : (b.slice s.p (b.header s.p).msgLen).length ≤ (b.header s.p).msgLen :=
        List.length_take_le _ _
      omega
  | msg _ hcall =>
    rw [hcall] at hforward
    cases hforward with
    | filtered => exact h
    | forwarded => exact ⟨h.1.of_eq rfl rfl, h.2⟩

/-- A healthy queue has a particle for every record. -/
theorem onDatagram_isSome {poll : Poll} {r : L2Recver} (hpos : 0 < poll.recvLen)
    (h : r.live.q.Healthy) : ∃ r', onDatagram poll r = some r' ∧ r'.live.q.Healthy := by
  have hrun := demux_invariant (liveTrans poll.buffer poll.nowMs) poll.buffer
    (P := fun s => s.env.q.Healthy ∧ s.died = false) (fun s s' _ => healthy_turn)
    (s := datagram poll.recvLen.toNat (r.stats.arrive poll.nowMs) r.live)
    (show 0 < poll.recvLen.toNat by omega) ⟨h, rfl⟩
  unfold onDatagram
  simp only [hrun.2]
  exact ⟨_, rfl, hrun.1⟩

/-- And for every report. -/
theorem reportStats_isSome (force : Bool) (nowMs : UInt64) {r : L2Recver}
    (h : r.live.q.Healthy) :
    ∃ r', reportStats force nowMs r = some r' ∧ r'.live.q.Healthy := by
  have hforced : ∃ r', reportStats true nowMs r = some r' ∧ r'.live.q.Healthy := by
    obtain ⟨x, hx⟩ := Option.isSome_iff_exists.mp (h.best r.live.q.taken)
    have hlen : r.stats.toBytes.length ≤ x.pBuffer.length := by
      have hpage := h.page
      rw [r.live.q.length_pBuffer _ _ hx, r.stats.length_toBytes, L2Stats.size_eq]
      omega
    unfold reportStats
    simp only [pGetTryBest, hx, memcpy_of_le hlen]
    exact ⟨_, rfl, h.of_eq rfl rfl⟩
  cases force with
  | true => exact hforced
  | false =>
    rcases reportStats_false nowMs r with hskip | hsend
    · exact ⟨r, hskip, h⟩
    · rw [hsend]
      exact hforced

/-- The loop of `proc_cmdQ` stops behind the last command, before the null ones. -/
theorem applyCmds_isSome {s n : ℕ} {cmds : List (Option LiveCmd)} (tail : List (Option LiveCmd))
    (liveList : Finset UInt32) (hne : cmds ≠ []) (hsome : ∀ c ∈ cmds, c.isSome)
    (hs : n + cmds.length = s) : (applyCmds s n (cmds ++ tail) liveList).isSome := by
  -- `n` counts the commands done, and `s` those there are
  induction cmds generalizing n liveList with
  | nil => exact absurd rfl hne
  | cons c cmds ih =>
    obtain ⟨cmd, rfl⟩ := Option.isSome_iff_exists.mp (hsome c List.mem_cons_self)
    rw [List.cons_append, applyCmds]
    rw [List.length_cons] at hs
    by_cases hlast : s ≤ n + 1
    · simp only [if_pos hlast]
      rfl
    · simp only [if_neg hlast]
      have hne' : cmds ≠ [] := by
        intro hnil
        rw [hnil, List.length_nil] at hs
        omega
      exact ih _ hne' (fun c hc => hsome c (List.mem_cons_of_mem _ hc)) (by omega)

/-- Commands that are served are carried out. -/
theorem procCmdQ_isSome {poll : Poll} (hserved : poll.Served) {r : L2Recver}
    (h : r.live.q.Healthy) :
    ∃ r', procCmdQ poll.sizeApprox poll.cmds r = some r' ∧ r'.live.q.Healthy := by
  unfold procCmdQ
  by_cases hq : r.hasCmdQ = false ∨ poll.sizeApprox = 0
  · rw [if_pos hq]
    exact ⟨r, rfl, h⟩
  · rw [if_neg hq]
    obtain ⟨hne, hsome⟩ := hserved fun h0 => hq (Or.inr h0)
    obtain ⟨liveList, hlist⟩ := Option.isSome_iff_exists.mp (applyCmds_isSome
      (List.replicate (8 - poll.cmds.length) none) r.live.liveList hne hsome (Nat.zero_add _))
    simp only [hlist]
    exact ⟨_, rfl, h⟩

/-- Any sequence of polls is survived. -/
theorem recvLoop_isSome {polls : List Poll} (hserved : ∀ poll ∈ polls, poll.Served)
    {r : L2Recver} (h : r.live.q.Healthy) :
    ∃ r', recvLoop polls r = some r' ∧ r'.live.q.Healthy := by
  induction polls generalizing r with
  | nil => exact ⟨r, rfl, h⟩
  | cons poll polls ih =>
    have htail := fun q hq => hserved q (List.mem_cons_of_mem _ hq)
    rw [recvLoop]
    by_cases hpos : 0 < poll.recvLen
    · obtain ⟨r₁, h₁, hq₁⟩ := onDatagram_isSome hpos h
      rw [if_pos hpos, h₁]
      exact ih htail hq₁
    rw [if_neg hpos]
    by_cases hidle : poll.recvLen = -1
    · obtain ⟨r₁, h₁, hq₁⟩ := reportStats_isSome false poll.nowMs h
      obtain ⟨r₂, h₂, hq₂⟩ := procCmdQ_isSome (hserved poll List.mem_cons_self) hq₁
      rw [if_pos hidle, onIdle, h₁, Option.bind_some, h₂]
      exact ih htail hq₂
    rw [if_neg hidle]
    by_cases hbreak : poll.recvLen < -1
    · rw [if_pos hbreak]
      exact ⟨r, rfl, h⟩
    · rw [if_neg hbreak]
      exact ih htail h

/-! ## From `start` to `stop` -/

theorem startThread_eq_true {args : StartArgs} {r r₀ : L2Recver} {os os₀ : Os}
    (h : startThread args r os = (true, r₀, os₀)) :
    r₀.stats = r.stats ∧ r₀.live = r.live ∧ r₀.pThread = true := by
  unfold startThread at h
  by_cases hfd : r.fd < 0
  · rw [if_pos hfd] at h
    exact absurd (congrArg Prod.fst h) Bool.false_ne_true
  · rw [if_neg hfd] at h
    obtain rfl := congrArg (fun x => x.2.1) h
    exact ⟨rfl, rfl, rfl⟩

/-- A successful `start` zeroes the counters and leaves the queue alone. -/
theorem start_eq_true {args : StartArgs} {calls : StartCalls} {r r₀ : L2Recver} {os os₀ : Os}
    (h : start args calls r os = (true, r₀, os₀)) :
    r₀.stats = L2Stats.zero ∧ r₀.live = r.live ∧ r₀.pThread = true := by
  unfold start at h
  by_cases hthread : r.pThread = true
  · rw [if_pos hthread] at h
    exact absurd (congrArg Prod.fst h) Bool.false_ne_true
  rw [if_neg hthread] at h
  by_cases hmulti : isMulticastAddress args.multiCastIp = true
  · simp only [if_pos hmulti, startMulticast] at h
    split_ifs at h
    · exact absurd (congrArg Prod.fst h) Bool.false_ne_true
    · exact absurd (congrArg Prod.fst h) Bool.false_ne_true
    · exact absurd (congrArg Prod.fst h) Bool.false_ne_true
    · exact startThread_eq_true h
  · simp only [if_neg hmulti] at h
    exact startThread_eq_true h

/-- `stop` lets the thread run to its last report. -/
theorem stop_eq_some {calls : RouteCalls} {polls : List Poll} {nowMs : UInt64} {r r' : L2Recver}
    {os os' : Os} {ok : Bool} (hthread : r.pThread = true)
    (h : stop calls polls nowMs r os = some (ok, r', os')) :
    ∃ r₁ r₂, recvLoop polls r = some r₁ ∧ reportStats true nowMs r₁ = some r₂ ∧
      r'.stats = r₂.stats ∧ r'.live = r₂.live := by
  unfold stop recvThread at h
  rw [if_pos hthread] at h
  obtain ⟨⟨r₂, os₂⟩, hrun, heq⟩ := Option.map_eq_some_iff.mp h
  obtain ⟨r₁, h₁, hrun⟩ := Option.bind_eq_some_iff.mp hrun
  obtain ⟨r₂', h₂, hpair⟩ := Option.map_eq_some_iff.mp hrun
  obtain ⟨rfl, -⟩ := Prod.mk.inj hpair
  obtain rfl := congrArg (fun x => x.2.1) heq
  exact ⟨r₁, r₂', h₁, h₂, rfl, rfl⟩

/-- `stop` comes back, and there is no thread behind it. -/
theorem stop_isSome (calls : RouteCalls) (nowMs : UInt64) (os : Os) {polls : List Poll}
    {r : L2Recver} (hserved : ∀ poll ∈ polls, poll.Served) (hq : r.live.q.Healthy) :
    ∃ r' os', stop calls polls nowMs r os = some (true, r', os') ∧ r'.pThread = false := by
  unfold stop recvThread
  by_cases hthread : r.pThread = true
  · obtain ⟨r₁, h₁, hq₁⟩ := recvLoop_isSome hserved hq
    obtain ⟨r₂, h₂, -⟩ := reportStats_isSome true nowMs hq₁
    rw [if_pos hthread, h₁, Option.bind_some, h₂]
    exact ⟨_, _, rfl, rfl⟩
  · rw [if_neg hthread]
    exact ⟨r, os, rfl, Bool.eq_false_of_not_eq_true hthread⟩

/-- **Counters and particles reconcile.** In every session that begins with a successful
`start`, after every poll the live counters stay below the received ones, unknowns below
frames, and the live counters sum to the market data particles put on the queue since;
the last particle of the session is a report of the final counters, and with a healthy
queue the session does come to its end. -/
theorem session_reconciles {args : StartArgs} {calls : StartCalls} {r r₀ : L2Recver} {os os₀ : Os}
    (hstart : start args calls r os = (true, r₀, os₀)) (hq : r.live.q.Healthy) :
    (∀ polls r', recvLoop polls r₀ = some r' →
        (∀ k, r'.stats.liveCnt k ≤ r'.stats.recvCnt k) ∧
        r'.stats.recvUnknownCnt ≤ r'.stats.recvFrameCnt ∧
        ∃ new, r'.live.q.sent = r.live.q.sent ++ new ∧ r'.stats.liveSum = marketCount new) ∧
      (∀ rc polls nowMs ok r' os', stop rc polls nowMs r₀ os₀ = some (ok, r', os') →
        ∃ new x, r'.live.q.sent = r.live.q.sent ++ (new ++ [x]) ∧ x.info.type = .statsData ∧
          x.pBuffer.take x.info.dataLen = r'.stats.toBytes ∧
          r'.stats.liveSum = marketCount (new ++ [x])) ∧
      ∀ rc polls nowMs, (∀ poll ∈ polls, poll.Served) →
        (recvLoop polls r₀).isSome ∧ (stop rc polls nowMs r₀ os₀).isSome := by
  obtain ⟨hstats, hlive, hthread⟩ := start_eq_true hstart
  have hzero : Reconciled r.live.q.sent r₀ := by
    refine ⟨⟨?_, [], ?_, ?_⟩, ?_⟩
    · intro k
      rw [hstats]
      rfl
    · rw [hlive, List.append_nil]
    · rw [hstats]
      rfl
    · rw [hstats]
      rfl
  have hq₀ : r₀.live.q.Healthy := by
    rw [hlive]
    exact hq
  refine ⟨fun polls r' hrun => ?_, fun rc polls nowMs ok r' os' hstop => ?_,
    fun rc polls nowMs hserved => ?_⟩
  -- during the session, at its end, and that there is one
  · have h := recvLoop_reconciled hrun hzero
    exact ⟨h.accounts.live_le, h.unknown_le, h.accounts.sent_eq⟩
  · obtain ⟨r₁, r₂, h₁, h₂, hstats', hlive'⟩ := stop_eq_some hthread hstop
    obtain ⟨new, hnew, hsum⟩ := (recvLoop_reconciled h₁ hzero).accounts.sent_eq
    obtain ⟨x, hx⟩ := reportStats_sent h₂
    refine ⟨new, x, ?_, hx.type, ?_, ?_⟩
    · rw [hlive', hx.sent, hnew, List.append_assoc]
    · rw [hx.bytes, hstats', hx.stats]
    · rw [hstats', hx.stats, hsum, marketCount_append_singleton,
        if_neg (by rw [hx.type]; decide), Nat.add_zero]
  · obtain ⟨r₁, h₁, -⟩ := recvLoop_isSome hserved hq₀
    obtain ⟨r', os', hstop, -⟩ := stop_isSome rc nowMs os₀ hserved hq₀
    rw [h₁, hstop]
    exact ⟨rfl, rfl⟩

/-- A receiver that has never been started. -/
def L2Recver.fresh : L2Recver where
  stats := L2Stats.zero
  live := ⟨∅, .fresh, []⟩
  hasCmdQ := true
  reportIntervalMs := 500
  lastReportTimeMs := 0
  fd := -1
  pThread := false
  localIp := []
  multicastIp := []

/-- A list of adapters with `192.168.11.222` on `eth0`; addresses are in network order. -/
def AdapterCalls.eth0 : AdapterCalls :=
  ⟨some 5, some [⟨lit "lo", 0x0100007F⟩, ⟨lit "eth0", 0xDE0BA8C0⟩]⟩

/-- A kernel that refuses nothing. -/
def StartCalls.granted : StartCalls where
  socket _ := some 3
  bind _ _ := true
  route := ⟨.eth0, some 4, true⟩
  join _ _ := true

/-- A `start` on a multicast group, by way of `eth0`. -/
def started : Bool × L2Recver × Os :=
  start ⟨lit "224.60.33.83", lit "192.168.11.222", 9000, false⟩ .granted .fresh ⟨[], ∅⟩

/-- An idle turn on which one code is subscribed. -/
def subscribing : Poll :=
  ⟨-1, .zeroed [], 0, 1, [some ⟨true, 1700600997⟩], by decide, by decide⟩

/-- An idle turn on which the code is dropped again. -/
def unsubscribing : Poll :=
  ⟨-1, .zeroed [], 10, 1, [some ⟨false, 1700600997⟩], by decide, by decide⟩

/-- A datagram of the two records and three more bytes. -/
def delivering : Poll := ⟨179, indexRecords, 100, 0, [], by decide, by decide⟩

/-- An idle turn on which a report is due. -/
def reporting : Poll := ⟨-1, .zeroed [], 600, 0, [], by decide, by decide⟩

/-- What `stop` makes of it: the receiver and the kernel when it comes back. -/
def stopped : Option (Bool × L2Recver × Os) :=
  stop StartCalls.granted.route [subscribing, delivering, reporting] 700 started.2.1 started.2.2

/-- A session in which a code is subscribed and one record of two is forwarded: behind the particle
of market data there are the report that was due and the last one. -/
theorem session_reconciles_600997 : ∃ ok r' os' new x, stopped = some (ok, r', os') ∧
    r'.stats.recvCnt .indexSnap = 2 ∧ r'.stats.liveCnt .indexSnap = 1 ∧
    r'.live.q.sent.map (·.info.type) = [.marketData, .statsData, .statsData] ∧
    r'.live.q.sent = new ++ [x] ∧ x.pBuffer.take x.info.dataLen = r'.stats.toBytes ∧
    r'.stats.liveSum = L2DataQ.marketCount (new ++ [x]) := by
  have hstart : started = (true, started.2.1, started.2.2) := Prod.ext (by decide +kernel) rfl
  have hserved : ∀ poll ∈ [subscribing, delivering, reporting], poll.Served := by
    intro poll hpoll
    simp only [List.mem_cons, List.not_mem_nil, or_false] at hpoll
    rcases hpoll with rfl | rfl | rfl
    · exact fun _ => ⟨List.cons_ne_nil _ _, List.all_eq_true.mp rfl⟩
    · exact fun h => absurd rfl h
    · exact fun h => absurd rfl h
  have hcounts : stopped.map (fun s => (s.2.1.stats.recvCnt .indexSnap,
      s.2.1.stats.liveCnt .indexSnap, s.2.1.live.q.sent.map (·.info.type)))
        = some (2, 1, [.marketData, .statsData, .statsData]) := by
    decide +kernel
  obtain ⟨-, hend, hsome⟩ := session_reconciles hstart ⟨le_rfl, fun _ => rfl⟩
  obtain ⟨⟨ok, r', os'⟩, hstop⟩ := Option.isSome_iff_exists.mp
    (hsome StartCalls.granted.route [subscribing, delivering, reporting] 700 hserved).2
  obtain ⟨new, x, hsent, -, hbytes, hsum⟩ := hend _ _ _ _ _ _ hstop
  rw [show stopped = _ from hstop, Option.map_some] at hcounts
  obtain ⟨hrecv, hcounts⟩ := Prod.mk.inj (Option.some.inj hcounts)
  obtain ⟨hlive, htypes⟩ := Prod.mk.inj hcounts
  exact ⟨ok, r', os', new, x, hstop, hrecv, hlive, htypes, hsent, hbytes, hsum⟩

end S4LibLite.Network
