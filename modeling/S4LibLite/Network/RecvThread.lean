import S4LibLite.Network.LiveTrans

/-!
# The inner loop of `recv_thread`

* `demux_refines_records`, the loop over a datagram recognises the longest prefix made of
  well-formed records, and calls `liveTrans` at each of them that is not a heartbeat;
* `demux_reads_inside`, no header and no `memcpy` is read outside the buffer and
  the datagram, and stale bytes behind the datagram change nothing that is counted.
-/

namespace S4LibLite.Network

open Sbe

variable {σ : Type}

/-! ## Datagrams -/

/-- What a completed run of the loop does with a datagram of `n` bytes. -/
theorem demux_datagram_outcome {liveTrans : TransFn σ} {b : RecvBuffer} {n : ℕ} (hn : 1 ≤ n)
    (hn' : n ≤ 4096) {stats : L2Stats} {env : σ}
    (hr : (demux liveTrans b (datagram n stats env)).died = false) :
    Outcome liveTrans (datagram n stats env) (demux liveTrans b (datagram n stats env))
      (sbe.records (b.slice 0 n)) (sbe.rest (b.slice 0 n)) := by
  have hb := b.size_le
  refine demux_outcome (s := datagram n stats env) hn ?_ hr
  show 0 + n ≤ b.mem.length
  omega

/-- **The loop refines the reference parser.** Every datagram of 1 to 4096 bytes is a list
of well-formed records, the longest one that spells a prefix of it, and bytes left behind
it. The loop ends, in a call that does not return or, exactly when the calls at these records
return, at the end of the datagram. There it has marked these records at their offsets, counted
each once under its type, in order, handed those that are not heartbeats to `liveTrans` once
each, at their first bytes, and counted one unknown if and only if bytes are left, which it
drops. -/
theorem demux_refines_records (liveTrans : TransFn σ) (b : RecvBuffer) {n : ℕ} (hn : 1 ≤ n)
    (hn' : n ≤ 4096) (stats : L2Stats) (env : σ) :
    let r := demux liveTrans b (datagram n stats env)
    ∃ (recs : List (RecordKind × Bytes)) (left : Bytes),
      (b.slice 0 n = recs.flatMap Prod.snd ++ left ∧ (∀ x ∈ recs, sbe.IsRecord x.1 x.2) ∧
        ∀ recs' : List (RecordKind × Bytes), (∀ x ∈ recs', sbe.IsRecord x.1 x.2) →
          recs'.flatMap Prod.snd <+: b.slice 0 n → recs' <+: recs) ∧
      (r.died = false ↔ CallsReturn liveTrans (callOffsets (marksFrom 0 recs)) env) ∧
      (r.died = false → r.len = 0 ∧ r.p + left.length = n ∧
        r.marks = marksFrom 0 recs ∧
        r.env = callAll liveTrans (callOffsets (marksFrom 0 recs)) env ∧
        (∀ k, r.stats.recvCnt k = stats.recvCnt k + recs.countP fun x => x.1 = .msg k) ∧
        r.stats.recvHeartbeatCnt
          = stats.recvHeartbeatCnt + recs.countP (fun x => x.1 = .heartbeat) ∧
        r.stats.recvUnknownCnt = stats.recvUnknownCnt + (if left = [] then 0 else 1)) := by
  intro r
  have hsplit := Framing.flatten_records (F := sbe) (b.slice 0 n)
  refine ⟨sbe.records (b.slice 0 n), sbe.rest (b.slice 0 n), ⟨hsplit.symm, ?_, ?_⟩, ?_, ?_⟩
  · intro x hx
    exact Framing.isRecord_of_mem_records hx
  · intro recs' hrecs' hpre
    exact Framing.isPrefix_records hrecs' hpre
  · refine demux_died_iff (s := datagram n stats env) ?_ rfl
    have hb := b.size_le
    show 0 + n ≤ b.mem.length
    omega
  · intro hdied
    have hout := demux_datagram_outcome hn hn' hdied
    refine ⟨hout.len, ?_, hout.marks, hout.env, hout.recvCnt, hout.recvHeartbeatCnt,
      hout.recvUnknownCnt⟩
    -- the records and the bytes left make up the datagram
    have hlen := congrArg List.length hsplit
    have hb := b.size_le
    rw [List.length_append, b.length_slice (by omega)] at hlen
    rw [show r.p = _ from hout.p]
    show 0 + _ + _ = n
    omega

/-- A datagram of two index records, of which one is forwarded, and three more bytes: both are
counted and handed over, and the bytes behind them are unknown. -/
theorem demux_refines_records_indexRecords :
    let r := demux (liveTrans indexRecords 0) indexRecords (datagram 179 L2Stats.zero subscribed)
    r.died = false ∧ r.len = 0 ∧ r.marks = [(0, .msg .indexSnap), (88, .msg .indexSnap)] ∧
      r.env.copies = [(0, 88)] ∧ r.stats.recvCnt .indexSnap = 2 ∧ r.stats.recvUnknownCnt = 1 := by
  intro r
  obtain ⟨recs, left, -, hreturns, hend⟩ := demux_refines_records (liveTrans indexRecords 0)
    indexRecords (show 1 ≤ 179 by decide) (by decide) L2Stats.zero subscribed
  have hrun : r.marks = [(0, .msg .indexSnap), (88, .msg .indexSnap)] ∧ r.env.copies = [(0, 88)] ∧
      r.stats.recvCnt .indexSnap = 2 ∧ r.stats.recvUnknownCnt = 1 ∧ r.died = false := by
    decide +kernel
  obtain ⟨hmarks, hcopies, hrecv, hunknown, hdied⟩ := hrun
  exact ⟨hreturns.mpr (hreturns.mp hdied), (hend hdied).1, hmarks, hcopies, hrecv, hunknown⟩

/-! ## Reads -/

/-- Where the loop stands inside a datagram of `n` bytes: records take a multiple of eight
bytes, so every header it has looked at is aligned to eight bytes. -/
structure InDatagram (n : ℕ) (s : DemuxState σ) : Prop where
  aligned : 8 ∣ s.p
  inside : s.p + s.len ≤ n
  headers : ∀ q ∈ s.headers, 8 ∣ q ∧ q < n

/-- A turn stays inside the datagram. -/
theorem InDatagram.turn {liveTrans : TransFn σ} {b : RecvBuffer} {n : ℕ} {s s' : DemuxState σ}
    (hlen : 0 < s.len) (hturn : Turn liveTrans b s s') (h : InDatagram n s) :
    InDatagram n s' := by
  have hin := h.inside
  have hheaders : ∀ q ∈ s.headers ++ [s.p], 8 ∣ q ∧ q < n := by
    intro q hq
    rcases List.mem_append.mp hq with hq | hq
    · exact h.headers q hq
    · rw [List.mem_singleton.mp hq]
      exact ⟨h.aligned, by omega⟩
  cases hturn with
  | unknown => exact ⟨h.aligned, by show s.p + 0 ≤ n; omega, hheaders⟩
  | heartbeat hacc =>
    obtain ⟨-, hle, h8, -⟩ := accepted_bounds hacc
    refine ⟨Nat.dvd_add h.aligned h8, ?_, hheaders⟩
    show s.p + (b.header s.p).msgLen + (s.len - (b.header s.p).msgLen) ≤ n
    omega
  | died => exact ⟨h.aligned, hin, hheaders⟩
  | msg hacc =>
    -- every admitted size is a multiple of eight
    obtain ⟨-, hle, h8, -⟩ := accepted_bounds hacc
    refine ⟨Nat.dvd_add h.aligned h8, ?_, hheaders⟩
    show s.p + (b.header s.p).msgLen + (s.len - (b.header s.p).msgLen) ≤ n
    omega

/-- A call of `liveTrans` copies at most the record it is given. -/
theorem Forward.copies {b : RecvBuffer} {time : UInt64} {p : ℕ} {l : Live} {r : Option Bool × Live}
    (h : Forward b time p l r) :
    r.2.copies = l.copies ∨ r.2.copies = l.copies ++ [(p, (b.header p).msgLen)] := by
  cases h with
  | filtered => exact Or.inl rfl
  | starved => exact Or.inl rfl
  | overrun => exact Or.inr rfl
  | forwarded => exact Or.inr rfl

/-- The turns of the loop copy bytes of the datagram only. -/
theorem copies_turn {b : RecvBuffer} {time : UInt64} {n : ℕ} {s s' : DemuxState Live}
    (hturn : Turn (liveTrans b time) b s s') (hin : s.p + s.len ≤ n)
    (h : ∀ c ∈ s.env.copies, c.1 + c.2 ≤ n) : ∀ c ∈ s'.env.copies, c.1 + c.2 ≤ n := by
  have hcall : ∀ {k r}, (b.header s.p).accepted s.len = some k →
      liveTrans b time s.p s.env = r → ∀ c ∈ r.2.copies, c.1 + c.2 ≤ n := by
    intro k r hacc hr c hc
    have hle := (accepted_bounds hacc).2.1
    rcases (hr ▸ liveTrans_forward b time s.p s.env).copies with heq | heq
    · rw [heq] at hc
      exact h c hc
    · rw [heq] at hc
      rcases List.mem_append.mp hc with hc | hc
      · exact h c hc
      · rw [List.mem_singleton.mp hc]
        show s.p + (b.header s.p).msgLen ≤ n
        omega
  cases hturn with
  | unknown => exact h
  | heartbeat => exact h
  | died hacc hr => exact hcall hacc hr
  | msg hacc hr => exact hcall hacc hr

/-- **Reads.** For every datagram and every content of the buffer, every header is read
below 4096 and every `memcpy` of `liveTrans` reads below `n`. Two buffers that agree on
the datagram and differ behind it give the same record boundaries and the same increments
of the `recv_*` counters, whatever the calls of `liveTrans` do, as long as they return. -/
theorem demux_reads_inside (b : RecvBuffer) {n : ℕ} (hn : 1 ≤ n) (hn' : n ≤ 4096)
    (time : UInt64) (stats : L2Stats) (l : Live) (hl : l.copies = []) :
    let r := demux (liveTrans b time) b (datagram n stats l)
    (∀ p ∈ r.headers, p + 3 < 4096) ∧ (∀ c ∈ r.env.copies, c.1 + c.2 ≤ n) ∧
      ∃ (marks : List (ℕ × RecordKind)) (recv : MsgKind → ℕ) (heartbeat unknown : ℕ),
        ∀ (b' : RecvBuffer) (τ : Type) (t : TransFn τ) (stats' : L2Stats) (env : τ),
          b'.slice 0 n = b.slice 0 n →
          let r' := demux t b' (datagram n stats' env)
          (r'.died = false ↔ CallsReturn t (callOffsets marks) env) ∧
          (r'.died = false → r'.marks = marks ∧
            (∀ k, r'.stats.recvCnt k = stats'.recvCnt k + recv k) ∧
            r'.stats.recvHeartbeatCnt = stats'.recvHeartbeatCnt + heartbeat ∧
            r'.stats.recvUnknownCnt = stats'.recvUnknownCnt + unknown) := by
  intro r
  have hstart : InDatagram n (datagram n stats l) :=
    ⟨Nat.dvd_zero 8, (Nat.zero_add n).le, fun q hq => absurd hq List.not_mem_nil⟩
  have hcopies : ∀ c ∈ (datagram n stats l).env.copies, c.1 + c.2 ≤ n := by
    show ∀ c ∈ l.copies, c.1 + c.2 ≤ n
    rw [hl]
    exact fun c hc => absurd hc List.not_mem_nil
  have hinv : InDatagram n r ∧ ∀ c ∈ r.env.copies, c.1 + c.2 ≤ n := by
    refine demux_invariant (liveTrans b time) b
      (P := fun s => InDatagram n s ∧ ∀ c ∈ s.env.copies, c.1 + c.2 ≤ n) ?_ hn ⟨hstart, hcopies⟩
    intro s s' hlen hturn h
    exact ⟨h.1.turn hlen hturn, copies_turn hturn h.1.inside h.2⟩
  refine ⟨fun p hp => ?_, hinv.2, ?_⟩
  · -- a multiple of eight below 4096 leaves room for eight bytes
    obtain ⟨h8, hlt⟩ := hinv.1.headers p hp
    omega
  · -- marks and increments are those of the split, which knows `n` bytes of the buffer
    refine ⟨marksFrom 0 (sbe.records (b.slice 0 n)),
      fun k => (sbe.records (b.slice 0 n)).countP fun x => x.1 = .msg k,
      (sbe.records (b.slice 0 n)).countP fun x => x.1 = .heartbeat,
      if sbe.rest (b.slice 0 n) = [] then 0 else 1, ?_⟩
    intro b' τ t stats' env hslice r'
    refine ⟨?_, fun hdied => ?_⟩
    · have hb := b'.size_le
      rw [← hslice]
      refine demux_died_iff (s := datagram n stats' env) ?_ rfl
      show 0 + n ≤ b'.mem.length
      omega
    have hout := demux_datagram_outcome hn hn' hdied
    rw [hslice] at hout
    exact ⟨hout.marks, hout.recvCnt, hout.recvHeartbeatCnt, hout.recvUnknownCnt⟩

/-- Of the two index records one is copied, and a header is read at the bytes behind them. -/
theorem demux_reads_inside_indexRecords :
    let r := demux (liveTrans indexRecords 0) indexRecords (datagram 179 L2Stats.zero subscribed)
    r.headers = [0, 88, 176] ∧ r.env.copies = [(0, 88)] ∧ (∀ p ∈ r.headers, p + 3 < 4096) ∧
      ∀ c ∈ r.env.copies, c.1 + c.2 ≤ 179 := by
  intro r
  have hrun : r.headers = [0, 88, 176] ∧ r.env.copies = [(0, 88)] := by decide +kernel
  obtain ⟨hheaders, hcopies, -⟩ := demux_reads_inside indexRecords (show 1 ≤ 179 by decide)
    (by decide) 0 L2Stats.zero subscribed rfl
  exact ⟨hrun.1, hrun.2, hheaders, hcopies⟩

end S4LibLite.Network
