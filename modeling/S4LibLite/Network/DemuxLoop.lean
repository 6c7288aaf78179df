import S4LibLite.Network.Records

/-!
# The loop refines the reference parser

`demux` is the inner `do`/`while` of `recv_thread`. It ends because a turn that goes on
has consumed a record.

* `demux_invariant`, the invariant rule of the loop;
* `demux_outcome`, a run of the loop is the greedy split of the bytes it is given;
* `demux_died_iff`, the loop completes when the calls it makes of `liveTrans` return.
-/

namespace S4LibLite.Network

open Sbe

section
variable {σ : Type} (liveTrans : TransFn σ) (b : RecvBuffer)

/-! ## The loop -/

theorem accepted_heartbeat {h : SBEHeader} {len : ℕ} (hk : h.accepted len = some .heartbeat) :
    h.msgLen = sizeofHeader :=
  admitted_heartbeat _ (accepted_eq_some_iff.mp hk).1 rfl

/-- What a turn of the loop can do, by what the header at `p` announces. -/
inductive Turn (s : DemuxState σ) : DemuxState σ → Prop
  | unknown (hacc : (b.header s.p).accepted s.len = none) :
    Turn s (onUnknown { s with headers := s.headers ++ [s.p] })
  | heartbeat (hacc : (b.header s.p).accepted s.len = some .heartbeat) :
    Turn s { s with
      stats := s.stats.countHeartbeat
      len := s.len - (b.header s.p).msgLen
      p := s.p + (b.header s.p).msgLen
      headers := s.headers ++ [s.p]
      marks := s.marks ++ [(s.p, .heartbeat)] }
  | died {k : MsgKind} {env : σ} (hacc : (b.header s.p).accepted s.len = some (.msg k))
      (hcall : liveTrans s.p s.env = (none, env)) :
    Turn s { s with
      stats := s.stats.countRecv k
      env := env
      died := true
      headers := s.headers ++ [s.p] }
  | msg {k : MsgKind} {live : Bool} {env : σ}
      (hacc : (b.header s.p).accepted s.len = some (.msg k))
      (hcall : liveTrans s.p s.env = (some live, env)) :
    Turn s { s with
      stats := (s.stats.countRecv k).countLive k live
      env := env
      len := s.len - (b.header s.p).msgLen
      p := s.p + (b.header s.p).msgLen
      headers := s.headers ++ [s.p]
      marks := s.marks ++ [(s.p, .msg k)] }

theorem demuxStep_turn (s : DemuxState σ) : Turn liveTrans b s (demuxStep liveTrans b s) := by
  unfold demuxStep
  rw [demuxSwitch_eq]
  cases hacc : (b.header s.p).accepted s.len with
  | none => exact Turn.unknown hacc
  | some k =>
    cases k with
    | heartbeat =>
      -- the source advances by the header's size, which is the announced length here
      have : Turn liveTrans b s _ := Turn.heartbeat hacc
      rwa [accepted_heartbeat hacc] at this
    | msg k =>
      rcases hcall : liveTrans s.p s.env with ⟨_ | live, env⟩
      · simp only [onAccepted, onMsg, if_true, hcall]
        exact Turn.died hacc hcall
      · simp only [onAccepted, onMsg, if_true, hcall]
        exact Turn.msg hacc hcall

/-- A turn after which the loop goes on has consumed a record. -/
theorem demuxStep_len_lt {s s' : DemuxState σ} (hturn : Turn liveTrans b s s')
    (hlen : 0 < s'.len) (hdied : s'.died = false) : s'.len < s.len := by
  cases hturn with
  | unknown => exact absurd hlen (lt_irrefl 0)
  | heartbeat hacc =>
    have hsize := accepted_bounds hacc
    show s.len - (b.header s.p).msgLen < s.len
    omega
  | died => exact absurd hdied (by simp)
  | msg hacc =>
    have hsize := accepted_bounds hacc
    show s.len - (b.header s.p).msgLen < s.len
    omega

/-- A turn never moves the end of the bytes behind the end of the buffer. -/
theorem demuxStep_bound {s s' : DemuxState σ} (hturn : Turn liveTrans b s s') {n : ℕ}
    (hn : s.p + s.len ≤ n) : s'.p + s'.len ≤ n := by
  cases hturn with
  | unknown =>
    show s.p + 0 ≤ n
    omega
  | heartbeat hacc =>
    have hsize := accepted_bounds hacc
    show s.p + (b.header s.p).msgLen + (s.len - (b.header s.p).msgLen) ≤ n
    omega
  | died => exact hn
  | msg hacc =>
    have hsize := accepted_bounds hacc
    show s.p + (b.header s.p).msgLen + (s.len - (b.header s.p).msgLen) ≤ n
    omega

/-- `do { switch … } while (len > 0)`, on the bytes at `p`. -/
def demux (s : DemuxState σ) : DemuxState σ :=
  let s' := demuxStep liveTrans b s
  if 0 < s'.len ∧ s'.died = false then demux s' else s'
termination_by s.len
decreasing_by
  rename_i h
  exact demuxStep_len_lt liveTrans b (demuxStep_turn liveTrans b s) h.1 h.2

/-- **Invariant rule.** What every turn with bytes left preserves, the loop preserves. -/
theorem demux_invariant {P : DemuxState σ → Prop}
    (hstep : ∀ s s', 0 < s.len → Turn liveTrans b s s' → P s → P s') {s : DemuxState σ}
    (hlen : 0 < s.len) (h : P s) : P (demux liveTrans b s) := by
  fun_induction demux liveTrans b s with
  | case1 s s' hs ih => exact ih hs.1 (hstep s _ hlen (demuxStep_turn liveTrans b s) h)
  | case2 s s' hs => exact hstep s _ hlen (demuxStep_turn liveTrans b s) h

/-! ## What a run does -/

/-- The records of a text, each with the offset it starts at. -/
def marksFrom : ℕ → List (RecordKind × Bytes) → List (ℕ × RecordKind)
  | _, [] => []
  | p, (k, r) :: rs => (p, k) :: marksFrom (p + r.length) rs

/-- The records that are handed to `liveTrans`. -/
def callOffsets (marks : List (ℕ × RecordKind)) : List ℕ :=
  (marks.filter fun m => m.2 ≠ .heartbeat).map Prod.fst

/-- `liveTrans` called at each of the offsets, one after the other. -/
def callAll (ps : List ℕ) (env : σ) : σ := ps.foldl (fun env p => (liveTrans p env).2) env

/-- The calls at these offsets return, each where those in front of it do. -/
def CallsReturn : List ℕ → σ → Prop
  | [], _ => True
  | p :: ps, env => (liveTrans p env).1.isSome ∧ CallsReturn ps (liveTrans p env).2

/-- What a run from `s` to `r` does when it recognises `recs` and leaves `rest`. -/
structure Outcome (s r : DemuxState σ) (recs : List (RecordKind × Bytes)) (rest : Bytes) :
    Prop where
  len : r.len = 0
  p : r.p = s.p + (recs.flatMap Prod.snd).length
  marks : r.marks = s.marks ++ marksFrom s.p recs
  env : r.env = callAll liveTrans (callOffsets (marksFrom s.p recs)) s.env
  recvCnt : ∀ k, r.stats.recvCnt k = s.stats.recvCnt k + recs.countP fun x => x.1 = .msg k
  recvHeartbeatCnt : r.stats.recvHeartbeatCnt
    = s.stats.recvHeartbeatCnt + recs.countP fun x => x.1 = .heartbeat
  recvUnknownCnt : r.stats.recvUnknownCnt
    = s.stats.recvUnknownCnt + if rest = [] then 0 else 1
  recvFrameCnt : r.stats.recvFrameCnt = s.stats.recvFrameCnt
  lastFrameTimeMs : r.stats.lastFrameTimeMs = s.stats.lastFrameTimeMs

namespace Outcome

variable {liveTrans b}

/-- No bytes, no turn. -/
theorem nil {s : DemuxState σ} (h : s.len = 0) : Outcome liveTrans s s [] [] where
  len := h
  p := rfl
  marks := (List.append_nil _).symm
  env := rfl
  recvCnt _ := rfl
  recvHeartbeatCnt := rfl
  recvUnknownCnt := rfl
  recvFrameCnt := rfl
  lastFrameTimeMs := rfl

/-- The turn that meets bytes it does not know. -/
theorem unknown {s : DemuxState σ} {rest : Bytes} (hs : List ℕ) (h : rest ≠ []) :
    Outcome liveTrans s (onUnknown { s with headers := hs }) [] rest where
  len := rfl
  p := rfl
  marks := (List.append_nil _).symm
  env := rfl
  recvCnt _ := rfl
  recvHeartbeatCnt := rfl
  recvUnknownCnt := by
    rw [if_neg h]
    rfl
  recvFrameCnt := rfl
  lastFrameTimeMs := rfl

/-- A turn that consumes a heartbeat, in front of a run. -/
theorem heartbeat {s s' r : DemuxState σ} {rec : Bytes} {recs : List (RecordKind × Bytes)}
    {rest : Bytes} (h : Outcome liveTrans s' r recs rest) (hp : s'.p = s.p + rec.length)
    (hmarks : s'.marks = s.marks ++ [(s.p, .heartbeat)]) (henv : s'.env = s.env)
    (hstats : s'.stats = s.stats.countHeartbeat) :
    Outcome liveTrans s r ((.heartbeat, rec) :: recs) rest where
  len := h.len
  p := by rw [h.p, hp, List.flatMap_cons, List.length_append, Nat.add_assoc]
  marks := by rw [h.marks, hmarks, hp, List.append_assoc]; rfl
  env := by rw [h.env, henv, hp]; rfl
  recvCnt k := by rw [h.recvCnt, hstats, List.countP_cons_of_neg (by simp)]; rfl
  recvHeartbeatCnt := by
    rw [h.recvHeartbeatCnt, hstats, List.countP_cons_of_pos (by simp)]
    simp only [L2Stats.countHeartbeat]
    omega
  recvUnknownCnt := by rw [h.recvUnknownCnt, hstats]; rfl
  recvFrameCnt := by rw [h.recvFrameCnt, hstats]; rfl
  lastFrameTimeMs := by rw [h.lastFrameTimeMs, hstats]; rfl

/-- A turn that consumes market data, in front of a run. -/
theorem msg {s s' r : DemuxState σ} {k : MsgKind} {rec : Bytes}
    {recs : List (RecordKind × Bytes)} {rest : Bytes} {live : Bool}
    (h : Outcome liveTrans s' r recs rest) (hp : s'.p = s.p + rec.length)
    (hmarks : s'.marks = s.marks ++ [(s.p, .msg k)]) (henv : s'.env = (liveTrans s.p s.env).2)
    (hstats : s'.stats = (s.stats.countRecv k).countLive k live) :
    Outcome liveTrans s r ((.msg k, rec) :: recs) rest where
  len := h.len
  p := by rw [h.p, hp, List.flatMap_cons, List.length_append, Nat.add_assoc]
  marks := by rw [h.marks, hmarks, hp, List.append_assoc]; rfl
  env := by rw [h.env, henv, hp]; rfl
  recvCnt j := by
    rw [h.recvCnt, hstats]
    simp only [L2Stats.countLive, L2Stats.countRecv]
    by_cases hj : j = k
    · rw [if_pos hj, List.countP_cons_of_pos (by simp [hj])]
      omega
    · rw [if_neg hj, List.countP_cons_of_neg (by simp [Ne.symm hj])]
  recvHeartbeatCnt := by
    rw [h.recvHeartbeatCnt, hstats, List.countP_cons_of_neg (by simp)]; rfl
  recvUnknownCnt := by rw [h.recvUnknownCnt, hstats]; rfl
  recvFrameCnt := by rw [h.recvFrameCnt, hstats]; rfl
  lastFrameTimeMs := by rw [h.lastFrameTimeMs, hstats]; rfl

end Outcome

variable {liveTrans b}

/-- The first record of the bytes left, by what the header at `p` announces. -/
theorem records_slice_of_accepted {s : DemuxState σ} {k : RecordKind}
    (hb : s.p + s.len ≤ b.mem.length) (hacc : (b.header s.p).accepted s.len = some k) :
    sbe.records (b.slice s.p s.len) = (k, b.slice s.p (b.header s.p).msgLen) ::
        sbe.records (b.slice (s.p + (b.header s.p).msgLen) (s.len - (b.header s.p).msgLen))
      ∧ sbe.rest (b.slice s.p s.len)
        = sbe.rest (b.slice (s.p + (b.header s.p).msgLen) (s.len - (b.header s.p).msgLen)) := by
  have hfirst : sbe.first (b.slice s.p s.len) = some (k, (b.header s.p).msgLen) := by
    rw [first_slice_eq b hb, hacc]
    rfl
  have hle := (accepted_bounds hacc).2.1
  rw [Framing.records_of_some hfirst, Framing.rest_of_some hfirst, b.take_slice hle, b.drop_slice]
  exact ⟨rfl, rfl⟩

/-- Where there is nothing left there is no record, and nothing is left over. -/
theorem Outcome.slice_zero {s : DemuxState σ} (h : s.len = 0) :
    Outcome liveTrans s s (sbe.records (b.slice s.p s.len)) (sbe.rest (b.slice s.p s.len)) := by
  have hnone : sbe.first [] = none := rfl
  rw [h, RecvBuffer.slice, List.take_zero, Framing.records_of_none hnone,
    Framing.rest_of_none hnone]
  exact Outcome.nil h

/-- One turn in front of a run: `r` is where the loop ends after the turn. -/
theorem Turn.outcome {s s' r : DemuxState σ} (hturn : Turn liveTrans b s s') (hlen : 0 < s.len)
    (hb : s.p + s.len ≤ b.mem.length) (hdied : s'.died = false) (hstop : s'.len = 0 → r = s')
    (hgo : 0 < s'.len → s'.p + s'.len ≤ b.mem.length → Outcome liveTrans s' r
      (sbe.records (b.slice s'.p s'.len)) (sbe.rest (b.slice s'.p s'.len))) :
    Outcome liveTrans s r
      (sbe.records (b.slice s.p s.len)) (sbe.rest (b.slice s.p s.len)) := by
  -- behind a consumed record the loop goes on, or there are no bytes left
  have hrun : Outcome liveTrans s' r
      (sbe.records (b.slice s'.p s'.len)) (sbe.rest (b.slice s'.p s'.len)) := by
    by_cases h0 : s'.len = 0
    · rw [hstop h0]
      exact Outcome.slice_zero h0
    · exact hgo (by omega) (demuxStep_bound liveTrans b hturn hb)
  cases hturn with
  | unknown hacc =>
    -- no record begins here, and the bytes are what the split leaves
    have hnone : sbe.first (b.slice s.p s.len) = none := by
      rw [first_slice_eq b hb, hacc]
      rfl
    rw [hstop rfl, Framing.records_of_none hnone, Framing.rest_of_none hnone]
    refine Outcome.unknown _ fun hnil => ?_
    have := b.length_slice hb
    rw [hnil, List.length_nil] at this
    omega
  | heartbeat hacc =>
    have hsize := accepted_bounds hacc
    obtain ⟨hrecords, hrest⟩ := records_slice_of_accepted hb hacc
    rw [hrecords, hrest]
    refine hrun.heartbeat ?_ rfl rfl rfl
    rw [b.length_slice (by omega)]
  | died => exact absurd hdied (by simp)
  | msg hacc hcall =>
    have hsize := accepted_bounds hacc
    obtain ⟨hrecords, hrest⟩ := records_slice_of_accepted hb hacc
    rw [hrecords, hrest]
    refine hrun.msg ?_ rfl ?_ rfl
    · rw [b.length_slice (by omega)]
    · rw [hcall]

/-- **The loop refines the reference parser.** A run that completes recognises the
records of the greedy split of its bytes, and leaves what the split leaves. -/
theorem demux_outcome {s : DemuxState σ} (hlen : 0 < s.len) (hb : s.p + s.len ≤ b.mem.length)
    (hr : (demux liveTrans b s).died = false) :
    Outcome liveTrans s (demux liveTrans b s)
      (sbe.records (b.slice s.p s.len)) (sbe.rest (b.slice s.p s.len)) := by
  fun_induction demux liveTrans b s with
  | case1 s s' hs ih =>
    -- the loop goes on behind the record
    have hturn := demuxStep_turn liveTrans b s
    refine hturn.outcome hlen hb hs.2 ?_ fun _ hb' => ih hs.1 hb' hr
    intro h0
    exact absurd h0 hs.1.ne'
  | case2 s s' hs =>
    have hturn := demuxStep_turn liveTrans b s
    refine hturn.outcome hlen hb hr (fun _ => rfl) ?_
    intro hpos
    exact absurd ⟨hpos, hr⟩ hs

/-- The calls the loop makes on the bytes at `p` return. -/
def DemuxState.Returns (liveTrans : TransFn σ) (b : RecvBuffer) (s : DemuxState σ) : Prop :=
  CallsReturn liveTrans (callOffsets (marksFrom s.p (sbe.records (b.slice s.p s.len)))) s.env

/-- Where there is nothing left there is no call. -/
theorem DemuxState.returns_of_len {s : DemuxState σ} (h : s.len = 0) : s.Returns liveTrans b := by
  have hnone : sbe.first [] = none := rfl
  rw [DemuxState.Returns, h, RecvBuffer.slice, List.take_zero, Framing.records_of_none hnone]
  trivial

/-- A turn that does not kill the process has made one of these calls, or none of them. -/
theorem Turn.returns_iff {s s' : DemuxState σ} (hturn : Turn liveTrans b s s')
    (hb : s.p + s.len ≤ b.mem.length) (hdied : s.died = false) :
    s'.died = false ∧ s'.Returns liveTrans b ↔ s.Returns liveTrans b := by
  cases hturn with
  | unknown hacc =>
    have hnone : sbe.first (b.slice s.p s.len) = none := by
      rw [first_slice_eq b hb, hacc]
      rfl
    refine iff_of_true ⟨hdied, DemuxState.returns_of_len rfl⟩ ?_
    rw [DemuxState.Returns, Framing.records_of_none hnone]
    trivial
  | heartbeat hacc =>
    have hsize := accepted_bounds hacc
    rw [DemuxState.Returns, DemuxState.Returns, (records_slice_of_accepted hb hacc).1, marksFrom,
      b.length_slice (by omega)]
    exact and_iff_right hdied
  | died hacc hcall =>
    refine iff_of_false (fun h => absurd h.1 (by simp)) fun h => ?_
    rw [DemuxState.Returns, (records_slice_of_accepted hb hacc).1] at h
    have hreturned : (liveTrans s.p s.env).1.isSome := h.1
    rw [hcall] at hreturned
    exact absurd hreturned (by simp)
  | msg hacc hcall =>
    have hsize := accepted_bounds hacc
    rw [DemuxState.Returns, DemuxState.Returns, (records_slice_of_accepted hb hacc).1, marksFrom,
      b.length_slice (by omega)]
    have hstep : ∀ ps, CallsReturn liveTrans (s.p :: ps) s.env
        ↔ CallsReturn liveTrans ps (liveTrans s.p s.env).2 := fun ps => by
      rw [CallsReturn, hcall]
      exact and_iff_right rfl
    exact (and_iff_right hdied).trans ((hstep _).trans (by rw [hcall]; rfl)).symm

/-- **The loop completes** exactly when the calls of `liveTrans` at the records return. -/
theorem demux_died_iff {s : DemuxState σ} (hb : s.p + s.len ≤ b.mem.length)
    (hdied : s.died = false) :
    (demux liveTrans b s).died = false ↔ s.Returns liveTrans b := by
  fun_induction demux liveTrans b s with
  | case1 s s' hs ih =>
    have hturn := demuxStep_turn liveTrans b s
    rw [ih (demuxStep_bound liveTrans b hturn hb) hs.2, ← hturn.returns_iff hb hdied]
    exact (and_iff_right hs.2).symm
  | case2 s s' hs =>
    -- the process is dead, or no bytes are left
    have hturn := demuxStep_turn liveTrans b s
    rw [← hturn.returns_iff hb hdied]
    refine ⟨fun h => ⟨h, DemuxState.returns_of_len ?_⟩, And.left⟩
    by_contra hlen
    exact hs ⟨Nat.pos_of_ne_zero hlen, h⟩

end

end S4LibLite.Network
