import S4LibLite.Network.Resources

/-!
# The live list and its size

`proc_cmdQ` asks the command queue for its approximate size, dequeues, and applies what it
got to `_live_list`; `_stats.live_code_nb` is set at its end.

* `procCmdQs_iff`, the polls of a run apply exactly the commands returned to them, when no
  poll comes back with nothing from a queue that promised something;
* `liveCodeNb_inStep_iff`, the counter is the size of the list as long as no `start` zeroes the
  one and leaves the other.
-/

namespace S4LibLite.Network

open L2DataQ

/-! ## Commands -/

/-- What one command does to the list. -/
def LiveCmd.applyTo (liveList : Finset UInt32) (cmd : LiveCmd) : Finset UInt32 :=
  if cmd.add then insert cmd.code liveList else liveList.erase cmd.code

/-- The last of the commands on `code`. -/
def lastCmd (code : UInt32) (cmds : List LiveCmd) : Option LiveCmd :=
  (cmds.filter fun cmd => cmd.code = code).getLast?

/-- A command decides about its code and no other. -/
theorem LiveCmd.mem_applyTo {liveList : Finset UInt32} {cmd : LiveCmd} {code : UInt32} :
    code ∈ cmd.applyTo liveList ↔
      if cmd.code = code then cmd.add = true else code ∈ liveList := by
  unfold applyTo
  by_cases hadd : cmd.add = true
  · rw [if_pos hadd, Finset.mem_insert]
    by_cases hcode : cmd.code = code
    · rw [if_pos hcode]
      exact ⟨fun _ => hadd, fun _ => Or.inl hcode.symm⟩
    · rw [if_neg hcode, or_iff_right (Ne.symm hcode)]
  · rw [if_neg hadd, Finset.mem_erase]
    by_cases hcode : cmd.code = code
    · rw [if_pos hcode]
      exact ⟨fun h => absurd hcode.symm h.1, fun h => absurd h hadd⟩
    · rw [if_neg hcode, and_iff_right (Ne.symm hcode)]

/-- The last command on a code decides whether it is in the list. -/
theorem mem_foldl_applyTo (cmds : List LiveCmd) (liveList : Finset UInt32) (code : UInt32) :
    code ∈ cmds.foldl LiveCmd.applyTo liveList ↔
      (lastCmd code cmds).elim (code ∈ liveList) (fun cmd => cmd.add = true) := by
  -- on the commands from behind: the last one overrides the others
  induction cmds using List.reverseRecOn with
  | nil => rfl
  | append_singleton cmds cmd ih =>
    rw [List.foldl_append, List.foldl_cons, List.foldl_nil, LiveCmd.mem_applyTo]
    unfold lastCmd at ih ⊢
    rw [List.filter_append]
    by_cases hcode : cmd.code = code
    · have hlast : [cmd].filter (fun cmd => cmd.code = code) = [cmd] := by simp [hcode]
      rw [if_pos hcode, hlast, List.getLast?_append]
      rfl
    · have hnone : [cmd].filter (fun cmd => cmd.code = code) = [] := by simp [hcode]
      rw [if_neg hcode, hnone, List.append_nil]
      exact ih

/-- The loop of `proc_cmdQ` applies the commands it was given and stops before the null
ones. -/
theorem applyCmds_eq_foldl {s n : ℕ} {cmds : List LiveCmd} (tail : List (Option LiveCmd))
    (liveList : Finset UInt32) (hne : cmds ≠ []) (hs : n + cmds.length = s) :
    applyCmds s n (cmds.map some ++ tail) liveList
      = some (cmds.foldl LiveCmd.applyTo liveList) := by
  -- `n` counts the commands done, and `s` those there are
  induction cmds generalizing n liveList with
  | nil => exact absurd rfl hne
  | cons cmd cmds ih =>
    rw [List.map_cons, List.cons_append, applyCmds, List.foldl_cons]
    rw [List.length_cons] at hs
    by_cases hnil : cmds = []
    · rw [hnil, List.length_nil] at hs
      simp only [if_pos (show s ≤ n + 1 by omega), hnil]
      rfl
    · have hpos : 0 < cmds.length := List.length_pos_of_ne_nil hnil
      simp only [if_neg (show ¬ s ≤ n + 1 by omega)]
      exact ih _ hnil (by omega)

/-! ## Polls -/

/-- What one `proc_cmdQ` meets: what `size_approx` reports, and the commands
`try_dequeue_bulk` returns if it is called. -/
structure CmdPoll where
  sizeApprox : ℕ
  cmds : List LiveCmd
  length_cmds : cmds.length ≤ 8

/-- The poll calls `try_dequeue_bulk`. -/
def CmdPoll.Dequeues (hasCmdQ : Bool) (poll : CmdPoll) : Prop :=
  ¬ (hasCmdQ = false ∨ poll.sizeApprox = 0)

instance (hasCmdQ : Bool) (poll : CmdPoll) : Decidable (poll.Dequeues hasCmdQ) :=
  inferInstanceAs (Decidable (¬ _))

/-- The commands a poll has returned to it. -/
def CmdPoll.returned (hasCmdQ : Bool) (poll : CmdPoll) : List LiveCmd :=
  if poll.Dequeues hasCmdQ then poll.cmds else []

/-- A sequence of `proc_cmdQ` polls. -/
def procCmdQs : List CmdPoll → L2Recver → Option L2Recver
  | [], r => some r
  | poll :: polls, r => (procCmdQ poll.sizeApprox (poll.cmds.map some) r).bind (procCmdQs polls)

/-- One poll: without a command to start with, the first null one is dereferenced. -/
theorem procCmdQ_eq (poll : CmdPoll) (r : L2Recver) :
    (poll.Dequeues r.hasCmdQ ∧ poll.cmds = [] ∧
        procCmdQ poll.sizeApprox (poll.cmds.map some) r = none) ∨
      ((poll.Dequeues r.hasCmdQ → poll.cmds ≠ []) ∧
        ∃ r', procCmdQ poll.sizeApprox (poll.cmds.map some) r = some r' ∧
          r'.hasCmdQ = r.hasCmdQ ∧
          r'.live.liveList
            = (poll.returned r.hasCmdQ).foldl LiveCmd.applyTo r.live.liveList) := by
  unfold procCmdQ CmdPoll.returned
  by_cases hdeq : poll.Dequeues r.hasCmdQ
  · rw [if_neg hdeq, if_pos hdeq]
    by_cases hnil : poll.cmds = []
    · left
      rw [hnil]
      exact ⟨hdeq, rfl, rfl⟩
    · right
      have happly := applyCmds_eq_foldl (List.replicate (8 - poll.cmds.length) none)
        r.live.liveList hnil (Nat.zero_add _)
      simp only [List.length_map, happly]
      exact ⟨fun _ => hnil, _, rfl, rfl, rfl⟩
  · right
    rw [if_neg hdeq, if_pos (not_not.mp hdeq)]
    exact ⟨fun h => absurd h hdeq, r, rfl, rfl, rfl⟩

/-- **Polling for commands.** The polls of a run dereference no absent command, and leave
the list that results from all commands returned to them, in order and however they were
cut into batches, exactly when no poll finds the queue it has been promised commands of
empty; then the last command on a code decides whether it is in the list. -/
theorem procCmdQs_iff (polls : List CmdPoll) (r : L2Recver) :
    (∃ r', procCmdQs polls r = some r' ∧
        r'.live.liveList
          = (polls.flatMap (·.returned r.hasCmdQ)).foldl LiveCmd.applyTo r.live.liveList ∧
        ∀ code, code ∈ r'.live.liveList ↔
          (lastCmd code (polls.flatMap (·.returned r.hasCmdQ))).elim (code ∈ r.live.liveList)
            (fun cmd => cmd.add = true)) ↔
      ∀ poll ∈ polls, poll.Dequeues r.hasCmdQ → poll.cmds ≠ [] := by
  have hmem : ∀ r' : L2Recver, r'.live.liveList
      = (polls.flatMap (·.returned r.hasCmdQ)).foldl LiveCmd.applyTo r.live.liveList →
      ∀ code, code ∈ r'.live.liveList ↔
        (lastCmd code (polls.flatMap (·.returned r.hasCmdQ))).elim (code ∈ r.live.liveList)
          (fun cmd => cmd.add = true) :=
    fun r' hlist code => by rw [hlist, mem_foldl_applyTo]
  -- which commands decide is a fact about the list that results
  suffices h : (∃ r', procCmdQs polls r = some r' ∧ r'.live.liveList
      = (polls.flatMap (·.returned r.hasCmdQ)).foldl LiveCmd.applyTo r.live.liveList) ↔
      ∀ poll ∈ polls, poll.Dequeues r.hasCmdQ → poll.cmds ≠ [] by
    rw [← h]
    constructor
    · intro hex
      obtain ⟨r', hrun, hlist, -⟩ := hex
      exact ⟨r', hrun, hlist⟩
    · intro hex
      obtain ⟨r', hrun, hlist⟩ := hex
      exact ⟨r', hrun, hlist, hmem r' hlist⟩
  clear hmem
  induction polls generalizing r with
  | nil => exact ⟨fun _ => List.forall_mem_nil _, fun _ => ⟨r, rfl, rfl⟩⟩
  | cons poll polls ih =>
    rw [List.forall_mem_cons, procCmdQs, List.flatMap_cons, List.foldl_append]
    rcases procCmdQ_eq poll r with ⟨hdeq, hnil, hdied⟩ | ⟨hne, r₁, h₁, hq, hlist⟩
    · -- the run ends here, and in nothing
      rw [hdied, Option.bind_none]
      constructor
      · intro hex
        obtain ⟨_, habs, -⟩ := hex
        exact absurd habs (by simp)
      · intro h
        exact absurd hnil (h.1 hdeq)
    · rw [h₁, Option.bind_some, ← hlist, ← hq, ih r₁]
      rw [hq]
      exact ⟨fun h => ⟨hne, h⟩, fun h => h.2⟩

/-- The queue reports a command that another receiver takes before it is dequeued. -/
theorem procCmdQs_dereferences_null :
    ¬ ∀ (polls : List CmdPoll) (r : L2Recver), ∃ r', procCmdQs polls r = some r' ∧
        r'.live.liveList
          = (polls.flatMap (·.returned r.hasCmdQ)).foldl LiveCmd.applyTo r.live.liveList ∧
        ∀ code, code ∈ r'.live.liveList ↔
          (lastCmd code (polls.flatMap (·.returned r.hasCmdQ))).elim (code ∈ r.live.liveList)
            (fun cmd => cmd.add = true) := by
  intro hall
  obtain ⟨r', hrun, -⟩ := hall [⟨1, [], by decide⟩] .fresh
  have hnone : procCmdQs [⟨1, [], by decide⟩] L2Recver.fresh = none := rfl
  rw [hnone] at hrun
  exact absurd hrun (by simp)

/-! ## The counter of live codes -/

/-- `live_code_nb` is the number of codes in the list. -/
def L2Recver.InStep (r : L2Recver) : Prop := r.stats.liveCodeNb = r.live.liveList.card

/-- A turn of the inner loop changes neither the list nor its counter. -/
theorem liveList_turn {b : RecvBuffer} {time : UInt64} {s s' : DemuxState Live}
    (hturn : Turn (liveTrans b time) b s s') :
    s'.stats.liveCodeNb = s.stats.liveCodeNb ∧ s'.env.liveList = s.env.liveList := by
  have hforward := liveTrans_forward b time s.p s.env
  cases hturn with
  | unknown => exact ⟨rfl, rfl⟩
  | heartbeat => exact ⟨rfl, rfl⟩
  | @died k env _ hcall =>
    rw [hcall] at hforward
    cases hforward with
    | starved => exact ⟨rfl, rfl⟩
    | overrun => exact ⟨rfl, rfl⟩
  | @msg k live env _ hcall =>
    rw [hcall] at hforward
    cases hforward with
    | filtered => exact ⟨rfl, rfl⟩
    | forwarded => exact ⟨rfl, rfl⟩

/-- A datagram keeps counter and list in step. -/
theorem onDatagram_inStep {poll : Poll} {r r' : L2Recver} (hpos : 0 < poll.recvLen)
    (hrun : onDatagram poll r = some r') (h : r.InStep) : r'.InStep := by
  have hn : 0 < poll.recvLen.toNat := by omega
  have hinv := demux_invariant (liveTrans poll.buffer poll.nowMs) poll.buffer
    (P := fun s => s.stats.liveCodeNb = s.env.liveList.card)
    (s := datagram poll.recvLen.toNat (r.stats.arrive poll.nowMs) r.live)
    (fun s s' _ hturn hs => by
      rw [(liveList_turn hturn).1, (liveList_turn hturn).2, hs]) hn h
  unfold onDatagram at hrun
  simp only at hrun
  split at hrun
  · exact absurd hrun (by simp)
  · obtain rfl := Option.some.inj hrun
    exact hinv

/-- A report changes neither the counters nor the list. -/
theorem reportStats_counts {force : Bool} {nowMs : UInt64} {r r' : L2Recver}
    (hrun : reportStats force nowMs r = some r') :
    r'.stats = r.stats ∧ r'.live.liveList = r.live.liveList := by
  rcases reportStats_cases hrun with ⟨-, rfl⟩ | ⟨x, hx⟩
  · exact ⟨rfl, rfl⟩
  · obtain ⟨q, rfl⟩ := hx.left
    exact ⟨rfl, rfl⟩

/-- So does a report. -/
theorem reportStats_inStep {force : Bool} {nowMs : UInt64} {r r' : L2Recver}
    (hrun : reportStats force nowMs r = some r') (h : r.InStep) : r'.InStep := by
  unfold L2Recver.InStep
  rw [(reportStats_counts hrun).1, (reportStats_counts hrun).2, h]

/-- A poll for commands that returns sets the counter, or changes nothing. -/
theorem procCmdQ_inStep {sizeApprox : ℕ} {cmds : List (Option LiveCmd)} {r r' : L2Recver}
    (hrun : procCmdQ sizeApprox cmds r = some r') (h : r.InStep) : r'.InStep := by
  rcases procCmdQ_cases hrun with ⟨-, rfl⟩ | ⟨-, liveList, -, rfl⟩
  · exact h
  · rfl

/-- And with the commands, every turn of the thread. -/
theorem recvLoop_inStep {polls : List Poll} {r r' : L2Recver}
    (hrun : recvLoop polls r = some r') (h : r.InStep) : r'.InStep := by
  refine recvLoop_invariant (P := L2Recver.InStep) ?_ ?_ hrun h
  · intro poll r r' hpos hrun h
    exact onDatagram_inStep hpos hrun h
  · intro poll r r' hrun h
    obtain ⟨r₁, h₁, hrun⟩ := Option.bind_eq_some_iff.mp hrun
    exact procCmdQ_inStep hrun (reportStats_inStep h₁ h)

/-- Whatever a report sends from this state is one particle of statistics, with the number
of codes in its `live_code_nb`, behind fourteen counters. -/
def L2Recver.ReportsSize (r : L2Recver) : Prop :=
  ∀ force nowMs r', reportStats force nowMs r = some r' →
    r'.live.q.sent = r.live.q.sent ∨ ∃ x, r'.live.q.sent = r.live.q.sent ++ [x] ∧
      x.info.type = .statsData ∧
      ((x.pBuffer.take x.info.dataLen).drop 112).take 8 = L2Stats.le64 r.live.liveList.card

theorem L2Recver.InStep.reportsSize {r : L2Recver} (h : r.InStep) : r.ReportsSize := by
  intro force nowMs r' hrun
  rcases reportStats_cases hrun with ⟨-, rfl⟩ | ⟨x, hx⟩
  · exact Or.inl rfl
  · refine Or.inr ⟨x, hx.sent, hx.type, ?_⟩
    rw [hx.bytes, ← h]
    rfl

/-! ## Runs of `start` and `stop` -/

/-- The call is a `start`. -/
def Call.IsStart : Call → Prop
  | .start _ _ => True
  | .stop _ _ _ => False

/-- A `start` made in this state meets a running thread, or an empty list. -/
def Call.StartsEmpty : Call → L2Recver × Os → Prop
  | .start _ _, s => s.1.pThread = true ∨ s.1.live.liveList = ∅
  | .stop _ _ _, _ => True

/-- Every call of a run meets the condition in the state it is made in. -/
def RunStartsEmpty : List Call → L2Recver × Os → Prop
  | [], _ => True
  | c :: cs, s => c.StartsEmpty s ∧ ∀ s', c.step s = some s' → RunStartsEmpty cs s'

theorem startThread_counts (args : StartArgs) (r : L2Recver) (os : Os) :
    (startThread args r os).2.1.stats = r.stats ∧
      (startThread args r os).2.1.live = r.live := by
  unfold startThread
  by_cases hfd : r.fd < 0
  · rw [if_pos hfd]
    exact ⟨rfl, rfl⟩
  · rw [if_neg hfd]
    exact ⟨rfl, rfl⟩

theorem startMulticast_counts (args : StartArgs) (calls : StartCalls) (r : L2Recver) (os : Os) :
    (startMulticast args calls r os).2.1.stats = r.stats ∧
      (startMulticast args calls r os).2.1.live = r.live := by
  unfold startMulticast
  simp only
  split_ifs
  · exact ⟨rfl, rfl⟩
  · exact ⟨rfl, rfl⟩
  · exact ⟨rfl, rfl⟩
  · exact startThread_counts _ _ _

/-- A `start` without a thread zeroes the counters and keeps the list, whatever it answers. -/
theorem start_counts (args : StartArgs) (calls : StartCalls) {r : L2Recver} (os : Os)
    (hthread : r.pThread = false) :
    (start args calls r os).2.1.stats = L2Stats.zero ∧
      (start args calls r os).2.1.live = r.live := by
  unfold start
  rw [if_neg (by rw [hthread]; decide)]
  simp only
  split_ifs
  · exact startMulticast_counts _ _ _ _
  · exact startThread_counts _ _ _

/-- `stop` keeps them in step. -/
theorem stop_inStep {calls : RouteCalls} {polls : List Poll} {nowMs : UInt64} {r r' : L2Recver}
    {os os' : Os} {ok : Bool} (hrun : stop calls polls nowMs r os = some (ok, r', os'))
    (h : r.InStep) : r'.InStep := by
  by_cases hthread : r.pThread = true
  · obtain ⟨r₁, r₂, h₁, h₂, hstats, hlive⟩ := stop_eq_some hthread hrun
    have h₃ : r₂.InStep := reportStats_inStep h₂ (recvLoop_inStep h₁ h)
    unfold L2Recver.InStep
    rw [hstats, hlive]
    exact h₃
  · unfold stop at hrun
    rw [if_neg hthread] at hrun
    obtain ⟨-, hpair⟩ := Prod.mk.inj (Option.some.inj hrun)
    obtain ⟨rfl, -⟩ := Prod.mk.inj hpair
    exact h

/-- A call that meets the condition keeps the counter in step. -/
theorem Call.step_inStep {c : Call} {s s' : L2Recver × Os} (hempty : c.StartsEmpty s)
    (hstep : c.step s = some s') (h : s.1.InStep) : s'.1.InStep := by
  cases c with
  | start args calls =>
    obtain rfl := Option.some.inj hstep
    by_cases hthread : s.1.pThread = true
    · unfold Network.start
      rw [if_pos hthread]
      exact h
    · have hcounts := start_counts args calls s.2
        (Bool.eq_false_of_not_eq_true hthread)
      unfold L2Recver.InStep
      rw [hcounts.1, hcounts.2, hempty.resolve_left hthread]
      rfl
  | stop calls polls nowMs =>
    obtain ⟨⟨ok, r', os'⟩, hstop, rfl⟩ := Option.map_eq_some_iff.mp hstep
    exact stop_inStep hstop h

/-- So does every run that starts with an empty list. -/
theorem run_inStep {calls : List Call} {s s' : L2Recver × Os}
    (hempty : RunStartsEmpty calls s) (hrun : run calls s = some s')
    (h : s.1.InStep) : s'.1.InStep := by
  induction calls generalizing s with
  | nil =>
    obtain rfl := Option.some.inj hrun
    exact h
  | cons c cs ih =>
    obtain ⟨s₁, h₁, hrun⟩ := Option.bind_eq_some_iff.mp hrun
    exact ih (hempty.2 s₁ h₁) hrun (c.step_inStep hempty.1 h₁ h)

/-- The first `start` sets the counter; until then there is nothing to count. -/
theorem run_inStep_of_constructed {calls : List Call} {s s' : L2Recver × Os}
    (hthread : s.1.pThread = false) (hlist : s.1.live.liveList = ∅)
    (hstart : ∃ c ∈ calls, c.IsStart) (hempty : RunStartsEmpty calls s)
    (hrun : run calls s = some s') : s'.1.InStep := by
  induction calls with
  | nil =>
    obtain ⟨c, hc, -⟩ := hstart
    exact absurd hc List.not_mem_nil
  | cons c cs ih =>
    obtain ⟨s₁, h₁, hrest⟩ := Option.bind_eq_some_iff.mp hrun
    cases c with
    | start args calls =>
      refine run_inStep (hempty.2 s₁ h₁) hrest ?_
      obtain rfl := Option.some.inj h₁
      have hcounts := start_counts args calls s.2 hthread
      unfold L2Recver.InStep
      rw [hcounts.1, hcounts.2, hlist]
      rfl
    | stop calls polls nowMs =>
      -- there is no thread to stop
      have hsame : s₁ = s := by
        simp only [Call.step, stop, hthread, Bool.false_eq_true, if_false, Option.map_some] at h₁
        exact (Option.some.inj h₁).symm
      rw [hsame] at hrest
      refine ih ?_ (hsame ▸ hempty.2 s₁ h₁) hrest
      obtain ⟨c, hc, hcs⟩ := hstart
      rcases List.mem_cons.mp hc with rfl | hc
      · exact hcs.elim
      · exact ⟨c, hc, hcs⟩

theorem RunStartsEmpty.of_prefix {pre calls : List Call} (hpre : pre <+: calls)
    {s : L2Recver × Os} (h : RunStartsEmpty calls s) : RunStartsEmpty pre s := by
  induction pre generalizing calls s with
  | nil => exact trivial
  | cons c pre ih =>
    obtain ⟨rest, rfl⟩ := hpre
    exact ⟨h.1, fun s' hs' => ih (List.prefix_append pre rest) (h.2 s' hs')⟩

/-- **The counter of live codes.** In a run of calls on a receiver that was just
constructed, the counter is the size of the list in every state from the first `start` on,
between calls and between the polls of the thread, and every report carries it, exactly
when each `start` that takes effect is made with an empty list. -/
theorem liveCodeNb_inStep_iff {calls : List Call} {s : L2Recver × Os}
    (hthread : s.1.pThread = false) (hlist : s.1.live.liveList = ∅) :
    (∀ pre s', pre <+: calls → (∃ c ∈ pre, c.IsStart) → run pre s = some s' →
        s'.1.InStep ∧ ∀ polls r, recvLoop polls s'.1 = some r → r.InStep ∧ r.ReportsSize) ↔
      RunStartsEmpty calls s := by
  constructor
  · clear hthread hlist
    induction calls generalizing s with
    | nil => exact fun _ => trivial
    | cons c cs ih =>
      intro h
      refine ⟨?_, fun s₁ h₁ => ih fun pre s' hpre hstart hrun => ?_⟩
      · cases c with
        | stop calls polls nowMs => exact trivial
        | start args calls =>
          -- right behind a `start` that takes effect the counter is zero
          apply or_iff_not_imp_left.mpr
          intro hthread
          have hcounts := start_counts args calls s.2
            (Bool.eq_false_of_not_eq_true hthread)
          have hstep := (h [.start args calls] _ (List.prefix_append [_] cs)
            ⟨_, List.mem_singleton_self _, trivial⟩ rfl).1
          unfold L2Recver.InStep at hstep
          rw [hcounts.1, hcounts.2] at hstep
          exact Finset.card_eq_zero.mp hstep.symm
      · refine h (c :: pre) s' (List.cons_prefix_cons.mpr ⟨rfl, hpre⟩) ?_ ?_
        · obtain ⟨c', hc', hstart⟩ := hstart
          exact ⟨c', List.mem_cons_of_mem _ hc', hstart⟩
        · rw [run, h₁]
          exact hrun
  · intro hempty pre s' hpre hstart hrun
    have h := run_inStep_of_constructed hthread hlist hstart (hempty.of_prefix hpre) hrun
    exact ⟨h, fun polls r hpolls =>
      ⟨recvLoop_inStep hpolls h, (recvLoop_inStep hpolls h).reportsSize⟩⟩

/-- The end of a session in which a code is subscribed and dropped again. -/
def stopUnsubscribed : Call := .stop StartCalls.granted.route [subscribing, unsubscribing] 20

/-- A code is subscribed, and dropped before the receiver is stopped and started again. -/
theorem liveCodeNb_inStep_600997 : ∃ s r s',
    run [startGroup .granted] (.fresh, ⟨[], ∅⟩) = some s ∧
      recvLoop [subscribing] s.1 = some r ∧ r.stats.liveCodeNb = 1 ∧ r.InStep ∧
    run [startGroup .granted, stopUnsubscribed, startGroup .granted] (.fresh, ⟨[], ∅⟩) = some s' ∧
      s'.1.InStep := by
  have hstart : (startGroup .granted).step (.fresh, ⟨[], ∅⟩) = some started.2 := rfl
  have hstop : (stopUnsubscribed.step started.2).map (·.1.live.liveList) = some ∅ := by
    decide +kernel
  obtain ⟨s₂, hstep, hlist⟩ := Option.map_eq_some_iff.mp hstop
  have hempty : RunStartsEmpty [startGroup .granted, stopUnsubscribed, startGroup .granted]
      (.fresh, ⟨[], ∅⟩) := by
    refine ⟨Or.inr rfl, fun s hs => ⟨trivial, fun s' hs' => ⟨Or.inr ?_, fun _ _ => trivial⟩⟩⟩
    obtain rfl := Option.some.inj (hstart.symm.trans hs)
    obtain rfl := Option.some.inj (hstep.symm.trans hs')
    exact hlist
  have hcount : (recvLoop [subscribing] started.2.1).map (·.stats.liveCodeNb) = some 1 := by
    decide +kernel
  obtain ⟨r, hpoll, hone⟩ := Option.map_eq_some_iff.mp hcount
  have hinStep := (liveCodeNb_inStep_iff (s := (.fresh, ⟨[], ∅⟩)) rfl rfl).mpr hempty
  have hrun : run [startGroup .granted, stopUnsubscribed, startGroup .granted] (.fresh, ⟨[], ∅⟩)
      = (startGroup .granted).step s₂ := by
    rw [run, hstart, Option.bind_some, run, hstep]
    rfl
  refine ⟨started.2, r, _, rfl, hpoll, hone, ?_, hrun, ?_⟩
  · exact ((hinStep [startGroup .granted] _ (List.prefix_append [_] _)
      ⟨_, List.mem_singleton_self _, trivial⟩ rfl).2 _ r hpoll).1
  · exact (hinStep _ _ List.prefix_rfl ⟨_, List.mem_cons_self, trivial⟩ hrun).1

/-- The end of a session in which the code is kept. -/
def stopSubscribed : Call := .stop StartCalls.granted.route [subscribing] 20

/-- A session in which one code is subscribed, and the start of a second one: the list has
kept the code, and the counter has been zeroed. -/
theorem liveCodeNb_out_of_step : ¬ ∀ (calls : List Call) (s s' : L2Recver × Os),
    s.1.pThread = false → s.1.live.liveList = ∅ →
      (∀ rc polls nowMs, Call.stop rc polls nowMs ∈ calls → ∀ poll ∈ polls, poll.Served) →
      (∃ c ∈ calls, c.IsStart) → run calls s = some s' → s'.1.InStep := by
  intro hall
  have hrun : (run [startGroup .granted, stopSubscribed, startGroup .granted]
      (.fresh, ⟨[], ∅⟩)).map (fun s => (s.1.stats.liveCodeNb, s.1.live.liveList.card))
        = some (0, 1) := by
    decide +kernel
  obtain ⟨s', hrun, hcounts⟩ := Option.map_eq_some_iff.mp hrun
  obtain ⟨hnb, hcard⟩ := Prod.mk.inj hcounts
  have hstep := hall _ _ _ rfl rfl ?_ ⟨startGroup .granted, List.mem_cons_self, trivial⟩ hrun
  · unfold L2Recver.InStep at hstep
    rw [hnb, hcard] at hstep
    exact absurd hstep (by decide)
  · intro rc polls nowMs hmem
    have hpolls : polls = [subscribing] := by
      simp only [startGroup, stopSubscribed, List.mem_cons, List.not_mem_nil, reduceCtorEq,
        Call.stop.injEq, false_or, or_false] at hmem
      exact hmem.2.1
    rw [hpolls]
    intro poll hpoll
    rw [List.mem_singleton.mp hpoll]
    exact fun _ => ⟨List.cons_ne_nil _ _, List.all_eq_true.mp rfl⟩

end S4LibLite.Network
