import S4LibLite.Network.Session

/-!
# Sockets and routes of the receiver, over any sequence of `start` and `stop`

`start` takes up to three resources and remembers them in `_fd` and in two strings;
`stop` gives back what it finds there, if there is a thread, and looks the NIC up anew for it.
`StartBalanced` and `StopBalanced` are the conditions under which the two sides fit, and
`run_balanced` the result: in a run whose calls all meet them, nothing is kept and nothing is
lost while there is no thread.
-/

namespace S4LibLite.Network

/-! ## Runs -/

/-- A call on the receiver, with what the kernel answers and what the thread does. -/
inductive Call
  | start (args : StartArgs) (calls : StartCalls)
  | stop (calls : RouteCalls) (polls : List Poll) (nowMs : UInt64)

/-- One call; `none` when the process dies in the receive thread. -/
def Call.step : Call → L2Recver × Os → Option (L2Recver × Os)
  | .start args calls, s => some (Network.start args calls s.1 s.2).2
  | .stop calls polls nowMs, s => (Network.stop calls polls nowMs s.1 s.2).map Prod.snd

/-- A sequence of calls. -/
def run : List Call → L2Recver × Os → Option (L2Recver × Os)
  | [], s => some s
  | c :: cs, s => (c.step s).bind (run cs)

/-- The deletion of a route, should one be issued, is carried out. -/
def Call.DeletionSucceeds : Call → Prop
  | .start _ _ => True
  | .stop calls _ _ => calls.socket.isSome ∧ calls.permitted = true

/-! ## The condition -/

/-- The socket of a `start` cannot be had or cannot be bound. -/
def BindFails (calls : StartCalls) (args : StartArgs) (ip : Bytes) : Prop :=
  calls.socket args.udpLite = none ∨ calls.bind ip args.port = false

instance (calls : StartCalls) (args : StartArgs) (ip : Bytes) :
    Decidable (BindFails calls args ip) := inferInstanceAs (Decidable (_ ∨ _))

/-- The route that is edited for two addresses, by what a lookup of the NIC finds, if any. -/
def routeOf (nics : AdapterCalls) (ip localIp : Bytes) : Option (UInt32 × Bytes) :=
  if inetAddr localIp = inaddrAny ∨ nics.nicOf localIp = [] then none
  else some (inetAddr ip, nics.nicOf localIp)

/-- When a `start` without a running thread takes only what can be given back: the address is
unicast; or the bind fails; or the group is joined, and the route was missing and has been added,
or none is wanted. -/
def StartBalanced (args : StartArgs) (calls : StartCalls) (routes : Finset (UInt32 × Bytes)) :
    Prop :=
  isMulticastAddress args.multiCastIp = true → BindFails calls args (lit "0.0.0.0") ∨
    (calls.join (inetAddr args.multiCastIp) (inetAddr (lit "0.0.0.0")) = true ∧
      (inetAddr args.localIp = inaddrAny ∨
        (calls.route.nics.nicOf args.localIp ≠ [] ∧
          (inetAddr args.multiCastIp, calls.route.nics.nicOf args.localIp) ∉ routes ∧
          calls.route.socket.isSome ∧ calls.route.permitted = true)))

/-- The route `stop` deletes, if any. -/
def deletedBy (calls : RouteCalls) (r : L2Recver) : Option (UInt32 × Bytes) :=
  if r.multicastIp = [] then none else routeOf calls.nics r.multicastIp r.localIp

/-- When a `stop` gives back what was taken: its lookup leads to the route that was added, or none
was added and there is none that it would delete. -/
def StopBalanced (calls : RouteCalls) (added : Option (UInt32 × Bytes)) (r : L2Recver)
    (routes : Finset (UInt32 × Bytes)) : Prop :=
  match added with
  | some route => deletedBy calls r = some route
  | none => ∀ route, deletedBy calls r = some route → route ∉ routes

/-- A call in a state meets the condition. -/
def Call.Balanced : Call → Option (UInt32 × Bytes) → L2Recver × Os → Prop
  | .start args calls, _, s => s.1.pThread = true ∨ StartBalanced args calls s.2.routes
  | .stop calls _ _, added, s => s.1.pThread = false ∨ StopBalanced calls added s.1 s.2.routes

/-- The route that has been added, when a call that meets the condition is through. -/
def Call.added : Call → Option (UInt32 × Bytes) → L2Recver × Os → Option (UInt32 × Bytes)
  | .start args calls, added, s =>
    if s.1.pThread then added
    else if isMulticastAddress args.multiCastIp ∧ ¬ BindFails calls args (lit "0.0.0.0") then
      routeOf calls.route.nics args.multiCastIp args.localIp
    else none
  | .stop _ _ _, _, _ => none

/-- Every call of a run meets the condition in the state it is made in; the route that was added is
recorded beside the state. -/
def RunBalanced : List Call → Option (UInt32 × Bytes) → L2Recver × Os → Prop
  | [], _, _ => True
  | c :: cs, added, s =>
    c.Balanced added s ∧ ∀ s', c.step s = some s' → RunBalanced cs (c.added added s) s'

/-! ## What the operations do to sockets and routes -/

/-- A deletion that is carried out erases the route. -/
theorem delRouteViaNIC_eq {calls : RouteCalls} (hs : calls.socket.isSome)
    (hp : calls.permitted = true) (ip nic : Bytes) (os : Os) :
    (editRouteViaNIC calls ip nic false os).2
      = { os with routes := os.routes.erase (inetAddr ip, nic) } := by
  obtain ⟨fd, hfd⟩ := Option.isSome_iff_exists.mp hs
  have hfd0 : ¬ (fd : ℤ) < 0 := by omega
  unfold editRouteViaNIC
  simp only [hfd, Os.socket, if_neg hfd0, Os.siocDelRt, hp]
  by_cases hmem : (inetAddr ip, nic) ∈ os.routes
  · simp [hmem, Os.close]
  · simp [hmem, Os.close]

/-- An addition that is carried out inserts a route that was missing. -/
theorem addRouteViaNIC_eq {calls : RouteCalls} (hs : calls.socket.isSome)
    (hp : calls.permitted = true) {ip nic : Bytes} {os : Os}
    (hmem : (inetAddr ip, nic) ∉ os.routes) :
    editRouteViaNIC calls ip nic true os
      = (0, { os with routes := insert (inetAddr ip, nic) os.routes }) := by
  obtain ⟨fd, hfd⟩ := Option.isSome_iff_exists.mp hs
  have hfd0 : ¬ (fd : ℤ) < 0 := by omega
  unfold editRouteViaNIC
  simp only [hfd, Os.socket, if_neg hfd0, Os.siocAddRt, hp]
  simp [hmem, Os.close]

/-- Without a local address there is no NIC to route over, and `addRouteViaIP` succeeds. -/
theorem addRouteViaIP_of_any {calls : RouteCalls} {localIp : Bytes}
    (hany : inetAddr localIp = inaddrAny) (ip : Bytes) (os : Os) :
    addRouteViaIP calls ip localIp os = (0, os) := by
  unfold addRouteViaIP editRouteViaIP
  rw [if_pos hany]

/-- The addition over the NIC of a local address. -/
theorem addRouteViaIP_eq {calls : RouteCalls} (hs : calls.socket.isSome)
    (hp : calls.permitted = true) {ip localIp : Bytes} {os : Os}
    (hany : inetAddr localIp ≠ inaddrAny) (hnic : calls.nics.nicOf localIp ≠ [])
    (hmem : (inetAddr ip, calls.nics.nicOf localIp) ∉ os.routes) :
    addRouteViaIP calls ip localIp os
      = (0, { os with routes := insert (inetAddr ip, calls.nics.nicOf localIp) os.routes }) := by
  unfold addRouteViaIP editRouteViaIP
  simp only [if_neg hany, getIfrName_nicOf, if_neg hnic]
  exact addRouteViaNIC_eq hs hp hmem

/-- What `stop` does to the kernel once the thread has closed its socket. -/
theorem delRoute_deletedBy {calls : RouteCalls} (hs : calls.socket.isSome)
    (hp : calls.permitted = true) (r : L2Recver) (os : Os) :
    (if r.multicastIp = [] then os else (delRouteViaIP calls r.multicastIp r.localIp os).2)
      = { os with routes := (deletedBy calls r).elim os.routes os.routes.erase } := by
  unfold deletedBy routeOf delRouteViaIP editRouteViaIP
  by_cases hnil : r.multicastIp = []
  · rw [if_pos hnil, if_pos hnil]
    rfl
  rw [if_neg hnil, if_neg hnil]
  by_cases hany : inetAddr r.localIp = inaddrAny
  · rw [if_pos hany, if_pos (Or.inl hany)]
    rfl
  rw [if_neg hany, getIfrName_nicOf]
  by_cases hnic : calls.nics.nicOf r.localIp = []
  · simp only [if_pos hnic, if_pos (show _ ∨ _ from Or.inr hnic)]
    rfl
  · simp only [if_neg hnic, if_neg (not_or.mpr ⟨hany, hnic⟩)]
    exact delRouteViaNIC_eq hs hp _ _ os

/-- A `stop` that meets the condition restores the table. -/
theorem StopBalanced.erase {calls : RouteCalls} {added : Option (UInt32 × Bytes)} {r : L2Recver}
    {routes : Finset (UInt32 × Bytes)} (hadded : ∀ route ∈ added, route ∉ routes)
    (h : StopBalanced calls added r (added.elim routes (insert · routes))) :
    (deletedBy calls r).elim (added.elim routes (insert · routes))
      (added.elim routes (insert · routes)).erase = routes := by
  cases added with
  | some route =>
    rw [show deletedBy calls r = some route from h]
    exact Finset.erase_insert (hadded route rfl)
  | none =>
    cases hdel : deletedBy calls r with
    | none => rfl
    | some route => exact Finset.erase_eq_of_notMem (h route hdel)

/-- What `start` and `stop` remember a session by. -/
def L2Recver.handles (r : L2Recver) : ℤ × Bool × Bytes × Bytes :=
  (r.fd, r.pThread, r.localIp, r.multicastIp)

theorem onDatagram_handles {poll : Poll} {r r' : L2Recver} (h : onDatagram poll r = some r') :
    r'.handles = r.handles := by
  unfold onDatagram at h
  simp only at h
  split at h
  · exact absurd h (by simp)
  · rw [← Option.some.inj h]
    rfl

theorem reportStats_handles {force : Bool} {nowMs : UInt64} {r r' : L2Recver}
    (h : reportStats force nowMs r = some r') : r'.handles = r.handles := by
  rcases reportStats_cases h with ⟨-, rfl⟩ | ⟨x, hx⟩
  · rfl
  · obtain ⟨q, rfl⟩ := hx.left
    rfl

theorem procCmdQ_handles {sizeApprox : ℕ} {cmds : List (Option LiveCmd)} {r r' : L2Recver}
    (h : procCmdQ sizeApprox cmds r = some r') : r'.handles = r.handles := by
  rcases procCmdQ_cases h with ⟨-, rfl⟩ | ⟨-, liveList, -, rfl⟩
  · rfl
  · rfl

/-- The receive thread leaves the handles alone. -/
theorem recvLoop_handles {polls : List Poll} {r r' : L2Recver} (h : recvLoop polls r = some r') :
    r'.handles = r.handles := by
  refine recvLoop_invariant (P := fun r₁ => r₁.handles = r.handles) ?_ ?_ h rfl
  · intro poll r₁ r₂ _ hrun hsame
    exact (onDatagram_handles hrun).trans hsame
  · intro poll r₁ r₂ hrun hsame
    obtain ⟨r₃, h₃, hrun⟩ := Option.bind_eq_some_iff.mp hrun
    exact ((procCmdQ_handles hrun).trans (reportStats_handles h₃)).trans hsame

/-! ## The invariant -/

/-- Without a thread nothing is held; with one, the socket and the route that was added. -/
structure Held (routes : Finset (UInt32 × Bytes)) (added : Option (UInt32 × Bytes))
    (s : L2Recver × Os) : Prop where
  idle : s.1.pThread = false → s.2.sockets = [] ∧ s.2.routes = routes
  running : s.1.pThread = true → s.2.sockets = [s.1.fd] ∧
    s.2.routes = added.elim routes (insert · routes) ∧ ∀ route ∈ added, route ∉ routes

theorem bindUdpSock_of_fails {calls : StartCalls} {args : StartArgs} {ip : Bytes} (os : Os)
    (h : BindFails calls args ip) :
    bindUdpSock calls args.port ip args.udpLite os = (-1, os) := by
  unfold bindUdpSock
  rcases hsock : calls.socket args.udpLite with _ | fd
  · simp [Os.socket]
  · have hbind : calls.bind ip args.port = false := h.resolve_left (by rw [hsock]; simp)
    have hfd : (fd : ℤ) ≠ -1 := by omega
    simp [Os.socket, hfd, hbind, Os.close]

theorem bindUdpSock_of_not_fails {calls : StartCalls} {args : StartArgs} {ip : Bytes} (os : Os)
    (h : ¬ BindFails calls args ip) : ∃ fd : ℕ,
      bindUdpSock calls args.port ip args.udpLite os
        = ((fd : ℤ), { os with sockets := (fd : ℤ) :: os.sockets }) := by
  unfold BindFails at h
  rw [not_or] at h
  obtain ⟨fd, hsock⟩ := Option.ne_none_iff_exists'.mp h.1
  have hfd : (fd : ℤ) ≠ -1 := by omega
  refine ⟨fd, ?_⟩
  unfold bindUdpSock
  simp [hsock, Os.socket, hfd, h.2]

theorem startThread_held {routes : Finset (UInt32 × Bytes)} {added : Option (UInt32 × Bytes)}
    {args : StartArgs} {r : L2Recver} {os : Os} {fd : ℕ} (hfd : r.fd = fd)
    (hsockets : os.sockets = [(fd : ℤ)])
    (hroutes : os.routes = added.elim routes (insert · routes))
    (hadded : ∀ route ∈ added, route ∉ routes) :
    Held routes added (startThread args r os).2 := by
  have hpos : ¬ r.fd < 0 := by omega
  unfold startThread
  rw [if_neg hpos]
  refine ⟨fun h => absurd h (by simp), fun _ => ⟨?_, hroutes, hadded⟩⟩
  show os.sockets = [r.fd]
  rw [hsockets, hfd]

/-- A `start` that takes nothing. -/
theorem Held.of_idle {routes : Finset (UInt32 × Bytes)} {added : Option (UInt32 × Bytes)}
    {r : L2Recver} {os : Os} (hthread : r.pThread = false) (hsockets : os.sockets = [])
    (hroutes : os.routes = routes) : Held routes added (r, os) where
  idle _ := ⟨hsockets, hroutes⟩
  running h := absurd h (by simp [hthread])

/-- A `start` on a multicast address that takes the route and joins the group. -/
theorem startMulticast_held {routes : Finset (UInt32 × Bytes)} {args : StartArgs}
    {calls : StartCalls} {r : L2Recver} {os : Os}
    (hmulti : isMulticastAddress args.multiCastIp = true)
    (hbal : StartBalanced args calls os.routes) (hthread : r.pThread = false)
    (hsockets : os.sockets = []) (hroutes : os.routes = routes) :
    Held routes (if BindFails calls args (lit "0.0.0.0") then none
      else routeOf calls.route.nics args.multiCastIp args.localIp)
      (startMulticast args calls r os).2 := by
  unfold startMulticast
  by_cases hbind : BindFails calls args (lit "0.0.0.0")
  · -- nothing was taken
    rw [bindUdpSock_of_fails os hbind]
    simp only [if_pos (show (-1 : ℤ) < 0 by omega)]
    exact Held.of_idle hthread hsockets hroutes
  obtain ⟨hjoin, hroute⟩ := (hbal hmulti).resolve_left hbind
  obtain ⟨fd, hfd⟩ := bindUdpSock_of_not_fails os hbind
  have hfd0 : ¬ (fd : ℤ) < 0 := by omega
  have hjoined : joinMultiAddr calls args.multiCastIp (lit "0.0.0.0") = 0 := by
    unfold joinMultiAddr
    rw [if_pos hjoin]
  rw [hfd, if_neg hbind, routeOf]
  simp only [if_neg hfd0, hjoined]
  by_cases hany : inetAddr args.localIp = inaddrAny
  · -- no route is added
    simp only [addRouteViaIP_of_any hany, ne_eq, not_true_eq_false, if_false,
      if_pos (show _ ∨ _ from Or.inl hany)]
    exact startThread_held rfl (by rw [hsockets]) hroutes fun route h => absurd h (by simp)
  · -- the route was missing, and now it is there
    obtain ⟨hnic, hmem, hs, hp⟩ := hroute.resolve_left hany
    rw [addRouteViaIP_eq hs hp hany hnic
      (show _ ∉ ({ os with sockets := (fd : ℤ) :: os.sockets } : Os).routes from hmem)]
    simp only [ne_eq, not_true_eq_false, if_false, if_neg (not_or.mpr ⟨hany, hnic⟩)]
    refine startThread_held rfl (by rw [hsockets]) (by rw [hroutes]; rfl) fun route h => ?_
    rw [← Option.some.inj h, ← hroutes]
    exact hmem

theorem start_held {routes : Finset (UInt32 × Bytes)} {added : Option (UInt32 × Bytes)}
    {args : StartArgs} {calls : StartCalls} {r : L2Recver} {os : Os}
    (hbal : (Call.start args calls).Balanced added (r, os)) (h : Held routes added (r, os)) :
    Held routes ((Call.start args calls).added added (r, os)) (start args calls r os).2 := by
  unfold start Call.added
  by_cases hthread : r.pThread = true
  · simp only [if_pos hthread]
    exact h
  simp only [if_neg hthread]
  replace hbal : StartBalanced args calls os.routes := hbal.resolve_left hthread
  rw [Bool.not_eq_true] at hthread
  obtain ⟨hsockets, hroutes⟩ := h.idle hthread
  by_cases hmulti : isMulticastAddress args.multiCastIp = true
  · simp only [hmulti, true_and, ite_not]
    exact startMulticast_held hmulti hbal hthread hsockets hroutes
  simp only [if_neg hmulti, if_neg (show ¬ (_ ∧ _) from fun hboth => hmulti hboth.1)]
  by_cases hbind : BindFails calls args args.localIp
  · rw [bindUdpSock_of_fails os hbind]
    unfold startThread
    simp only [if_pos (show (-1 : ℤ) < 0 by omega)]
    exact Held.of_idle hthread hsockets hroutes
  · obtain ⟨fd, hfd⟩ := bindUdpSock_of_not_fails os hbind
    rw [hfd]
    exact startThread_held rfl (by rw [hsockets]) hroutes fun route h => absurd h (by simp)

theorem stop_held {routes : Finset (UInt32 × Bytes)} {added : Option (UInt32 × Bytes)}
    {calls : RouteCalls} {polls : List Poll} {nowMs : UInt64} {r r' : L2Recver} {os os' : Os}
    {ok : Bool} (hs : calls.socket.isSome) (hp : calls.permitted = true)
    (hbal : (Call.stop calls polls nowMs).Balanced added (r, os))
    (hrun : stop calls polls nowMs r os = some (ok, r', os'))
    (h : Held routes added (r, os)) : Held routes none (r', os') := by
  unfold stop at hrun
  by_cases hthread : r.pThread = true
  · rw [if_pos hthread] at hrun
    obtain ⟨⟨r₂, os₂⟩, hjoin, heq⟩ := Option.map_eq_some_iff.mp hrun
    obtain ⟨r₁, h₁, hjoin⟩ := Option.bind_eq_some_iff.mp hjoin
    obtain ⟨r₂', h₂, hpair⟩ := Option.map_eq_some_iff.mp hjoin
    obtain ⟨rfl, rfl⟩ := Prod.mk.inj hpair
    have hhandles₁ := recvLoop_handles h₁
    have hhandles := (reportStats_handles h₂).trans hhandles₁
    obtain ⟨hsockets, hroutes, hadded⟩ := h.running hthread
    replace hbal : StopBalanced calls added r os.routes := hbal.resolve_left (by simp [hthread])
    -- the socket closed is the one held, the route deleted the one that was added
    have hclose : os.close r₁.fd = { os with sockets := [] } := by
      rw [show r₁.fd = r.fd from congrArg Prod.fst hhandles₁, Os.close, hsockets,
        List.erase_cons_head]
    have hdel : deletedBy calls r₂' = deletedBy calls r := by
      unfold deletedBy
      rw [show r₂'.multicastIp = r.multicastIp from congrArg (·.2.2.2) hhandles,
        show r₂'.localIp = r.localIp from congrArg (·.2.2.1) hhandles]
    have hafter : (deletedBy calls r₂').elim os.routes os.routes.erase = routes := by
      replace hroutes : os.routes = added.elim routes (insert · routes) := hroutes
      rw [hdel, hroutes]
      rw [hroutes] at hbal
      exact hbal.erase hadded
    have hos := congrArg (·.2.2) heq
    have hr := congrArg (·.2.1) heq
    simp only at hos hr
    rw [delRoute_deletedBy (r := { r₂' with pThread := false }) hs hp, hclose] at hos
    rw [← hos, ← hr]
    exact Held.of_idle rfl rfl hafter
  · rw [if_neg hthread] at hrun
    obtain ⟨-, hpair⟩ := Prod.mk.inj (Option.some.inj hrun)
    rw [← hpair]
    obtain ⟨hsockets, hroutes⟩ := h.idle (Bool.eq_false_of_not_eq_true hthread)
    exact Held.of_idle (Bool.eq_false_of_not_eq_true hthread) hsockets hroutes

/-- **No resource is kept or lost.** In every run of `start` and `stop` calls that are
balanced, whenever there is no receive thread no socket is open, and the routes are
those of the beginning. -/
theorem run_balanced {calls : List Call} {s s' : L2Recver × Os}
    (hidle : s.1.pThread = false) (hsockets : s.2.sockets = [])
    (hdel : ∀ c ∈ calls, c.DeletionSucceeds) (hbal : RunBalanced calls none s)
    (hrun : run calls s = some s') (hidle' : s'.1.pThread = false) :
    s'.2.sockets = [] ∧ s'.2.routes = s.2.routes := by
  have hstart : Held s.2.routes none s := Held.of_idle hidle hsockets rfl
  generalize s.2.routes = routes at hstart ⊢
  -- the invariant holds of every state, with the routes of the beginning
  suffices h : ∃ added, Held routes added s' from h.elim fun _ h => h.idle hidle'
  clear hidle hsockets
  generalize (none : Option (UInt32 × Bytes)) = added at hbal hstart
  induction calls generalizing s added with
  | nil =>
    obtain rfl := Option.some.inj hrun
    exact ⟨added, hstart⟩
  | cons c calls ih =>
    obtain ⟨s₁, h₁, hrun⟩ := Option.bind_eq_some_iff.mp hrun
    refine ih (fun c hc => hdel c (List.mem_cons_of_mem _ hc)) hrun _ (hbal.2 s₁ h₁) ?_
    cases c with
    | start args calls =>
      obtain rfl := Option.some.inj h₁
      exact start_held hbal.1 hstart
    | stop calls polls nowMs =>
      obtain ⟨hs, hp⟩ := hdel _ List.mem_cons_self
      obtain ⟨⟨ok, r', os'⟩, hstop, rfl⟩ := Option.map_eq_some_iff.mp h₁
      exact stop_held hs hp hbal.1 hstop hstart

/-! ## A run in balance, and one that is not -/

/-- A `start` on a multicast group, by way of a local address. -/
def startGroup (calls : StartCalls) : Call :=
  .start ⟨lit "224.60.33.83", lit "192.168.11.222", 9000, false⟩ calls

/-- The end of a session in which two records have come. -/
def stopGroup : Call := .stop StartCalls.granted.route [subscribing, delivering] 700

/-- A session on a multicast group: it has a socket and a route, and gives back both. -/
theorem run_balanced_eth0 : ∃ s s',
    run [startGroup .granted] (.fresh, ⟨[], ∅⟩) = some s ∧
      s.2.sockets = [3] ∧ s.2.routes = {(0x53213CE0, lit "eth0")} ∧
    run [startGroup .granted, stopGroup] (.fresh, ⟨[], ∅⟩) = some s' ∧
      s'.2.sockets = [] ∧ s'.2.routes = ∅ := by
  have hopen : started = (true, started.2.1, started.2.2) := Prod.ext (by decide +kernel) rfl
  have hq : started.2.1.live.q.Healthy := by
    rw [(start_eq_true hopen).2.1]
    exact ⟨le_rfl, fun _ => rfl⟩
  have hserved : ∀ poll ∈ [subscribing, delivering], poll.Served := by
    intro poll hpoll
    rcases List.mem_pair.mp hpoll with rfl | rfl
    · exact fun _ => ⟨List.cons_ne_nil _ _, List.all_eq_true.mp rfl⟩
    · exact fun h => absurd rfl h
  obtain ⟨r', os', hstop, hidle⟩ :=
    stop_isSome StartCalls.granted.route 700 started.2.2 hserved hq
  have hrun : run [startGroup .granted, stopGroup] (.fresh, ⟨[], ∅⟩) = some (r', os') := by
    have hstart : (startGroup .granted).step (.fresh, ⟨[], ∅⟩) = some started.2 := rfl
    rw [run, hstart, Option.bind_some, run, stopGroup, Call.step, hstop]
    rfl
  have hbal : RunBalanced [startGroup .granted, stopGroup] none (.fresh, ⟨[], ∅⟩) := by
    refine ⟨Or.inr fun _ => Or.inr ⟨rfl, Or.inr (by decide +kernel)⟩, fun s hs => ?_⟩
    obtain rfl := Option.some.inj hs
    have hadded : (startGroup .granted).added none (.fresh, ⟨[], ∅⟩)
        = some (0x53213CE0, lit "eth0") := by
      decide +kernel
    rw [hadded]
    have hdeleted : deletedBy StartCalls.granted.route started.2.1
        = some (0x53213CE0, lit "eth0") := by
      decide +kernel
    exact ⟨Or.inr hdeleted, fun _ _ => trivial⟩
  refine ⟨started.2, (r', os'), rfl, by decide +kernel, by decide +kernel, hrun,
    run_balanced (s := (.fresh, ⟨[], ∅⟩)) rfl rfl ?_ hbal hrun hidle⟩
  intro c hc
  rcases List.mem_pair.mp hc with rfl | rfl
  · exact trivial
  · exact ⟨rfl, rfl⟩

/-- A `start` on `224.60.33.83` by way of an address no NIC has: the socket is bound, the
route cannot be added, and `start` returns with the socket open and no thread to close it. -/
theorem start_leaks_socket : ¬ ∀ (calls : List Call) (s s' : L2Recver × Os),
    s.1.pThread = false → s.2.sockets = [] → (∀ c ∈ calls, c.DeletionSucceeds) →
      run calls s = some s' → s'.1.pThread = false →
        s'.2.sockets = [] ∧ s'.2.routes = s.2.routes := by
  intro hall
  let calls : StartCalls := { StartCalls.granted with route := ⟨⟨some 5, some []⟩, some 4, true⟩ }
  have hdel : ∀ c ∈ [startGroup calls], c.DeletionSucceeds := by
    intro c hc
    rw [List.mem_singleton.mp hc]
    exact trivial
  have hleft := hall [startGroup calls] (.fresh, ⟨[], ∅⟩) _ rfl rfl hdel rfl (by decide +kernel)
  exact absurd hleft.1 (by decide +kernel)

end S4LibLite.Network
