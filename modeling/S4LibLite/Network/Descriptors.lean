import S4LibLite.Network.DnsCache
import S4LibLite.Network.SockUtil

/-!
# Who has which descriptor (`sockutil.cpp`)

Every function of `SockUtil` that talks to the kernel opens a descriptor for it. Three of them hand
theirs to the caller when all goes well; all others, and those three when something fails, have to
close it again, on every path.

* `connect` and `listen`, with `bindUdpSock` the functions that hand out a descriptor;
* `SockCall`, any of the functions, and the caller's own `close`;
* `run_sockets`, after any sequence of calls the descriptors that are open are those the caller has
  and those that were open before.
-/

namespace S4LibLite.Network

/-- `uv_translate_posix_error`, with the numbers of Linux: `ENOBUFS`, `EINPROGRESS` and
`EWOULDBLOCK` count as `EAGAIN`. -/
def uvTranslatePosixError (err : ℤ) : ℤ :=
  if err ≤ 0 then err else if err = 105 ∨ err = 115 ∨ err = 11 then -11 else -err

/-- `UV_EAGAIN`. -/
def uvEagain : ℤ := -11

/-- What the system answers to one `connect`: the cache of host names, `socket` for the family of
the address, `bind`, and `connect`, with the `errno` of a failure. -/
structure ConnectCalls where
  domainIP : Bytes → Option Dns.Sockaddr
  socket : UInt16 → Option ℕ
  bind : Bytes → UInt16 → Bool
  connect : Dns.Sockaddr → Option ℤ

/-- `SockUtil::connect`. -/
def connect (calls : ConnectCalls) (host : Bytes) (port : UInt16) (bAsync : Bool)
    (localIp : Bytes) (localPort : UInt16) (os : Os) : ℤ × Os :=
  match calls.domainIP host with
  | none => (-1, os)
  | some addr =>
    let (sockfd, os) := os.socket (calls.socket addr.saFamily)
    if sockfd < 0 then (-1, os)
    else if calls.bind localIp localPort = false then (-1, os.close sockfd)
    else
      match calls.connect (addr.withPort port) with
      | none => (sockfd, os)
      | some err =>
        if bAsync ∧ uvTranslatePosixError err = uvEagain then (sockfd, os)
        else (-1, os.close sockfd)

/-- What the kernel answers to one `listen`. -/
structure ListenCalls where
  socket : Option ℕ
  bind : Bytes → UInt16 → Bool
  listen : ℤ → Bool

/-- `SockUtil::listen`. -/
def listen (calls : ListenCalls) (port : UInt16) (localIp : Bytes) (backLog : ℤ) (os : Os) :
    ℤ × Os :=
  let (sockfd, os) := os.socket calls.socket
  if sockfd = -1 then (-1, os)
  else if calls.bind localIp port = false then (-1, os.close sockfd)
  else if calls.listen backLog = false then (-1, os.close sockfd)
  else (sockfd, os)

/-! ## Calls -/

/-- A call of one of the functions, with all that the system answers meanwhile, or the caller's
`close` of a descriptor. -/
inductive SockCall
  | connect (calls : ConnectCalls) (host : Bytes) (port : UInt16) (bAsync : Bool)
    (localIp : Bytes) (localPort : UInt16)
  | listen (calls : ListenCalls) (port : UInt16) (localIp : Bytes) (backLog : ℤ)
  | bindUdpSock (calls : StartCalls) (port : UInt16) (localIp : Bytes) (udpLite : Bool)
  | editRouteViaIP (calls : RouteCalls) (strAddr strLocalIp : Bytes) (add : Bool)
  | getLocalIp (calls : AdapterCalls)
  | getInterfaceList (calls : AdapterCalls)
  | getIfrIp (calls : AdapterCalls) (ifrName : Bytes)
  | getIfrName (calls : AdapterCalls) (localIp : Bytes)
  | getIfrMask (calls : IfrCalls) (ifrName : Bytes)
  | getIfrBrdaddr (calls : IfrCalls) (ifrName : Bytes)
  | inSameLan (list : AdapterCalls) (ask : IfrCalls) (myIp dstIp : Bytes)
  | listNIC (calls : ListCalls) (nics : List NicDescription)
  | close (fd : ℤ)

/-- The caller keeps a descriptor it is handed. -/
def keep (held : List ℤ) (r : ℤ × Os) : Option (List ℤ × Os) :=
  some (if r.1 = -1 then held else r.1 :: held, r.2)

/-- A call, with the descriptors the caller has; it closes only one of those. -/
def SockCall.step : SockCall → List ℤ × Os → Option (List ℤ × Os)
  | .connect calls host port bAsync localIp localPort, (held, os) =>
    keep held (Network.connect calls host port bAsync localIp localPort os)
  | .listen calls port localIp backLog, (held, os) =>
    keep held (Network.listen calls port localIp backLog os)
  | .bindUdpSock calls port localIp udpLite, (held, os) =>
    keep held (Network.bindUdpSock calls port localIp udpLite os)
  | .editRouteViaIP calls strAddr strLocalIp add, (held, os) =>
    some (held, (Network.editRouteViaIP calls strAddr strLocalIp add os).2)
  | .getLocalIp calls, (held, os) => some (held, (Network.getLocalIp calls os).2)
  | .getInterfaceList calls, (held, os) => some (held, (Network.getInterfaceList calls os).2)
  | .getIfrIp calls ifrName, (held, os) => some (held, (Network.getIfrIp calls ifrName os).2)
  | .getIfrName calls localIp, (held, os) => some (held, (Network.getIfrName calls localIp os).2)
  | .getIfrMask calls ifrName, (held, os) => some (held, (Network.getIfrMask calls ifrName os).2)
  | .getIfrBrdaddr calls ifrName, (held, os) =>
    some (held, (Network.getIfrBrdaddr calls ifrName os).2)
  | .inSameLan list ask myIp dstIp, (held, os) =>
    some (held, (Network.inSameLan list ask myIp dstIp os).2)
  | .listNIC calls nics, (held, os) => some (held, (Network.listNIC calls nics os).2)
  | .close fd, (held, os) => if fd ∈ held then some (held.erase fd, os.close fd) else none

/-- A sequence of calls. -/
def runCalls : List SockCall → List ℤ × Os → Option (List ℤ × Os)
  | [], s => some s
  | call :: calls, s => (call.step s).bind (runCalls calls)

/-! ## What the functions hand out -/

/-- What a function may do to the descriptors: hand out a new one, or leave all as it was. -/
def HandsOut (os : Os) (r : ℤ × Os) : Prop :=
  (r.1 = -1 ∧ r.2.sockets = os.sockets) ∨ ∃ fd : ℕ, r.1 = fd ∧ r.2.sockets = r.1 :: os.sockets

/-- `connect` hands out one descriptor or none. -/
theorem connect_handsOut (calls : ConnectCalls) (host : Bytes) (port : UInt16) (bAsync : Bool)
    (localIp : Bytes) (localPort : UInt16) (os : Os) :
    HandsOut os (connect calls host port bAsync localIp localPort os) := by
  rw [connect]
  cases calls.domainIP host with
  | none => exact Or.inl ⟨rfl, rfl⟩
  | some addr =>
    dsimp only
    rcases os.sockets_socket (calls.socket addr.saFamily) with ⟨hfd, hos⟩ | ⟨fd, hfd, hopen, hclose⟩
    · rw [hfd, hos, if_pos (by decide)]
      exact Or.inl ⟨rfl, rfl⟩
    · have hkept : HandsOut os ((fd : ℤ), (os.socket (calls.socket addr.saFamily)).2) :=
        Or.inr ⟨fd, rfl, hopen⟩
      rw [hfd, if_neg (by omega), hclose]
      split
      · exact Or.inl ⟨rfl, rfl⟩
      · cases calls.connect (addr.withPort port) with
        | none => exact hkept
        | some err =>
          dsimp only
          split
          · exact hkept
          · exact Or.inl ⟨rfl, rfl⟩

/-- So does `listen`. -/
theorem listen_handsOut (calls : ListenCalls) (port : UInt16) (localIp : Bytes) (backLog : ℤ)
    (os : Os) : HandsOut os (listen calls port localIp backLog os) := by
  rw [listen]
  dsimp only
  rcases os.sockets_socket calls.socket with ⟨hfd, hos⟩ | ⟨fd, hfd, hopen, hclose⟩
  · rw [hfd, hos, if_pos rfl]
    exact Or.inl ⟨rfl, rfl⟩
  · rw [hfd, if_neg (by omega), hclose]
    split
    · exact Or.inl ⟨rfl, rfl⟩
    · split
      · exact Or.inl ⟨rfl, rfl⟩
      · exact Or.inr ⟨fd, rfl, hopen⟩

/-- And `bindUdpSock`. -/
theorem bindUdpSock_handsOut (calls : StartCalls) (port : UInt16) (localIp : Bytes)
    (udpLite : Bool) (os : Os) : HandsOut os (bindUdpSock calls port localIp udpLite os) := by
  rw [bindUdpSock]
  dsimp only
  rcases os.sockets_socket (calls.socket udpLite) with ⟨hfd, hos⟩ | ⟨fd, hfd, hopen, hclose⟩
  · rw [hfd, hos, if_pos rfl]
    exact Or.inl ⟨rfl, rfl⟩
  · rw [hfd, if_neg (by omega), hclose]
    split
    · exact Or.inl ⟨rfl, rfl⟩
    · exact Or.inr ⟨fd, rfl, hopen⟩

/-- A change of the routing table closes its descriptor on every path. -/
theorem sockets_editRouteViaNIC (calls : RouteCalls) (strAddr ifrName : Bytes) (add : Bool)
    (os : Os) : (editRouteViaNIC calls strAddr ifrName add os).2.sockets = os.sockets := by
  rw [editRouteViaNIC]
  dsimp only
  rcases os.sockets_socket calls.socket with ⟨hfd, hos⟩ | ⟨fd, hfd, hopen, -⟩
  · rw [hfd, hos, if_pos (by decide)]
  · have hclosed : ∀ os' : Os, os'.sockets = (os.socket calls.socket).2.sockets →
        (os'.close fd).sockets = os.sockets := by
      intro os' h
      rw [Os.close, h, hopen, List.erase_cons_head]
    rw [hfd, if_neg (by omega)]
    cases add with
    | true =>
      rw [if_pos rfl]
      split <;> exact hclosed _ (Os.sockets_siocAddRt _ _ _)
    | false =>
      rw [if_neg Bool.false_ne_true]
      split <;> exact hclosed _ (Os.sockets_siocDelRt _ _ _)

/-- A route call closes what it opens. -/
theorem sockets_editRouteViaIP (calls : RouteCalls) (strAddr strLocalIp : Bytes) (add : Bool)
    (os : Os) : (editRouteViaIP calls strAddr strLocalIp add os).2.sockets = os.sockets := by
  rw [editRouteViaIP, getIfrName_nicOf]
  split
  · rfl
  · dsimp only
    split
    · rfl
    · exact sockets_editRouteViaNIC ..

/-- `listNIC` closes what it has opened; where it has opened nothing, it closes `-1`. -/
theorem sockets_listNIC (calls : ListCalls) (nics : List NicDescription) {os : Os}
    (h : -1 ∉ os.sockets) : (listNIC calls nics os).2.sockets = os.sockets := by
  rw [listNIC]
  dsimp only
  rcases os.sockets_socket calls.raw with ⟨hfd, hos⟩ | ⟨fd, hfd, -, hclose⟩
  · rw [hfd, hos, if_pos (by decide)]
    rcases os.sockets_socket calls.dgram with ⟨hfd, hos⟩ | ⟨fd, hfd, -, hclose⟩
    · rw [hfd, hos, if_pos (by decide), Os.close]
      exact List.erase_of_not_mem h
    · rw [hfd, if_neg (by omega), hclose]
      cases calls.conf <;> rfl
  · rw [hfd, if_neg (by omega), hclose]
    cases calls.conf <;> rfl

/-! ## Sequences of calls -/

/-- The descriptors that are open are those of the caller and those of others. -/
structure Accounted (others : List ℤ) (s : List ℤ × Os) : Prop where
  sockets_eq : s.2.sockets = s.1 ++ others
  held_nonneg : ∀ fd ∈ s.1, 0 ≤ fd

/-- A descriptor that is handed out goes to the caller. -/
theorem Accounted.keep {others held : List ℤ} {os : Os} (h : Accounted others (held, os))
    {r : ℤ × Os} (hr : HandsOut os r) {s' : List ℤ × Os} (hs' : keep held r = some s') :
    Accounted others s' := by
  obtain rfl := Option.some.inj hs'
  rcases hr with ⟨hfd, hsockets⟩ | ⟨fd, hfd, hsockets⟩
  · rw [if_pos hfd]
    exact ⟨hsockets.trans h.sockets_eq, h.held_nonneg⟩
  · rw [if_neg (by omega)]
    refine ⟨hsockets.trans (congrArg (r.1 :: ·) h.sockets_eq), fun x hx => ?_⟩
    rcases List.mem_cons.mp hx with rfl | hx
    · omega
    · exact h.held_nonneg x hx

theorem Accounted.same {others held : List ℤ} {os os' : Os} (h : Accounted others (held, os))
    (hos : os'.sockets = os.sockets) : Accounted others (held, os') :=
  ⟨hos.trans h.sockets_eq, h.held_nonneg⟩

/-- One call keeps the account. -/
theorem Accounted.step {others : List ℤ} (hothers : -1 ∉ others) {s s' : List ℤ × Os}
    (h : Accounted others s) {call : SockCall} (hs' : call.step s = some s') :
    Accounted others s' := by
  obtain ⟨held, os⟩ := s
  have hsockets : os.sockets = held ++ others := h.sockets_eq
  cases call with
  | connect calls host port bAsync localIp localPort =>
    exact h.keep (connect_handsOut ..) hs'
  | listen calls port localIp backLog => exact h.keep (listen_handsOut ..) hs'
  | bindUdpSock calls port localIp udpLite => exact h.keep (bindUdpSock_handsOut ..) hs'
  | editRouteViaIP calls strAddr strLocalIp add =>
    obtain rfl := Option.some.inj hs'
    exact h.same (sockets_editRouteViaIP ..)
  | getLocalIp calls =>
    obtain rfl := Option.some.inj hs'
    exact h.same (by rw [Network.getLocalIp, forEachNetAdapterPosix_eq])
  | getInterfaceList calls =>
    obtain rfl := Option.some.inj hs'
    exact h.same (by rw [Network.getInterfaceList, forEachNetAdapterPosix_eq])
  | getIfrIp calls ifrName =>
    obtain rfl := Option.some.inj hs'
    exact h.same (by rw [Network.getIfrIp, forEachNetAdapterPosix_eq])
  | getIfrName calls localIp =>
    obtain rfl := Option.some.inj hs'
    exact h.same (by rw [getIfrName_nicOf])
  | getIfrMask calls ifrName =>
    obtain rfl := Option.some.inj hs'
    exact h.same (by rw [Network.getIfrMask, askByName_eq])
  | getIfrBrdaddr calls ifrName =>
    obtain rfl := Option.some.inj hs'
    exact h.same (by rw [Network.getIfrBrdaddr, askByName_eq])
  | inSameLan list ask myIp dstIp =>
    obtain rfl := Option.some.inj hs'
    refine h.same ?_
    rw [Network.inSameLan]
    dsimp only
    rw [getIfrMask, askByName_eq, getIfrName_nicOf]
  | listNIC calls nics =>
    obtain rfl := Option.some.inj hs'
    refine h.same (sockets_listNIC calls nics ?_)
    rw [hsockets, List.mem_append, not_or]
    exact ⟨fun hheld => absurd (h.held_nonneg _ hheld) (by decide), hothers⟩
  | close fd =>
    rw [SockCall.step] at hs'
    split at hs'
    · rename_i hfd
      obtain rfl := Option.some.inj hs'
      refine ⟨?_, fun x hx => h.held_nonneg x (List.mem_of_mem_erase hx)⟩
      rw [Os.close]
      dsimp only
      rw [hsockets, List.erase_append_left _ hfd]
    · exact absurd hs' (by simp)

/-- **No descriptor is lost.** After any sequence of calls, whatever fails in them, the descriptors
that are open are those the caller was handed and has not closed, and those that were open
before. -/
theorem run_sockets {calls : List SockCall} {os : Os} (hos : -1 ∉ os.sockets)
    {held : List ℤ} {os' : Os} (h : runCalls calls ([], os) = some (held, os')) :
    os'.sockets = held ++ os.sockets := by
  have hrun : ∀ (calls : List SockCall) (s s' : List ℤ × Os), Accounted os.sockets s →
      runCalls calls s = some s' → Accounted os.sockets s' := by
    intro calls
    induction calls with
    | nil => exact fun s s' hs hs' => Option.some.inj hs' ▸ hs
    | cons call calls ih =>
      intro s s' hs hs'
      obtain ⟨s₁, hstep, hrest⟩ := Option.bind_eq_some_iff.mp hs'
      exact ih s₁ s' (hs.step hos hstep) hrest
  exact (hrun calls _ _ ⟨rfl, fun fd hfd => absurd hfd List.not_mem_nil⟩ h).sockets_eq

/-- A listener, a connection that fails, a list of adapters that cannot be had, and the listener is
closed. -/
def failingCalls : List SockCall :=
  [.listen ⟨some 5, fun _ _ => true, fun _ => true⟩ 80 (lit "0.0.0.0") 1024,
    .connect ⟨fun _ => some ⟨2, []⟩, fun _ => some 6, fun _ _ => true, fun _ => some 111⟩
      (lit "localhost") 81 true (lit "0.0.0.0") 0,
    .connect ⟨fun _ => some ⟨2, []⟩, fun _ => some 7, fun _ _ => true, fun _ => some 115⟩
      (lit "localhost") 82 true (lit "0.0.0.0") 0,
    .listNIC ⟨none, none, none⟩ [], .getLocalIp ⟨some 9, none⟩, .close 5]

theorem run_sockets_failing : ∃ os', runCalls failingCalls ([], ⟨[0, 1, 2], ∅⟩) = some ([7], os')
    ∧ os'.sockets = [7] ++ [0, 1, 2] :=
  ⟨_, rfl, @run_sockets failingCalls ⟨[0, 1, 2], ∅⟩ (by decide) [7] _ rfl⟩

end S4LibLite.Network
