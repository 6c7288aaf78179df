import S4LibLite.Network.Adapters

/-!
# Sockets and routes (`sockutil.cpp`)

The part of `SockUtil` the receiver goes through on Linux.
-/

namespace S4LibLite.Network

/-- What the kernel answers to a change of the routing table: the list of adapters, the descriptor
for the `ioctl`, and whether the change is permitted. -/
structure RouteCalls where
  nics : AdapterCalls
  socket : Option ℕ
  permitted : Bool

/-- What the kernel answers to the calls of one `start`, by what they ask for. -/
structure StartCalls where
  /-- `socket`, by UDP-lite or not. -/
  socket : Bool → Option ℕ
  /-- `bindSock`, by local address and port. -/
  bind : Bytes → UInt16 → Bool
  route : RouteCalls
  /-- `setsockopt(IP_ADD_MEMBERSHIP)`, by group and interface. -/
  join : UInt32 → UInt32 → Bool

/-- `INADDR_ANY`. -/
def inaddrAny : UInt32 := 0

/-- `isMulticastAddress`. -/
def isMulticastAddress (ip : Bytes) : Bool :=
  let addressInNetworkOrder := htonl (inetAddr ip)
  0xE00000FF < addressInNetworkOrder && addressInNetworkOrder ≤ 0xEFFFFFFF

/-- `bindUdpSock`: the descriptor is closed again when it cannot be bound. -/
def bindUdpSock (calls : StartCalls) (port : UInt16) (localIp : Bytes) (udpLite : Bool)
    (os : Os) : ℤ × Os :=
  let (sockfd, os) := os.socket (calls.socket udpLite)
  if sockfd = -1 then (-1, os)
  else if calls.bind localIp port = false then (-1, os.close sockfd)
  else (sockfd, os)

/-- `editRouteViaNIC`: a route that is there already counts as added. -/
def editRouteViaNIC (calls : RouteCalls) (strAddr ifrName : Bytes) (add : Bool) (os : Os) :
    ℤ × Os :=
  let (fd, os) := os.socket calls.socket
  if fd < 0 then (-1, os)
  else
    let route := (inetAddr strAddr, ifrName)
    let (rc, os) :=
      if add then os.siocAddRt calls.permitted route else os.siocDelRt calls.permitted route
    -- the descriptor of the `ioctl` is closed on every path
    let os := os.close fd
    if rc ≠ none ∧ rc ≠ some .eexist then (-1, os) else (0, os)

/-- `addRouteViaIP` and `delRouteViaIP`: without a local address there is nothing to do, and else
the NIC is looked up by it, in each call anew. -/
def editRouteViaIP (calls : RouteCalls) (strAddr strLocalIp : Bytes) (add : Bool) (os : Os) :
    ℤ × Os :=
  if inetAddr strLocalIp = inaddrAny then (0, os)
  else
    let (nicName, os) := getIfrName calls.nics strLocalIp os
    if nicName = [] then (-1, os)
    else editRouteViaNIC calls strAddr nicName add os

/-- `addRouteViaIP`. -/
def addRouteViaIP (calls : RouteCalls) (strAddr strLocalIp : Bytes) (os : Os) : ℤ × Os :=
  editRouteViaIP calls strAddr strLocalIp true os

/-- `delRouteViaIP`. -/
def delRouteViaIP (calls : RouteCalls) (strAddr strLocalIp : Bytes) (os : Os) : ℤ × Os :=
  editRouteViaIP calls strAddr strLocalIp false os

/-- `joinMultiAddr`, on the interface `0.0.0.0`. -/
def joinMultiAddr (calls : StartCalls) (strAddr strLocalIp : Bytes) : ℤ :=
  if calls.join (inetAddr strAddr) (inetAddr strLocalIp) then 0 else -1

end S4LibLite.Network
