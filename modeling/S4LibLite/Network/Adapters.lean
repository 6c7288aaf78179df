import S4LibLite.Network.Inet
import S4LibLite.Network.Os

/-!
# Network adapters (`sockutil.cpp`)

What `SockUtil` finds out about the adapters of a host on Linux: it walks over the list the kernel
gives, or asks for one of them by name, through a descriptor of its own that is closed again.

* `getLocalIp_eq`, which address of a host `get_local_ip` chooses;
* `inSameLan_iff`, when two addresses are in one network;
* `getIfrIp_getIfrName`, from an address to the adapter and back.
-/

namespace S4LibLite.Network

/-- `ifreq`: `ifr_name`, and the address in `ifr_addr`. -/
structure Adapter where
  name : Bytes
  addr : UInt32
deriving DecidableEq

/-- What the kernel answers while the adapters are listed: the descriptor, and `SIOCGIFCONF`. -/
structure AdapterCalls where
  socket : Option ℕ
  conf : Option (List Adapter)

/-- What the kernel answers while an adapter is asked for by name: the descriptor, and the
`ioctl`. -/
structure IfrCalls where
  socket : Option ℕ
  ioctl : Bytes → Option UInt32

section

variable {α : Type*}

/-- The loop of `for_each_netAdapter_posix`, with what `fun` returns and leaves behind. -/
def visit (f : Adapter → α → Bool × α) : List Adapter → α → α
  | [], x => x
  | adapter :: adapters, x =>
    let r := f adapter x
    if r.1 then r.2 else visit f adapters r.2

/-- `for_each_netAdapter_posix`. -/
def forEachNetAdapterPosix (calls : AdapterCalls) (f : Adapter → α → Bool × α) (x : α) (os : Os) :
    α × Os :=
  let (sockfd, os) := os.socket calls.socket
  if sockfd < 0 then (x, os)
  else
    match calls.conf with
    | none => (x, os.close sockfd)
    | some adapters => (visit f adapters x, os.close sockfd)

end

/-- `check_ip`, what it returns and what is in `address` afterwards. -/
def checkIp (ip address : Bytes) : Bool × Bytes :=
  if ip ≠ lit "127.0.0.1" ∧ ip ≠ lit "0.0.0.0" then
    let addressInNetworkOrder := htonl (inetAddr ip)
    ((0xAC100000 ≤ addressInNetworkOrder && addressInNetworkOrder < 0xAC200000)
      || (0xC0A80000 ≤ addressInNetworkOrder && addressInNetworkOrder < 0xC0A90000), ip)
  else (false, address)

/-- `get_local_ip`. -/
def getLocalIp (calls : AdapterCalls) (os : Os) : Bytes × Os :=
  forEachNetAdapterPosix calls (fun adapter => checkIp (inetNtoa adapter.addr)) (lit "127.0.0.1") os

/-- `getInterfaceList`: the ip and the name of each adapter. -/
def getInterfaceList (calls : AdapterCalls) (os : Os) : List (Bytes × Bytes) × Os :=
  forEachNetAdapterPosix calls
    (fun adapter ret => (false, ret ++ [(inetNtoa adapter.addr, adapter.name)])) [] os

/-- `get_ifr_ip`. -/
def getIfrIp (calls : AdapterCalls) (ifrName : Bytes) (os : Os) : Bytes × Os :=
  forEachNetAdapterPosix calls
    (fun adapter ret => if adapter.name = ifrName then (true, inetNtoa adapter.addr)
      else (false, ret)) [] os

/-- `get_ifr_name`. -/
def getIfrName (calls : AdapterCalls) (localIp : Bytes) (os : Os) : Bytes × Os :=
  forEachNetAdapterPosix calls
    (fun adapter ret => if inetNtoa adapter.addr = localIp then (true, adapter.name)
      else (false, ret)) [] os

/-- An `ioctl` for the adapter of a name, of which fifteen characters count. -/
def askByName (calls : IfrCalls) (ifrName : Bytes) (os : Os) : Bytes × Os :=
  let (sockFd, os) := os.socket calls.socket
  if sockFd = -1 then ([], os)
  else
    match calls.ioctl (ifrName.take 15) with
    | none => ([], os.close sockFd)
    | some addr => (inetNtoa addr, os.close sockFd)

/-- `get_ifr_mask`, by `SIOCGIFNETMASK`. -/
def getIfrMask (calls : IfrCalls) (ifrName : Bytes) (os : Os) : Bytes × Os :=
  askByName calls ifrName os

/-- `get_ifr_brdaddr`, by `SIOCGIFBRDADDR`. -/
def getIfrBrdaddr (calls : IfrCalls) (ifrName : Bytes) (os : Os) : Bytes × Os :=
  askByName calls ifrName os

/-- `ip_addr_netcmp`. -/
def ipAddrNetcmp (addr1 addr2 mask : UInt32) : Bool := addr1 &&& mask == addr2 &&& mask

/-- `in_same_lan`. -/
def inSameLan (list : AdapterCalls) (ask : IfrCalls) (myIp dstIp : Bytes) (os : Os) : Bool × Os :=
  let (name, os) := getIfrName list myIp os
  let (mask, os) := getIfrMask ask name os
  (ipAddrNetcmp (inetAddr myIp) (inetAddr dstIp) (inetAddr mask), os)

/-! ## The list of adapters -/

/-- `nic_description_t`. -/
structure NicDescription where
  nicName : Bytes
  localIp : Bytes
  nicMac : Bytes
  isEth : Bool
  isUp : Bool
deriving DecidableEq

/-- What the kernel tells of an adapter in the list: `SIOCGIFFLAGS` (its `IFF_UP`),
`SIOCGIFHWADDR` (six bytes) and `SIOCGIFADDR`. -/
structure IfReq where
  name : Bytes
  flags : Option Bool
  hwaddr : Option (Fin 6 → UInt8)
  addr : Option UInt32

/-- What the kernel answers to `listNIC`: the raw descriptor, the one instead of it, the list. -/
structure ListCalls where
  raw : Option ℕ
  dgram : Option ℕ
  conf : Option (List IfReq)

/-- `%02X`. -/
def fmtX2 (b : UInt8) : Bytes :=
  (Numeral.padded 16 2 b.toNat).map fun d => if d < 10 then UInt8.ofNat (48 + d)
    else UInt8.ofNat (55 + d)

/-- "%02X:%02X:%02X:%02X:%02X:%02X". -/
def macText (mac : Fin 6 → UInt8) : Bytes :=
  [58].intercalate ((List.ofFn mac).map fmtX2)

/-- One turn of the loop in `listNIC`: nothing, where a question is not answered. -/
def describe (r : IfReq) : Option NicDescription :=
  let isEth := decide (r.name.length > 2) && r.name[0]? == some 101
    && (r.name[1]? == some 110 || r.name[1]? == some 116)
  match r.flags with
  | none => none
  | some isUp =>
    match r.hwaddr with
    | none => none
    | some mac =>
      match r.addr with
      | none => none
      | some addr => some ⟨r.name, inetNtoa addr, macText mac, isEth, isUp⟩

/-- The loop in `listNIC`, from the last adapter on; it ends where a question is not answered. -/
def listLoop : List IfReq → List NicDescription → List NicDescription
  | [], nics => nics
  | r :: rs, nics =>
    match describe r with
    | none => nics
    | some nic => listLoop rs (nics ++ [nic])

/-- `listNIC`: the second attempt at a descriptor is closed even when it fails. -/
def listNIC (calls : ListCalls) (nics : List NicDescription) (os : Os) :
    List NicDescription × Os :=
  let (fd, os) := os.socket calls.raw
  if fd < 0 then
    let (fd, os) := os.socket calls.dgram
    if fd < 0 then (nics, os.close fd)
    else
      match calls.conf with
      | none => (nics, os.close fd)
      | some rs => (listLoop rs.reverse nics, os.close fd)
  else
    match calls.conf with
    | none => (nics, os.close fd)
    | some rs => (listLoop rs.reverse nics, os.close fd)

/-! ## Descriptors -/

/-- The adapters the kernel lists, if it does. -/
def AdapterCalls.listed (calls : AdapterCalls) : List Adapter :=
  if calls.socket.isSome then calls.conf.getD [] else []

/-- The adapters are visited, and the socket is closed again. -/
theorem forEachNetAdapterPosix_eq {α : Type*} (calls : AdapterCalls) (f : Adapter → α → Bool × α)
    (x : α) (os : Os) : forEachNetAdapterPosix calls f x os = (visit f calls.listed x, os) := by
  rw [forEachNetAdapterPosix, AdapterCalls.listed]
  cases calls.socket with
  | none => rfl
  | some fd =>
    have hfd : ¬ ((os.socket (some fd)).1 < 0) := by
      rw [Os.socket]
      dsimp only
      omega
    have hclose : (os.socket (some fd)).2.close (os.socket (some fd)).1 = os := os.close_socket fd
    dsimp only
    rw [if_neg hfd, hclose]
    cases calls.conf <;> rfl

/-- The address the kernel answers for a name, if it does. -/
def IfrCalls.answer (calls : IfrCalls) (ifrName : Bytes) : Option UInt32 :=
  if calls.socket.isSome then calls.ioctl (ifrName.take 15) else none

/-- The kernel is asked through a socket that is closed again. -/
theorem askByName_eq (calls : IfrCalls) (ifrName : Bytes) (os : Os) :
    askByName calls ifrName os = (((calls.answer ifrName).map inetNtoa).getD [], os) := by
  rw [askByName, IfrCalls.answer]
  cases calls.socket with
  | none => rfl
  | some fd =>
    have hfd : ¬ ((os.socket (some fd)).1 = -1) := by
      rw [Os.socket]
      dsimp only
      omega
    have hclose : (os.socket (some fd)).2.close (os.socket (some fd)).1 = os := os.close_socket fd
    dsimp only
    rw [if_neg hfd, hclose]
    cases calls.ioctl (ifrName.take 15) <;> rfl

/-! ## The address of the host -/

/-- An address that other hosts can use. -/
def Usable (adapter : Adapter) : Prop := adapter.addr ≠ 0x0100007F ∧ adapter.addr ≠ 0

instance (adapter : Adapter) : Decidable (Usable adapter) := inferInstanceAs (Decidable (_ ∧ _))

/-- An address of `172.16.0.0/12` or `192.168.0.0/16`; `10.0.0.0/8` does not count. -/
def Private (adapter : Adapter) : Prop :=
  byteOf 0 adapter.addr = 172 ∧ 16 ≤ byteOf 1 adapter.addr ∧ byteOf 1 adapter.addr < 32
    ∨ byteOf 0 adapter.addr = 192 ∧ byteOf 1 adapter.addr = 168

instance (adapter : Adapter) : Decidable (Private adapter) := inferInstanceAs (Decidable (_ ∨ _))

theorem Private.usable {adapter : Adapter} (h : Private adapter) : Usable adapter := by
  refine ⟨fun haddr => ?_, fun haddr => ?_⟩
  all_goals
    rw [Private, haddr] at h
    exact absurd h (by decide)

/-- The two ranges, compared as numbers in network order. -/
theorem private_iff (adapter : Adapter) :
    ((0xAC100000 ≤ htonl adapter.addr && htonl adapter.addr < 0xAC200000)
      || (0xC0A80000 ≤ htonl adapter.addr && htonl adapter.addr < 0xC0A90000))
      = decide (Private adapter) := by
  have h0 := byteOf_lt 0 adapter.addr
  have h1 := byteOf_lt 1 adapter.addr
  have h2 := byteOf_lt 2 adapter.addr
  have h3 := byteOf_lt 3 adapter.addr
  rw [Bool.eq_iff_iff, decide_eq_true_eq, Private, Bool.or_eq_true, Bool.and_eq_true,
    Bool.and_eq_true, decide_eq_true_eq, decide_eq_true_eq, decide_eq_true_eq, decide_eq_true_eq,
    UInt32.le_iff_toNat_le, UInt32.lt_iff_toNat_lt, UInt32.le_iff_toNat_le, UInt32.lt_iff_toNat_lt,
    toNat_htonl, show (0xAC100000 : UInt32).toNat = 0xAC100000 from rfl,
    show (0xAC200000 : UInt32).toNat = 0xAC200000 from rfl,
    show (0xC0A80000 : UInt32).toNat = 0xC0A80000 from rfl,
    show (0xC0A90000 : UInt32).toNat = 0xC0A90000 from rfl]
  omega

/-- `check_ip` takes a usable address, and stops at a private one. -/
theorem checkIp_inetNtoa (adapter : Adapter) (address : Bytes) :
    checkIp (inetNtoa adapter.addr) address
      = if Usable adapter then (decide (Private adapter), inetNtoa adapter.addr)
        else (false, address) := by
  have hloopback : inetNtoa adapter.addr ≠ lit "127.0.0.1" ↔ adapter.addr ≠ 0x0100007F := by
    rw [show lit "127.0.0.1" = inetNtoa 0x0100007F by decide +kernel]
    exact not_congr ⟨inetNtoa_inj, fun h => by rw [h]⟩
  have hany : inetNtoa adapter.addr ≠ lit "0.0.0.0" ↔ adapter.addr ≠ 0 := by
    rw [show lit "0.0.0.0" = inetNtoa 0 by decide +kernel]
    exact not_congr ⟨inetNtoa_inj, fun h => by rw [h]⟩
  have husable := and_congr hloopback hany
  rw [checkIp]
  dsimp only
  rw [inetAddr_inetNtoa, private_iff]
  by_cases h : Usable adapter
  · rw [if_pos h, if_pos (husable.mpr h)]
  · rw [if_neg h, if_neg (mt husable.mp h)]

/-- The address a walk over the adapters leaves: a private one ends it, of the others each takes
the place of the last. -/
theorem visit_checkIp (adapters : List Adapter) (address : Bytes) :
    visit (fun adapter => checkIp (inetNtoa adapter.addr)) adapters address
      = match adapters.find? Private with
        | some adapter => inetNtoa adapter.addr
        | none => ((adapters.filter Usable).getLast?.map fun adapter => inetNtoa adapter.addr).getD
            address := by
  induction adapters generalizing address with
  | nil => rfl
  | cons adapter adapters ih =>
    rw [visit, checkIp_inetNtoa]
    by_cases husable : Usable adapter
    · rw [if_pos husable, List.filter_cons,
        if_pos (decide_eq_true husable)]
      by_cases hprivate : Private adapter
      · rw [List.find?_cons_of_pos (by simpa using hprivate)]
        dsimp only
        rw [if_pos (decide_eq_true hprivate)]
      · rw [List.find?_cons_of_neg (by simpa using hprivate)]
        dsimp only
        rw [if_neg (by simpa using hprivate), ih, List.getLast?_cons]
        cases (adapters.filter Usable).getLast? <;> rfl
    · have hunusable : ¬ decide (Usable adapter) = true := by simpa using husable
      rw [if_neg husable, List.filter_cons, if_neg hunusable,
        List.find?_cons_of_neg (by simpa using mt Private.usable husable)]
      dsimp only
      rw [if_neg Bool.false_ne_true, ih]

/-- **The local address** is that of the first adapter in `172.16.0.0/12` or `192.168.0.0/16`, else
the last one that is usable, else the loopback. -/
theorem getLocalIp_eq (calls : AdapterCalls) (os : Os) :
    getLocalIp calls os
      = (match calls.listed.find? Private with
        | some adapter => inetNtoa adapter.addr
        | none => ((calls.listed.filter Usable).getLast?.map
            fun adapter => inetNtoa adapter.addr).getD (lit "127.0.0.1"), os) := by
  rw [getLocalIp, forEachNetAdapterPosix_eq, visit_checkIp]

/-! ## Addresses and names -/

/-- A walk that looks for one adapter. -/
theorem visit_find {α : Type*} (p : Adapter → Prop) [DecidablePred p] (g : Adapter → α)
    (adapters : List Adapter) (x : α) :
    visit (fun adapter ret => if p adapter then (true, g adapter) else (false, ret)) adapters x
      = ((adapters.find? p).map g).getD x := by
  induction adapters with
  | nil => rfl
  | cons adapter adapters ih =>
    rw [visit]
    by_cases hp : p adapter
    · rw [if_pos hp, List.find?_cons_of_pos (by simpa using hp)]
      rfl
    · rw [if_neg hp, List.find?_cons_of_neg (by simpa using hp), ← ih]
      rfl

/-- The address of the first adapter of the name. -/
theorem getIfrIp_eq (calls : AdapterCalls) (ifrName : Bytes) (os : Os) :
    getIfrIp calls ifrName os
      = (((calls.listed.find? fun adapter => adapter.name = ifrName).map
          fun adapter => inetNtoa adapter.addr).getD [], os) := by
  rw [getIfrIp, forEachNetAdapterPosix_eq, visit_find]

/-- The name of the adapter with an address, empty where there is none. -/
def AdapterCalls.nicOf (calls : AdapterCalls) (localIp : Bytes) : Bytes :=
  ((calls.listed.find? fun adapter => inetNtoa adapter.addr = localIp).map Adapter.name).getD []

/-- `get_ifr_name` leaves the sockets as they are. -/
theorem getIfrName_nicOf (calls : AdapterCalls) (localIp : Bytes) (os : Os) :
    getIfrName calls localIp os = (calls.nicOf localIp, os) := by
  rw [getIfrName, forEachNetAdapterPosix_eq, visit_find, AdapterCalls.nicOf]

/-- The name of the first adapter of the address. -/
theorem nicOf_inetNtoa (calls : AdapterCalls) (addr : UInt32) : calls.nicOf (inetNtoa addr)
    = ((calls.listed.find? fun adapter => adapter.addr = addr).map Adapter.name).getD [] := by
  have hsame : (fun adapter : Adapter => decide (inetNtoa adapter.addr = inetNtoa addr))
      = fun adapter => decide (adapter.addr = addr) := by
    funext adapter
    exact decide_eq_decide.mpr ⟨inetNtoa_inj, fun h => by rw [h]⟩
  rw [AdapterCalls.nicOf, hsame]

/-- What one of several different keys finds. -/
theorem find?_of_nodup {β : Type*} [DecidableEq β] {key : Adapter → β} {adapters : List Adapter}
    (hnodup : (adapters.map key).Nodup) {adapter : Adapter} (h : adapter ∈ adapters) :
    adapters.find? (fun a => key a = key adapter) = some adapter := by
  induction adapters with
  | nil => exact absurd h List.not_mem_nil
  | cons first adapters ih =>
    rw [List.map_cons, List.nodup_cons] at hnodup
    rcases List.mem_cons.mp h with rfl | h
    · exact List.find?_cons_of_pos (decide_eq_true rfl)
    · rw [List.find?_cons_of_neg, ih hnodup.2 h]
      intro hfirst
      rw [of_decide_eq_true hfirst] at hnodup
      exact hnodup.1 (List.mem_map_of_mem h)

/-- **From an address to the adapter and back.** Where no two adapters have the same name, the
address of the adapter that has an address is this address; where no two have the same address,
the name of the adapter that has the address of a name is this name. -/
theorem getIfrIp_getIfrName {calls : AdapterCalls} {adapter : Adapter} (h : adapter ∈ calls.listed)
    (os : Os) :
    ((calls.listed.map Adapter.name).Nodup →
        (getIfrIp calls (getIfrName calls (inetNtoa adapter.addr) os).1 os).1
          = inetNtoa adapter.addr)
      ∧ ((calls.listed.map Adapter.addr).Nodup →
        (getIfrName calls (getIfrIp calls adapter.name os).1 os).1 = adapter.name) := by
  constructor
  · intro hnames
    obtain ⟨found, hfound⟩ := Option.isSome_iff_exists.mp
      ((List.find?_isSome (p := fun a : Adapter => a.addr = adapter.addr)).mpr
        ⟨adapter, h, decide_eq_true rfl⟩)
    have haddr : found.addr = adapter.addr := by simpa using List.find?_some hfound
    rw [getIfrName_nicOf, nicOf_inetNtoa, hfound, Option.map_some, Option.getD_some, getIfrIp_eq,
      find?_of_nodup hnames (List.mem_of_find?_eq_some hfound), Option.map_some, Option.getD_some,
      haddr]
  · intro haddrs
    obtain ⟨found, hfound⟩ := Option.isSome_iff_exists.mp
      ((List.find?_isSome (p := fun a : Adapter => a.name = adapter.name)).mpr
        ⟨adapter, h, decide_eq_true rfl⟩)
    have hname : found.name = adapter.name := by simpa using List.find?_some hfound
    rw [getIfrIp_eq, hfound, Option.map_some, Option.getD_some, getIfrName_nicOf, nicOf_inetNtoa,
      find?_of_nodup haddrs (List.mem_of_find?_eq_some hfound), Option.map_some, Option.getD_some,
      hname]

/-- The loopback and one other adapter. -/
def twoAdapters : AdapterCalls :=
  ⟨some 3, some [⟨lit "lo", 0x0100007F⟩, ⟨lit "eth0", 0x0500A8C0⟩]⟩

theorem getIfrIp_getIfrName_eth :
    (getIfrIp twoAdapters (getIfrName twoAdapters (inetNtoa 0x0500A8C0) ⟨[], ∅⟩).1 ⟨[], ∅⟩).1
        = inetNtoa 0x0500A8C0
      ∧ (getIfrName twoAdapters (getIfrIp twoAdapters (lit "eth0") ⟨[], ∅⟩).1 ⟨[], ∅⟩).1
        = lit "eth0" :=
  have h := @getIfrIp_getIfrName twoAdapters ⟨lit "eth0", 0x0500A8C0⟩ (by decide) ⟨[], ∅⟩
  ⟨h.1 (by decide), h.2 (by decide)⟩

/-! ## Networks -/

/-- The mask of an adapter; all bits count where the kernel does not tell it. -/
def maskOf (ask : IfrCalls) (adapter : Adapter) : UInt32 :=
  (ask.answer adapter.name).getD 0xFFFFFFFF

theorem inetAddr_getD (answer : Option UInt32) :
    inetAddr ((answer.map inetNtoa).getD []) = answer.getD 0xFFFFFFFF := by
  cases answer with
  | none => exact inetAddr_nil
  | some addr => exact inetAddr_inetNtoa addr

/-- **In one network** are two addresses that agree where the mask of the first one's adapter has
bits. Without such an adapter the kernel is asked for the mask of the empty name, which it does not
know, and an address is in one network with itself only. -/
theorem inSameLan_iff (list : AdapterCalls) {ask : IfrCalls} (hask : ask.ioctl [] = none)
    (a b : UInt32) (os : Os) :
    (inSameLan list ask (inetNtoa a) (inetNtoa b) os).1 = true
      ↔ match list.listed.find? fun adapter => adapter.addr = a with
        | some adapter => a &&& maskOf ask adapter = b &&& maskOf ask adapter
        | none => a = b := by
  rw [inSameLan, getIfrName_nicOf, nicOf_inetNtoa]
  dsimp only
  rw [getIfrMask, askByName_eq]
  dsimp only
  rw [inetAddr_getD, inetAddr_inetNtoa, inetAddr_inetNtoa, ipAddrNetcmp, beq_iff_eq]
  cases list.listed.find? fun adapter => adapter.addr = a with
  | some adapter => rfl
  | none =>
    have hnone : ask.answer [] = none := by
      rw [IfrCalls.answer, List.take_nil, hask, ite_self]
    rw [Option.map_none, Option.getD_none, hnone, Option.getD_none,
      show (0xFFFFFFFF : UInt32) = -1 from rfl, UInt32.and_neg_one, UInt32.and_neg_one]

/-- The mask `255.255.255.0` on `eth0`. -/
def classC : IfrCalls := ⟨some 4, fun name => if name = lit "eth0" then some 0x00FFFFFF else none⟩

theorem inSameLan_iff_eth :
    (inSameLan twoAdapters classC (inetNtoa 0x0500A8C0) (inetNtoa 0x4D00A8C0) ⟨[], ∅⟩).1 = true
      ∧ ¬ (inSameLan twoAdapters classC (inetNtoa 0x0500A8C0) (inetNtoa 0x0501A8C0) ⟨[], ∅⟩).1
        = true :=
  ⟨(@inSameLan_iff twoAdapters classC rfl 0x0500A8C0 0x4D00A8C0 ⟨[], ∅⟩).mpr rfl,
    mt (@inSameLan_iff twoAdapters classC rfl 0x0500A8C0 0x0501A8C0 ⟨[], ∅⟩).mp
      (show ¬ (0x0500A8C0 : UInt32) &&& 0x00FFFFFF = 0x0501A8C0 &&& 0x00FFFFFF by decide)⟩

end S4LibLite.Network
