import S4LibLite.Common.CStr
import S4LibLite.Lib.Interleaving

/-!
# The cache of host names (`DnsCache` in `sockutil.cpp`)

Any thread may ask for the address of a host. The cache is looked up under a lock and so is a new
entry put in, but in between the system is asked without one: two threads may ask for one host at
the same time, and what either has learned may be overwritten by the other.

* `getDomainIP`, what a thread does, as a program of the atomic parts;
* `DnsState`, the map with a record of what the system has answered, what was put into the map and
  what callers got;
* `Inv` and `sound`, what the parts keep;
* `run_justified`, every caller, in every interleaving, got what the system had answered.
-/

namespace S4LibLite.Network
namespace Dns

open Interleaving

/-- `sockaddr`: `sa_family`, and the bytes of `sa_data`. -/
structure Sockaddr where
  saFamily : UInt16
  saData : Bytes
deriving DecidableEq

/-- `((sockaddr_in *)&addr)->sin_port = htons(port)`. -/
def Sockaddr.withPort (port : UInt16) (addr : Sockaddr) : Sockaddr :=
  { addr with saData := (port >>> 8).toUInt8 :: port.toUInt8 :: addr.saData.drop 2 }

/-- `DnsItem`. Times are of type `time_t` and the seconds an entry is good for an `int`: the sum of
a clock's time and an `int` stays within sixty-four bits. -/
structure DnsItem where
  addr : Sockaddr
  createTime : ℤ
deriving DecidableEq

/-- A call of `getaddrinfo`: whether a signal broke it off, and what `answer` points to. -/
structure Lookup where
  interrupted : Bool
  answer : Option Sockaddr

/-- The loop of `getSystemDomainIP`, over the calls it makes; `none` while it goes on. -/
def getSystemDomainIP : List Lookup → Option (Option Sockaddr)
  | [] => none
  | l :: ls => if l.interrupted then getSystemDomainIP ls else some l.answer

/-- The parts of a request that nothing can come between; the last one is its return. -/
inductive Action
  | getCacheDomainIP (host : Bytes) (expireSec : ℤ)
  | getSystemDomainIP (host : Bytes)
  | setCacheDomainIP (host : Bytes) (addr : Sockaddr)
  | reply (host : Bytes) (port : UInt16) (expireSec : ℤ) (result : Option Sockaddr)

def Answer : Action → Type
  | .getCacheDomainIP _ _ => Option DnsItem
  | .getSystemDomainIP _ => Option Sockaddr
  | .setCacheDomainIP _ _ => Unit
  | .reply _ _ _ _ => Unit

/-- `SockUtil::getDomainIP(host, port, addr)`, with the time an entry is good for. -/
structure Request where
  host : Bytes
  port : UInt16
  expireSec : ℤ

def act (a : Action) : Prog Action Answer (Answer a) := Prog.perform a

/-- `DnsCache::getDomainIP`, called from `SockUtil::getDomainIP`. -/
def getDomainIP (q : Request) : Prog Action Answer Unit := do
  let cached : Option DnsItem ← act (.getCacheDomainIP q.host q.expireSec)
  match cached with
  | some item => act (.reply q.host q.port q.expireSec (some (item.addr.withPort q.port)))
  | none =>
    let found : Option Sockaddr ← act (.getSystemDomainIP q.host)
    match found with
    | some addr =>
      act (.setCacheDomainIP q.host addr)
      act (.reply q.host q.port q.expireSec (some (addr.withPort q.port)))
    | none => act (.reply q.host q.port q.expireSec none)

/-! ## The cache and its history -/

/-- What a thread has last learned, and when the clock was read. -/
inductive Learned
  | nothing
  | cached (host : Bytes) (item : DnsItem) (now : ℤ)
  | asked (host : Bytes) (answer : Option Sockaddr)
deriving DecidableEq

/-- What a caller got, and from where. -/
structure Reply where
  host : Bytes
  port : UInt16
  expireSec : ℤ
  result : Option Sockaddr
  source : Learned

/-- `_mapDns`; the newest of what the system has answered, of what has been put into the map and of
what callers got comes first. -/
structure DnsState (T : Type) where
  mapDns : Bytes → Option DnsItem
  answers : List (Bytes × Sockaddr)
  stored : List (Bytes × DnsItem)
  learned : T → Learned
  replies : List Reply

/-- What `time(NULL)` says, and how the calls of `getaddrinfo` go. -/
structure Environment where
  time : ℤ
  lookups : List Lookup

variable {T : Type} [DecidableEq T]

def DnsState.init : DnsState T := ⟨fun _ => none, [], [], fun _ => .nothing, []⟩

def DnsState.learn (t : T) (l : Learned) (s : DnsState T) : DnsState T :=
  { s with learned := Function.update s.learned t l }

/-- An atomic part, run by thread `t`. -/
def step (t : T) (a : Action) (env : Environment) (s : DnsState T) :
    Option (Answer a × DnsState T) :=
  match a with
  | .getCacheDomainIP host expireSec =>
    match s.mapDns host with
    | none => some (none, s.learn t .nothing)
    | some item =>
      if item.createTime + expireSec < env.time then
        some (none, { s with mapDns := Function.update s.mapDns host none }.learn t .nothing)
      else some (some item, s.learn t (.cached host item env.time))
  | .getSystemDomainIP host =>
    (getSystemDomainIP env.lookups).map fun answer =>
      (answer, { s with answers := answer.toList.map (host, ·) ++ s.answers }.learn t
        (.asked host answer))
  | .setCacheDomainIP host addr =>
    some ((), { s with
      mapDns := Function.update s.mapDns host (some ⟨addr, env.time⟩)
      stored := (host, ⟨addr, env.time⟩) :: s.stored })
  | .reply host port expireSec result =>
    some ((), { s with replies := ⟨host, port, expireSec, result, s.learned t⟩ :: s.replies })

/-- Threads that ask for hosts. -/
def system : System T Action Answer Environment (DnsState T) Request Unit := ⟨getDomainIP, step⟩

def start : Config T Action Answer (DnsState T) Request Unit := ⟨.init, fun _ => none⟩

/-! ## What is known of a reply -/

/-- A caller gets an address that the system has answered for this host, at once or from an entry
that has not expired, with the port put in; it gets none only if the system has none. -/
def Justified (answers : List (Bytes × Sockaddr)) (stored : List (Bytes × DnsItem)) (r : Reply) :
    Prop :=
  match r.result with
  | none => r.source = .asked r.host none
  | some result => ∃ addr, result = addr.withPort r.port ∧ (r.host, addr) ∈ answers
      ∧ (r.source = .asked r.host (some addr) ∨ ∃ item now, r.source = .cached r.host item now
        ∧ item.addr = addr ∧ (r.host, item) ∈ stored ∧ now ≤ item.createTime + r.expireSec)

/-- What a thread has learned is on record. -/
def Known (answers : List (Bytes × Sockaddr)) (stored : List (Bytes × DnsItem)) : Learned → Prop
  | .nothing => True
  | .cached host item _ => (host, item) ∈ stored
  | .asked host answer => ∀ addr, answer = some addr → (host, addr) ∈ answers

/-- The map holds nothing but what was put in last, and nothing is put in that the system has not
answered. -/
structure Inv (s : DnsState T) : Prop where
  newest : ∀ host item, s.mapDns host = some item →
    s.stored.find? (fun e => e.1 = host) = some (host, item)
  answered : ∀ host item, (host, item) ∈ s.stored → (host, item.addr) ∈ s.answers
  known : ∀ t, Known s.answers s.stored (s.learned t)
  justified : ∀ r ∈ s.replies, Justified s.answers s.stored r

section Records

variable {answers answers' : List (Bytes × Sockaddr)} {stored stored' : List (Bytes × DnsItem)}

/-- The records only grow. -/
theorem Known.mono {l : Learned} (h : Known answers stored l) (ha : answers ⊆ answers')
    (hs : stored ⊆ stored') : Known answers' stored' l := by
  cases l with
  | nothing => exact trivial
  | cached host item now => exact hs h
  | asked host answer => exact fun addr haddr => ha (h addr haddr)

theorem Justified.mono {r : Reply} (h : Justified answers stored r) (ha : answers ⊆ answers')
    (hs : stored ⊆ stored') : Justified answers' stored' r := by
  unfold Justified at h ⊢
  split at h
  · exact h
  · obtain ⟨addr, hresult, hmem, hsource⟩ := h
    refine ⟨addr, hresult, ha hmem, hsource.imp id ?_⟩
    rintro ⟨item, now, hcached, haddr, hitem, hnow⟩
    exact ⟨item, now, hcached, haddr, hs hitem, hnow⟩

end Records

/-! ## The rules -/

/-- Only what was asked for is put in, and a reply gives away what the thread has learned. -/
def needs (l : Learned) : Action → Prop
  | .getCacheDomainIP _ _ => True
  | .getSystemDomainIP _ => True
  | .setCacheDomainIP host addr => l = .asked host (some addr)
  | .reply host port expireSec result =>
    match result with
    | none => l = .asked host none
    | some result => ∃ addr, result = addr.withPort port
        ∧ (l = .asked host (some addr) ∨ ∃ item now, l = .cached host item now
          ∧ item.addr = addr ∧ now ≤ item.createTime + expireSec)

def gives (l : Learned) : (a : Action) → Answer a → Learned → Prop
  | .getCacheDomainIP host expireSec, r, l' =>
    ∀ item, r = some item → ∃ now, l' = .cached host item now ∧ now ≤ item.createTime + expireSec
  | .getSystemDomainIP host, r, l' => l' = .asked host r
  | .setCacheDomainIP _ _, _, l' => l' = l
  | .reply _ _ _ _, _, l' => l' = l

def rules : Rules Action Answer Learned := ⟨needs, gives, fun _ => True⟩

/-- `getDomainIP` keeps to the rules. -/
theorem wp_getDomainIP (q : Request) (l : Learned) :
    rules.wp (fun _ => rules.idle) (getDomainIP q) l := by
  refine wp_perform_bind (a := Action.getCacheDomainIP q.host q.expireSec) trivial
    fun cached l hcached => ?_
  cases cached with
  | some item =>
    obtain ⟨now, rfl, hnow⟩ := hcached item rfl
    exact ⟨⟨item.addr, rfl, Or.inr ⟨item, now, rfl, rfl, hnow⟩⟩, fun _ _ _ => trivial⟩
  | none =>
    refine wp_perform_bind (a := Action.getSystemDomainIP q.host) trivial fun found l hfound => ?_
    cases found with
    | some addr =>
      refine wp_perform_bind (a := Action.setCacheDomainIP q.host addr) hfound fun _ l' hl' => ?_
      exact ⟨⟨addr, rfl, Or.inl (hl'.trans hfound)⟩, fun _ _ _ => trivial⟩
    | none => exact ⟨hfound, fun _ _ _ => trivial⟩

/-! ## What the parts keep -/

section Steps

variable {s : DnsState T} {t : T}

theorem learned_learn_self (l : Learned) : (s.learn t l).learned t = l := Function.update_self ..

theorem learned_learn_of_ne {u : T} (hu : u ≠ t) (l : Learned) :
    (s.learn t l).learned u = s.learned u := Function.update_of_ne hu ..

/-- A thread learns something that is on record. -/
theorem Inv.learn (hs : Inv s) {l : Learned} (hl : Known s.answers s.stored l) :
    Inv (s.learn t l) where
  newest := hs.newest
  answered := hs.answered
  known u := by
    by_cases hu : u = t
    · rw [hu, learned_learn_self]
      exact hl
    · rw [learned_learn_of_ne hu]
      exact hs.known u
  justified := hs.justified

omit [DecidableEq T] in
/-- An entry that has expired is taken out. -/
theorem Inv.erase (hs : Inv s) (host : Bytes) :
    Inv { s with mapDns := Function.update s.mapDns host none } where
  newest host' item hitem := by
    by_cases hhost : host' = host
    · rw [hhost, show ({ s with mapDns := _ } : DnsState T).mapDns host = none from
        Function.update_self ..] at hitem
      exact absurd hitem (by simp)
    · exact hs.newest host' item ((Function.update_of_ne hhost ..).symm.trans hitem)
  answered := hs.answered
  known := hs.known
  justified := hs.justified

omit [DecidableEq T] in
/-- The system has answered. -/
theorem Inv.answer (hs : Inv s) {answers : List (Bytes × Sockaddr)} (h : s.answers ⊆ answers) :
    Inv { s with answers := answers } where
  newest := hs.newest
  answered host item hitem := h (hs.answered host item hitem)
  known u := (hs.known u).mono h (List.Subset.refl _)
  justified r hr := (hs.justified r hr).mono h (List.Subset.refl _)

omit [DecidableEq T] in
/-- Something the system has answered is put in. -/
theorem Inv.store (hs : Inv s) {host : Bytes} {item : DnsItem}
    (hanswer : (host, item.addr) ∈ s.answers) :
    Inv { s with
      mapDns := Function.update s.mapDns host (some item)
      stored := (host, item) :: s.stored } where
  newest host' item' hitem := by
    dsimp only at hitem ⊢
    by_cases hhost : host' = host
    · rw [hhost, Function.update_self] at hitem
      rw [hhost, ← Option.some.inj hitem]
      exact List.find?_cons_of_pos (decide_eq_true rfl)
    · rw [Function.update_of_ne hhost] at hitem
      rw [List.find?_cons_of_neg (by simpa using Ne.symm hhost)]
      exact hs.newest host' item' hitem
  answered host' item' hitem := by
    rcases List.mem_cons.mp hitem with heq | hitem
    · obtain ⟨rfl, rfl⟩ := Prod.mk.inj heq
      exact hanswer
    · exact hs.answered host' item' hitem
  known u := (hs.known u).mono (List.Subset.refl _) (List.subset_cons_self _ _)
  justified r hr := (hs.justified r hr).mono (List.Subset.refl _) (List.subset_cons_self _ _)

omit [DecidableEq T] in
/-- A caller gets what its thread has learned. -/
theorem Inv.reply (hs : Inv s) {host : Bytes} {port : UInt16} {expireSec : ℤ}
    {result : Option Sockaddr} (h : needs (s.learned t) (.reply host port expireSec result)) :
    Inv { s with replies := ⟨host, port, expireSec, result, s.learned t⟩ :: s.replies } where
  newest := hs.newest
  answered := hs.answered
  known := hs.known
  justified r hr := by
    rcases List.mem_cons.mp hr with rfl | hr
    · have hknown := hs.known t
      cases result with
      | none => exact h
      | some result =>
        obtain ⟨addr, hresult, hsource⟩ := h
        rcases hsource with hasked | ⟨item, now, hcached, rfl, hnow⟩
        · rw [hasked] at hknown
          exact ⟨addr, hresult, hknown addr rfl, Or.inl hasked⟩
        · rw [hcached] at hknown
          exact ⟨item.addr, hresult, hs.answered _ _ hknown,
            Or.inr ⟨item, now, hcached, rfl, hknown, hnow⟩⟩
    · exact hs.justified r hr

end Steps

/-- Each atomic part keeps the invariant and gives its thread what the rules say; the other threads
have learned nothing. -/
theorem sound : Sound (system (T := T)) rules DnsState.learned Inv where
  step {t a env s r s'} hs hneeds h := by
    cases a with
    | getCacheDomainIP host expireSec =>
      simp only [system, step] at h
      split at h
      · obtain ⟨rfl, rfl⟩ := Prod.mk.inj (Option.some.inj h)
        exact ⟨hs.learn trivial, fun item hitem => absurd hitem (by simp),
          fun u hu => learned_learn_of_ne hu _⟩
      · rename_i item hitem
        split at h
        · obtain ⟨rfl, rfl⟩ := Prod.mk.inj (Option.some.inj h)
          exact ⟨(hs.erase host).learn trivial, fun item hitem => absurd hitem (by simp),
            fun u hu => learned_learn_of_ne hu _⟩
        · rename_i hfresh
          obtain ⟨rfl, rfl⟩ := Prod.mk.inj (Option.some.inj h)
          have hmem := List.mem_of_find?_eq_some (hs.newest host item hitem)
          refine ⟨hs.learn hmem, fun item' hsome => ?_, fun u hu => learned_learn_of_ne hu _⟩
          rw [← Option.some.inj hsome]
          exact ⟨env.time, learned_learn_self _, Int.not_lt.mp hfresh⟩
    | getSystemDomainIP host =>
      simp only [system, step] at h
      obtain ⟨answer, -, hanswer⟩ := Option.map_eq_some_iff.mp h
      obtain ⟨rfl, rfl⟩ := Prod.mk.inj hanswer
      refine ⟨(hs.answer (List.subset_append_right _ _)).learn ?_, learned_learn_self _,
        fun u hu => learned_learn_of_ne hu _⟩
      rintro addr rfl
      exact List.mem_append_left _ (List.mem_singleton.mpr rfl)
    | setCacheDomainIP host addr =>
      obtain ⟨-, rfl⟩ := Prod.mk.inj (Option.some.inj h)
      have hknown := hs.known t
      rw [show s.learned t = .asked host (some addr) from hneeds] at hknown
      exact ⟨hs.store (hknown addr rfl), rfl, fun _ _ => rfl⟩
    | reply host port expireSec result =>
      obtain ⟨-, rfl⟩ := Prod.mk.inj (Option.some.inj h)
      exact ⟨hs.reply hneeds, rfl, fun _ _ => rfl⟩
  body q l _ := wp_getDomainIP q l

omit [DecidableEq T] in
theorem good_start : Good rules DnsState.learned Inv
    (start : Config T Action Answer (DnsState T) Request Unit) where
  inv := ⟨fun _ _ h => absurd h (by simp [start, DnsState.init]),
    fun _ _ h => absurd h List.not_mem_nil, fun _ => trivial,
    fun _ h => absurd h List.not_mem_nil⟩
  ready _ := trivial

/-- **In every interleaving** of threads, clocks and answers of the system, each caller gets an
address the system has answered for its host, at once or from an entry that has not expired, and
none only when the system has none; and the map holds, of each host, the entry put in last or
nothing. -/
theorem run_justified {es : List (Event T Environment Request)}
    {k : Config T Action Answer (DnsState T) Request Unit} (h : system.run start es = some k) :
    (∀ r ∈ k.state.replies, Justified k.state.answers k.state.stored r)
      ∧ ∀ host item, k.state.mapDns host = some item →
        k.state.stored.find? (fun e => e.1 = host) = some (host, item)
          ∧ (host, item.addr) ∈ k.state.answers := by
  have hinv := (sound.run good_start h).inv
  refine ⟨hinv.justified, fun host item hitem => ?_⟩
  have hnewest := hinv.newest host item hitem
  exact ⟨hnewest, hinv.answered host item (List.mem_of_find?_eq_some hnewest)⟩

/-- One thread asks the system, which a signal breaks off once; 61 seconds later a second thread
has the entry from the cache. -/
def askTwice : List (Event Bool Environment Request) :=
  let q : Request := ⟨[97], 80, 61⟩
  let env : ℤ → Environment := fun time =>
    ⟨time, [⟨true, none⟩, ⟨false, some ⟨2, [0, 0, 127, 0, 0, 1]⟩⟩]⟩
  [.call true q, .go true (env 5), .call false q, .go true (env 6), .go true (env 7),
    .go true (env 8), .go false (env 68), .go false (env 69)]

theorem run_justified_askTwice : ∃ k, system.run start askTwice = some k
    ∧ (∀ r ∈ k.state.replies, Justified k.state.answers k.state.stored r)
      ∧ ∀ host item, k.state.mapDns host = some item →
        k.state.stored.find? (fun e => e.1 = host) = some (host, item)
          ∧ (host, item.addr) ∈ k.state.answers :=
  ⟨_, rfl, @run_justified _ _ askTwice _ rfl⟩

end Dns
end S4LibLite.Network
