import S4LibLite.Lib.Interleaving
import Mathlib.Data.Nat.Notation

/-!
# What the threads of a recycling queue share

The two queues of frames, the handles with the variables that own them, and the actions of
`simpleQ_mpmc_ar_t` and `simpleQ_spmc_ar_t` on them. An action is one effect that other threads
can see. A blocking or timed wait is an attempt that may come back without a frame; how long
it takes is not modelled.

* `step_dequeue_cases`, ..., `step_posixMemalign_cases`, what an action can have done where it
  has a choice.
-/

namespace S4LibLite
namespace Queue

open Interleaving (Prog)

/-! ## Data -/

/-- A thread. -/
abbrev Tid := ℕ

/-- The two queues between producers and consumers. -/
inductive QueueId
  | dataPool
  | dataPtoC
deriving DecidableEq, Repr

def QueueId.other : QueueId → QueueId
  | .dataPool => .dataPtoC
  | .dataPtoC => .dataPool

/-- `queParticle_t`, without the user's `info`. The object is the `slot`-th one made from the
block `mem`. -/
structure QueParticle where
  mem : ℕ
  slot : ℕ
  pBuffer : UInt64
deriving DecidableEq, Repr

/-- The sub-queue an element is enqueued through. -/
inductive Producer
  | token
  | thread (t : Tid)
deriving DecidableEq, Repr

structure Entry where
  producer : Producer
  particle : QueParticle
deriving DecidableEq, Repr

/-- A variable of type `queParticle_arPtr_t`, also as an element of a vector. -/
inductive Var
  | var (n : ℕ)
  | elem (pv i : ℕ)
deriving DecidableEq, Repr

/-- A `shared_ptr` that owns a handle; `tmp t` is the one `make_shared` returns in `t`. -/
inductive Owner
  | var (v : Var)
  | tmp (t : Tid)
deriving DecidableEq, Repr

/-- `queParticle_ar_t`, with the pointers that own it. -/
structure QueParticleAr where
  owners : List Owner
  pQdata : Option QueParticle
  pHostQ : Option QueueId
  pPtok : Bool
deriving DecidableEq, Repr

/-- A block of `posix_memalign`: `len` bytes, asked for to hold `num` frames. -/
structure Block where
  base : UInt64
  len : UInt64
  num : UInt32
deriving DecidableEq, Repr

/-- What a frame is to the call in whose local variables it is. -/
inductive Stage
  /-- Made by `malloc_particle`, not yet in `_dataPool`. -/
  | fresh
  /-- Taken from the queue, on the way into a handle. -/
  | taken (q : QueueId)
  /-- Out of its handle, on the way into the queue. -/
  | leaving (q : QueueId)
deriving DecidableEq, Repr

structure Held where
  thread : Tid
  stage : Stage
  particle : QueParticle
deriving DecidableEq, Repr

/-- The constants of a queue; `spmc` tells `simpleQ_spmc_ar_t` from its base class. -/
structure Params where
  pageSize : UInt64
  allMemalign : Bool
  spmc : Bool

/-- The members of the queue, the handles and vectors its users have, and the blocks that are
allocated. `held` lists the frames in the local variables of the calls in progress. -/
structure State where
  depth : UInt32
  queue : QueueId → List Entry
  memHoster : List (UInt64 × UInt64)
  handles : List QueParticleAr
  vecSize : ℕ → ℕ
  blocks : List Block
  held : List Held

/-- Before the constructor. -/
def State.init : State := ⟨0, fun _ => [], [], [], fun _ => 0, [], []⟩

/-! ## Actions -/

inductive Action
  /-- `try_dequeue`, and one attempt of `wait_dequeue` and the timed ones. -/
  | dequeue (q : QueueId)
  /-- `enqueue(*_pPtok, pQdata)` with a token, `enqueue(pQdata)` without. -/
  | enqueue (q : QueueId) (tok : Bool) (pQdata : Option QueParticle)
  /-- `_dataPool->enqueue` of a frame that `malloc_particle` made. -/
  | enqueueNew (p : QueParticle)
  | makeShared (pD : QueParticle) (pQ : QueueId) (tok : Bool)
  /-- `v = std::move(tmp)`. -/
  | moveTmp (v : Var)
  /-- `v = w`. -/
  | copy (v w : Var)
  /-- `v.reset()`, `v = nullptr`, or the end of `v`. -/
  | reset (v : Var)
  /-- `v->pHostQ = nullptr` and `std::move(v->pQdata)`. -/
  | takeOut (v : Var)
  | size (pv : ℕ)
  | setSize (pv n : ℕ)
  /-- `posix_memalign` of `len` bytes, for `num` frames. -/
  | posixMemalign (len : UInt64) (num : UInt32)
  | hostMem (mem len : UInt64)
  | addDepth (n : UInt32)

/-- What an action answers. The three actions on a variable answer the handle whose last owner
they took away. -/
@[reducible] def Answer : Action → Type
  | .dequeue _ => Option QueParticle
  | .enqueue .. => Bool
  | .enqueueNew _ => Bool
  | .makeShared .. => Unit
  | .moveTmp _ => Option QueParticleAr
  | .copy .. => Option QueParticleAr
  | .reset _ => Option QueParticleAr
  | .takeOut _ => QueParticle
  | .size _ => ℕ
  | .setSize .. => Unit
  | .posixMemalign .. => Option (ℕ × UInt64)
  | .hostMem .. => Unit
  | .addDepth _ => Unit

/-- Which element a queue hands out, and which block the allocator. -/
inductive Choice
  | none
  | element (i : ℕ)
  | base (mem : UInt64)
deriving DecidableEq, Repr

/-- The frame `n` of a block, at `mem.get() + n * _page_size`. -/
def particle (c : Params) (mem : ℕ × UInt64) (n : ℕ) : QueParticle :=
  ⟨mem.1, n, mem.2 + UInt64.ofNat n * c.pageSize⟩

/-- The frames a block is cut into. -/
def particles (c : Params) (mem : ℕ × UInt64) (num : UInt32) : List QueParticle :=
  (List.range num.toNat).map (particle c mem)

/-- The owner `o` lets go of its handle. A handle without owners is taken out. -/
def dropOwner (o : Owner) : List QueParticleAr → Option QueParticleAr × List QueParticleAr
  | [] => (none, [])
  | h :: hs =>
    if o ∈ h.owners then
      let owners := h.owners.filter (· ≠ o)
      if owners = [] then (some h, hs) else (none, { h with owners := owners } :: hs)
    else
      let (dead, hs) := dropOwner o hs
      (dead, h :: hs)

/-- The frame a dying handle leaves to its destructor. -/
def leaving : Option QueParticleAr → List (Stage × QueParticle)
  | some ⟨_, some p, some q, _⟩ => [(.leaving q, p)]
  | _ => []

def hold (t : Tid) (x : Stage × QueParticle) : Held := ⟨t, x.1, x.2⟩

/-- `o` lets go of its handle, in thread `t`. -/
def State.drop (s : State) (t : Tid) (o : Owner) : Option QueParticleAr × State :=
  ((dropOwner o s.handles).1, { s with
    handles := (dropOwner o s.handles).2
    held := (leaving (dropOwner o s.handles).1).map (hold t) ++ s.held })

def State.mapHandles (s : State) (f : QueParticleAr → QueParticleAr) : State :=
  { s with handles := s.handles.map f }

/-- `new` comes to own what `old` owns, beside `old`. -/
def addOwner (old new : Owner) (h : QueParticleAr) : QueParticleAr :=
  if old ∈ h.owners then { h with owners := new :: h.owners } else h

def renameOwner (old new : Owner) (h : QueParticleAr) : QueParticleAr :=
  { h with owners := h.owners.map fun o => if o = old then new else o }

/-- The armed producer handle that `v` owns loses its frame. -/
def disarm (v : Var) : List QueParticleAr → Option (QueParticle × List QueParticleAr)
  | [] => none
  | h :: hs =>
    if .var v ∈ h.owners then
      match h.pHostQ, h.pQdata with
      | some .dataPtoC, some p => some (p, { h with pHostQ := none, pQdata := none } :: hs)
      | _, _ => none
    else
      match disarm v hs with
      | some (p, hs) => some (p, h :: hs)
      | none => none

/-- A block of `len` bytes at `base` is aligned, lies within the address space and apart from
the blocks there are; only an empty one may be at null. -/
def allocOk (s : State) (base len : UInt64) : Bool :=
  base.toNat % 4096 == 0 && base.toNat + len.toNat ≤ UInt64.size && (base != 0 || len == 0) &&
    s.blocks.all fun b =>
      base.toNat + len.toNat ≤ b.base.toNat || b.base.toNat + b.len.toNat ≤ base.toNat

/-- What an action of thread `t` does. An action that is not defined, and one whose choice does
not fit, does not happen. -/
def step (c : Params) (t : Tid) (a : Action) (choice : Choice) (s : State) :
    Option (Answer a × State) :=
  match a with
  | .dequeue q =>
    match choice with
    -- any element: only the elements of one producer are in order
    | .element i =>
      match (s.queue q)[i]? with
      | some e =>
        some (some e.particle, { s with
          queue := Function.update s.queue q ((s.queue q).eraseIdx i)
          held := ⟨t, .taken q, e.particle⟩ :: s.held })
      | none => none
    -- a consumer may find nothing although there is something
    | _ => some (none, s)
  | .enqueue q tok pQdata =>
    match pQdata with
    | some p =>
      let e : Entry := ⟨if tok then .token else .thread t, p⟩
      some (true, { s with
        queue := Function.update s.queue q (s.queue q ++ [e])
        held := s.held.erase ⟨t, .leaving q, p⟩ })
    | none => none
  | .enqueueNew p =>
    some (true, { s with
      queue := Function.update s.queue .dataPool (s.queue .dataPool ++ [⟨.thread t, p⟩])
      held := s.held.erase ⟨t, .fresh, p⟩ })
  | .makeShared pD pQ tok =>
    some ((), { s with
      handles := ⟨[.tmp t], some pD, some pQ, tok⟩ :: s.handles
      held := s.held.erase ⟨t, .taken pQ.other, pD⟩ })
  -- the old handle is let go of before the new one comes
  | .moveTmp v =>
    some ((s.drop t (.var v)).1,
      (s.drop t (.var v)).2.mapHandles (renameOwner (.tmp t) (.var v)))
  | .copy v w =>
    if v = w then some (none, s)
    else
      some ((s.drop t (.var v)).1,
        (s.drop t (.var v)).2.mapHandles (addOwner (.var w) (.var v)))
  | .reset v => some (s.drop t (.var v))
  | .takeOut v =>
    match disarm v s.handles with
    | some (p, hs) =>
      some (p, { s with handles := hs, held := ⟨t, .leaving .dataPtoC, p⟩ :: s.held })
    | none => none
  | .size pv => some (s.vecSize pv, s)
  | .setSize pv n => some ((), { s with vecSize := Function.update s.vecSize pv n })
  | .posixMemalign len num =>
    match choice with
    | .base base =>
      if allocOk s base len then
        let mem := (s.blocks.length, base)
        some (some mem, { s with
          blocks := s.blocks ++ [⟨base, len, num⟩]
          held := (particles c mem num).map (fun p => hold t (.fresh, p)) ++ s.held })
      else none
    -- ENOMEM
    | _ => some (none, s)
  | .hostMem mem len => some ((), { s with memHoster := s.memHoster ++ [(mem, len)] })
  | .addDepth n => some ((), { s with depth := s.depth + n })

/-! ## What an action can have done -/

section
variable {c : Params} {t : Tid} {choice : Choice} {s s' : State} {q : QueueId}

/-- A queue hands an element out, or nothing. -/
theorem step_dequeue_cases {r : Option QueParticle}
    (h : step c t (.dequeue q) choice s = some (r, s')) :
    (∃ i e, choice = .element i ∧ (s.queue q)[i]? = some e ∧ r = some e.particle ∧
      s' = { s with
        queue := Function.update s.queue q ((s.queue q).eraseIdx i)
        held := ⟨t, .taken q, e.particle⟩ :: s.held }) ∨
    ((∀ i, choice ≠ .element i) ∧ r = none ∧ s' = s) := by
  cases choice with
  | element i =>
    simp only [step] at h
    split at h
    · rename_i e he
      obtain ⟨hr, hs'⟩ := Prod.mk.inj (Option.some.inj h)
      exact Or.inl ⟨i, e, rfl, he, hr.symm, hs'.symm⟩
    · simp at h
  | none | base mem =>
    obtain ⟨hr, hs'⟩ := Prod.mk.inj (Option.some.inj h)
    exact Or.inr ⟨by simp, hr.symm, hs'.symm⟩

/-- A frame that leaves its handle is put behind the others of its queue. -/
theorem step_enqueue_eq {tok : Bool} {d : Option QueParticle} {r : Bool}
    (h : step c t (.enqueue q tok d) choice s = some (r, s')) :
    ∃ p, d = some p ∧ r = true ∧ s' = { s with
      queue := Function.update s.queue q
        (s.queue q ++ [⟨if tok then .token else .thread t, p⟩])
      held := s.held.erase ⟨t, .leaving q, p⟩ } := by
  cases d with
  | none => simp [step] at h
  | some p =>
    obtain ⟨hr, hs'⟩ := Prod.mk.inj (Option.some.inj h)
    exact ⟨p, rfl, hr.symm, hs'.symm⟩

theorem step_copy_cases {v w : Var} {r : Option QueParticleAr}
    (h : step c t (.copy v w) choice s = some (r, s')) :
    (r = none ∧ s' = s) ∨ (r = (s.drop t (.var v)).1 ∧
      s' = (s.drop t (.var v)).2.mapHandles (addOwner (.var w) (.var v))) := by
  simp only [step] at h
  split at h
  · obtain ⟨hr, hs'⟩ := Prod.mk.inj (Option.some.inj h)
    exact Or.inl ⟨hr.symm, hs'.symm⟩
  · obtain ⟨hr, hs'⟩ := Prod.mk.inj (Option.some.inj h)
    exact Or.inr ⟨hr.symm, hs'.symm⟩

/-- The frame taken out of an armed handle is held by the thread. -/
theorem step_takeOut_eq {v : Var} {p : QueParticle}
    (h : step c t (.takeOut v) choice s = some (p, s')) :
    ∃ hs, disarm v s.handles = some (p, hs) ∧
      s' = { s with
        handles := hs
        held := ⟨t, .leaving .dataPtoC, p⟩ :: s.held } := by
  simp only [step] at h
  split at h
  · rename_i p' hs heq
    obtain ⟨hr, hs'⟩ := Prod.mk.inj (Option.some.inj h)
    exact ⟨hs, hr ▸ heq, hr ▸ hs'.symm⟩
  · simp at h

/-- The allocator answers with a block that fits, or not at all. -/
theorem step_posixMemalign_cases {len : UInt64} {num : UInt32} {r : Option (ℕ × UInt64)}
    (h : step c t (.posixMemalign len num) choice s = some (r, s')) :
    (∃ base, choice = .base base ∧ allocOk s base len = true ∧
      r = some (s.blocks.length, base) ∧ s' = { s with
        blocks := s.blocks ++ [⟨base, len, num⟩]
        held := (particles c (s.blocks.length, base) num).map (fun p => hold t (.fresh, p)) ++
          s.held }) ∨
    ((∀ base, choice ≠ .base base) ∧ r = none ∧ s' = s) := by
  cases choice with
  | base base =>
    simp only [step] at h
    split at h
    · rename_i halloc
      obtain ⟨hr, hs'⟩ := Prod.mk.inj (Option.some.inj h)
      exact Or.inl ⟨base, rfl, halloc, hr.symm, hs'.symm⟩
    · simp at h
  | none | element i =>
    obtain ⟨hr, hs'⟩ := Prod.mk.inj (Option.some.inj h)
    exact Or.inr ⟨by simp, hr.symm, hs'.symm⟩

end

end Queue
end S4LibLite
