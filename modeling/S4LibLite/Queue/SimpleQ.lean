import S4LibLite.Queue.SharedState

/-!
# The recycling queues `simpleQ_mpmc_ar_t` and `simpleQ_spmc_ar_t`

Frames go from `_dataPool` to a producer, through `_dataPtoC` to a consumer and back. A
thread holds a frame in a handle, which several variables may own together; the destructor
of the handle puts the frame into the queue the handle was made for.

The two classes differ in the token that the producer's handles carry.
-/

namespace S4LibLite
namespace Queue

open Interleaving (Prog System Config Event)

abbrev Op (α : Type) := Prog Action Answer α

abbrev act (a : Action) : Op (Answer a) := Prog.perform a

/-! ## Handles -/

/-- `~queParticle_ar_t`. -/
def QueParticleAr.destroy (h : QueParticleAr) : Op Unit :=
  match h.pHostQ with
  | some q => do
    let _ ← act (.enqueue q h.pPtok h.pQdata)
  | none => pure ()

/-- What is left of a pointer that was overwritten: the destructor, where it was the last. -/
def destroyDead (dead : Option QueParticleAr) : Op Unit :=
  match dead with
  | some h => h.destroy
  | none => pure ()

/-- `p = std::make_shared<queParticle_ar_t>(pD, pQ)`, with a token in `simpleQ_spmc_ar_t`. -/
def assignShared (p : Var) (pD : QueParticle) (pQ : QueueId) (tok : Bool) : Op Unit := do
  act (.makeShared pD pQ tok)
  let dead ← act (.moveTmp p)
  destroyDead dead

/-- `p.reset()` and `p = nullptr`. -/
def reset (p : Var) : Op Unit := do
  let dead ← act (.reset p)
  destroyDead dead

/-- `p = q`. -/
def copy (p q : Var) : Op Unit := do
  let dead ← act (.copy p q)
  destroyDead dead

/-! ## Frames -/

/-- `char_array_t mem(len)`, of which `num` frames will be cut. -/
def charArray (len : UInt64) (num : UInt32) : Op (ℕ × UInt64) := do
  match ← act (.posixMemalign len num) with
  | some mem => pure mem
  | none => .raise "Error allocating aligned memory!"

/-- The loop of `malloc_particle` where every frame has a block of its own. -/
def mallocAligned (c : Params) (ps : List QueParticle) : ℕ → Op (Bool × List QueParticle)
  | 0 => pure (true, ps)
  | n + 1 => do
    let mem ← charArray c.pageSize 1
    -- if(mem.get() == nullptr)
    if mem.2 = 0 then
      pure (false, ps)
    else
      act (.hostMem mem.2 c.pageSize)
      act (.addDepth 1)
      mallocAligned c (ps ++ [particle c mem 0]) n

/-- The branch of `malloc_particle` that cuts one block into pages. -/
def mallocSliced (c : Params) (num : UInt32) : Op (Bool × List QueParticle) := do
  -- size_t, unchecked
  let memSize := c.pageSize * num.toUInt64
  let mem ← charArray memSize num
  if mem.2 = 0 then
    pure (false, [])
  else
    act (.hostMem mem.2 memSize)
    act (.addDepth num)
    pure (true, particles c mem num)

/-- `malloc_particle`, on an empty vector. -/
def mallocParticle (c : Params) (num : UInt32) : Op (Bool × List QueParticle) :=
  if num = 0 then pure (true, [])
  else do
    let (ok, ps) ← (if c.allMemalign then mallocAligned c [] num.toNat else mallocSliced c num)
    if ok then
      act (.addDepth num)
      pure (true, ps)
    else
      pure (false, ps)

/-- The loop of `init_dataPool`, with the number of frames it put into the pool. -/
def enqueueAll : List QueParticle → Op ℕ
  | [] => pure 0
  | p :: ps => do
    let ok : Bool ← act (.enqueueNew p)
    if ok then
      let i ← enqueueAll ps
      pure (i + 1)
    else
      pure 0

def initDataPool (c : Params) (num : UInt32) : Op Bool := do
  let (ok, ps) ← mallocParticle c num
  if ok then
    let i ← enqueueAll ps
    pure (i != 0)
  else
    pure false

/-- The constructor. -/
def construct (c : Params) (initDepth : UInt32) : Op Unit := do
  if ← initDataPool c initDepth then
    pure ()
  else
    .raise "Init simpleQ_mpmc_ar_t::dataPool fail!"

/-! ## The operations -/

/-- A blocking wait on `q` starts over until there is a frame. -/
def take (q : QueueId) (p : Var) (pQ : QueueId) (tok : Bool) : Op Unit := do
  match ← act (.dequeue q) with
  | some data => assignShared p data pQ tok
  | none => .restart

/-- One attempt on `q`, that leaves `p` null where it fails. -/
def takeTry (q : QueueId) (p : Var) (pQ : QueueId) (tok : Bool) : Op Bool := do
  match ← act (.dequeue q) with
  | some data =>
    assignShared p data pQ tok
    pure true
  | none =>
    reset p
    pure false

def pGet (c : Params) (p : Var) : Op Unit := take .dataPool p .dataPtoC c.spmc

def pGetTimeout (c : Params) (p : Var) : Op Bool := takeTry .dataPool p .dataPtoC c.spmc

def pGetTryBest (c : Params) (p : Var) : Op Bool := do
  match ← act (.dequeue .dataPool) with
  | some poolData =>
    assignShared p poolData .dataPtoC c.spmc
    pure true
  | none =>
    if ← initDataPool c 64 then
      -- return P_get_tryBest(p);
      .restart
    else
      reset p
      pure false

def pSend (p : Var) : Op Unit := reset p

/-- The loop of `P_send_bulk` over the elements of `pv`. -/
def takeOutAll (pv : ℕ) : List ℕ → Op (List QueParticle)
  | [] => pure []
  | i :: is => do
    let p ← act (.takeOut (.elem pv i))
    let ps ← takeOutAll pv is
    pure (p :: ps)

/-- `enqueue_bulk`, element by element. -/
def enqueueBulk (q : QueueId) (ps : List QueParticle) : Op Unit :=
  Prog.forEach (fun p => do let _ ← act (.enqueue q false (some p))) ps

/-- `pv.resize(n)`, that ends the elements from `n` on. -/
def resize (pv n : ℕ) : Op Unit := do
  let size : ℕ ← act (.size pv)
  Prog.forEach (fun i => reset (.elem pv i)) ((List.range size).drop n)
  act (.setSize pv n)

/-- `simpleQ_spmc_ar_t` has no version of its own, with the token. -/
def pSendBulk (pv : ℕ) : Op Unit := do
  let size : ℕ ← act (.size pv)
  let ps ← takeOutAll pv (List.range size)
  enqueueBulk .dataPtoC ps
  -- pv.clear();
  resize pv 0

def cRecv (p : Var) : Op Unit := take .dataPtoC p .dataPool false

def cRecvTry (p : Var) : Op Bool := takeTry .dataPtoC p .dataPool false

def cRecvTimeout (p : Var) : Op Bool := takeTry .dataPtoC p .dataPool false

/-- `wait_dequeue_bulk_timed` of at most `n` elements. -/
def dequeueBulk (q : QueueId) : ℕ → Op (List QueParticle)
  | 0 => pure []
  | n + 1 => do
    match ← act (.dequeue q) with
    | some p =>
      let ps ← dequeueBulk q n
      pure (p :: ps)
    | none => pure []

def cGetBulkTimeout (pv maxNb : ℕ) : Op Bool := do
  let ps ← dequeueBulk .dataPtoC maxNb
  resize pv ps.length
  if ps.length ≠ 0 then
    Prog.forEach (fun x => assignShared (.elem pv x.2) x.1 .dataPool false) ps.zipIdx
    pure true
  else
    pure false

def cReturn (p : Var) : Op Unit := reset p

/-- `pv.push_back(p)`. -/
def pushBack (pv : ℕ) (p : Var) : Op Unit := do
  let size : ℕ ← act (.size pv)
  copy (.elem pv size) p
  act (.setSize pv (size + 1))

/-- What a thread can call: the queue, and its own variables. -/
inductive Operation
  /-- The constructor; the runs also have it late, or more than once. -/
  | construct (initDepth : UInt32)
  | pGet (p : Var)
  | pGetTimeout (p : Var)
  | pGetTryBest (p : Var)
  | pSend (p : Var)
  | pSendBulk (pv : ℕ)
  | cRecv (p : Var)
  | cRecvTry (p : Var)
  | cRecvTimeout (p : Var)
  | cGetBulkTimeout (pv maxNb : ℕ)
  | cReturn (p : Var)
  | copy (p q : Var)
  | release (p : Var)
  | pushBack (pv : ℕ) (p : Var)

/-- An operation, with what it returns where it returns something. -/
def body (c : Params) : Operation → Op (Option Bool)
  | .construct initDepth => do construct c initDepth; pure none
  | .pGet p => do pGet c p; pure none
  | .pGetTimeout p => do return some (← pGetTimeout c p)
  | .pGetTryBest p => do return some (← pGetTryBest c p)
  | .pSend p => do pSend p; pure none
  | .pSendBulk pv => do pSendBulk pv; pure none
  | .cRecv p => do cRecv p; pure none
  | .cRecvTry p => do return some (← cRecvTry p)
  | .cRecvTimeout p => do return some (← cRecvTimeout p)
  | .cGetBulkTimeout pv maxNb => do return some (← cGetBulkTimeout pv maxNb)
  | .cReturn p => do cReturn p; pure none
  | .copy p q => do copy p q; pure none
  | .release p => do reset p; pure none
  | .pushBack pv p => do pushBack pv p; pure none

/-- The threads of a queue. -/
def system (c : Params) : System Tid Action Answer Choice State Operation (Option Bool) :=
  ⟨body c, step c⟩

abbrev Threads := Config Tid Action Answer State Operation (Option Bool)

abbrev QEvent := Event Tid Choice Operation

/-- Before any thread called anything, the constructor included. -/
def start : Threads := ⟨.init, fun _ => none⟩

end Queue
end S4LibLite
