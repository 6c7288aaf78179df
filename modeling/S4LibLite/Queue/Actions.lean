import S4LibLite.Queue.SimpleQ

/-!
# Which actions a function performs

The growth of the pool allocates and counts, and hands its frames over one by one. Every other
part of an operation moves frames that are there.

* `only_body`, the actions of each operation;
* `only_reuses`, the operations that do not grow the pool.
-/

namespace S4LibLite
namespace Queue

open Interleaving (Prog)
open Interleaving.Prog (only_perform only_forEach)

/-- The actions that bring frames in. -/
def Action.Grows : Action → Prop
  | .enqueueNew _ => True
  | .posixMemalign .. => True
  | .hostMem .. => True
  | .addDepth _ => True
  | _ => False

/-- The actions on the frames there are. Only the handles of `simpleQ_spmc_ar_t` have tokens. -/
def Action.Reuses (c : Params) : Action → Prop
  | .enqueueNew _ => False
  | .posixMemalign .. => False
  | .hostMem .. => False
  | .addDepth _ => False
  | .makeShared _ _ tok => tok = true → c.spmc = true
  | _ => True

variable {c : Params}

/-! ## Frames that are there -/

/-- The destructor of a handle enqueues at most the frame that leaves it. -/
theorem only_destroyDead (dead : Option QueParticleAr) :
    (destroyDead dead).Only (Action.Reuses c) := by
  cases dead with
  | none => exact trivial
  | some h =>
    unfold destroyDead QueParticleAr.destroy
    dsimp only
    split
    · exact (only_perform trivial).bind fun _ => trivial
    · exact trivial

/-- A new handle; only `simpleQ_spmc_ar_t` makes it with a token. -/
theorem only_assignShared (p : Var) (pD : QueParticle) (pQ : QueueId) {tok : Bool}
    (htok : tok = true → c.spmc = true) :
    (assignShared p pD pQ tok).Only (Action.Reuses c) := by
  apply (only_perform htok).bind
  intro _
  apply (only_perform trivial).bind
  intro dead
  exact only_destroyDead dead

theorem only_reset (p : Var) : (reset p).Only (Action.Reuses c) :=
  (only_perform trivial).bind only_destroyDead

theorem only_copy (p q : Var) : (copy p q).Only (Action.Reuses c) :=
  (only_perform trivial).bind only_destroyDead

/-- Waiting for an element and making a handle of it. -/
theorem only_take (q : QueueId) (p : Var) (pQ : QueueId) {tok : Bool}
    (htok : tok = true → c.spmc = true) : (take q p pQ tok).Only (Action.Reuses c) := by
  apply (only_perform trivial).bind
  intro data
  cases data with
  | none => exact trivial
  | some pD => exact only_assignShared p pD pQ htok

/-- The same without waiting. -/
theorem only_takeTry (q : QueueId) (p : Var) (pQ : QueueId) {tok : Bool}
    (htok : tok = true → c.spmc = true) : (takeTry q p pQ tok).Only (Action.Reuses c) := by
  apply (only_perform trivial).bind
  intro data
  cases data with
  | none => exact (only_reset p).bind fun _ => trivial
  | some pD => exact (only_assignShared p pD pQ htok).bind fun _ => trivial

/-- The frames of a vector are taken out of their handles. -/
theorem only_takeOutAll (pv : ℕ) (is : List ℕ) : (takeOutAll pv is).Only (Action.Reuses c) := by
  induction is with
  | nil => exact trivial
  | cons i is ih =>
    apply (only_perform trivial).bind
    intro p
    exact ih.bind fun _ => trivial

theorem only_enqueueBulk (q : QueueId) (ps : List QueParticle) :
    (enqueueBulk q ps).Only (Action.Reuses c) := by
  apply only_forEach
  intro p
  exact (only_perform trivial).bind fun _ => trivial

theorem only_resize (pv n : ℕ) : (resize pv n).Only (Action.Reuses c) := by
  apply (only_perform trivial).bind
  intro size
  apply (only_forEach (fun i => only_reset (.elem pv i)) _).bind
  intro _
  exact only_perform trivial

/-- Sending in bulk takes frames out, enqueues them and resets the handles. -/
theorem only_pSendBulk (pv : ℕ) : (pSendBulk pv).Only (Action.Reuses c) := by
  apply (only_perform trivial).bind
  intro size
  apply (only_takeOutAll pv _).bind
  intro ps
  apply (only_enqueueBulk .dataPtoC ps).bind
  intro _
  exact only_resize pv 0

theorem only_dequeueBulk (q : QueueId) (n : ℕ) : (dequeueBulk q n).Only (Action.Reuses c) := by
  induction n with
  | zero => exact trivial
  | succ n ih =>
    apply (only_perform trivial).bind
    intro p
    cases p with
    | none => exact trivial
    | some p => exact ih.bind fun _ => trivial

/-- Receiving in bulk makes a handle for every frame that came. -/
theorem only_cGetBulkTimeout (pv maxNb : ℕ) :
    (cGetBulkTimeout pv maxNb).Only (Action.Reuses c) := by
  apply (only_dequeueBulk .dataPtoC maxNb).bind
  intro ps
  apply (only_resize pv ps.length).bind
  intro _
  split_ifs
  · have hloop : (Prog.forEach (fun x => assignShared (.elem pv x.2) x.1 .dataPool false)
        ps.zipIdx).Only (Action.Reuses c) := by
      apply only_forEach
      intro x
      exact only_assignShared _ x.1 .dataPool (by simp)
    exact hloop.bind fun _ => trivial
  · exact trivial

/-- `push_back` copies a handle into the vector. -/
theorem only_pushBack (pv : ℕ) (p : Var) : (pushBack pv p).Only (Action.Reuses c) := by
  apply (only_perform trivial).bind
  intro size
  apply (only_copy _ p).bind
  intro _
  exact only_perform trivial

/-- An operation that does not call `init_dataPool`. -/
def Operation.Reuses : Operation → Prop
  | .construct _ => False
  | .pGetTryBest _ => False
  | _ => True

/-- An operation without `init_dataPool` leaves the pool as large as it is. -/
theorem only_reuses {op : Operation} (h : op.Reuses) : (body c op).Only (Action.Reuses c) := by
  cases op with
  | construct initDepth => exact h.elim
  | pGetTryBest p => exact h.elim
  | pGet p => exact (only_take _ p _ id).bind fun _ => trivial
  | pGetTimeout p => exact (only_takeTry _ p _ id).bind fun _ => trivial
  | pSend p => exact (only_reset p).bind fun _ => trivial
  | pSendBulk pv => exact (only_pSendBulk pv).bind fun _ => trivial
  | cRecv p => exact (only_take _ p _ (by simp)).bind fun _ => trivial
  | cRecvTry p => exact (only_takeTry _ p _ (by simp)).bind fun _ => trivial
  | cRecvTimeout p => exact (only_takeTry _ p _ (by simp)).bind fun _ => trivial
  | cGetBulkTimeout pv maxNb => exact (only_cGetBulkTimeout pv maxNb).bind fun _ => trivial
  | cReturn p => exact (only_reset p).bind fun _ => trivial
  | copy p q => exact (only_copy p q).bind fun _ => trivial
  | release p => exact (only_reset p).bind fun _ => trivial
  | pushBack pv p => exact (only_pushBack pv p).bind fun _ => trivial

/-! ## New frames -/

/-- `char_array` allocates a block. -/
theorem only_charArray (len : UInt64) (num : UInt32) : (charArray len num).Only Action.Grows := by
  apply (only_perform trivial).bind
  intro mem
  cases mem with
  | none => exact trivial
  | some mem => exact trivial

/-- The loop that asks for one block for each frame. -/
theorem only_mallocAligned (ps : List QueParticle) (n : ℕ) :
    (mallocAligned c ps n).Only Action.Grows := by
  induction n generalizing ps with
  | zero => exact trivial
  | succ n ih =>
    apply (only_charArray _ _).bind
    intro mem
    split_ifs
    · exact trivial
    · apply (only_perform trivial).bind
      intro _
      apply (only_perform trivial).bind
      intro _
      exact ih _

/-- One block for all frames. -/
theorem only_mallocSliced (num : UInt32) : (mallocSliced c num).Only Action.Grows := by
  apply (only_charArray _ _).bind
  intro mem
  split_ifs
  · exact trivial
  · apply (only_perform trivial).bind
    intro _
    exact (only_perform trivial).bind fun _ => trivial

theorem only_mallocParticle (num : UInt32) : (mallocParticle c num).Only Action.Grows := by
  unfold mallocParticle
  split_ifs
  · exact trivial
  · apply (only_mallocAligned [] num.toNat).bind
    intro r
    split
    split_ifs
    · exact (only_perform trivial).bind fun _ => trivial
    · exact trivial
  · apply (only_mallocSliced num).bind
    intro r
    split
    split_ifs
    · exact (only_perform trivial).bind fun _ => trivial
    · exact trivial

theorem only_enqueueAll (ps : List QueParticle) : (enqueueAll ps).Only Action.Grows := by
  induction ps with
  | nil => exact trivial
  | cons p ps ih =>
    apply (only_perform trivial).bind
    intro ok
    split_ifs
    · exact ih.bind fun _ => trivial
    · exact trivial

/-- `init_dataPool` allocates and enqueues what it made. -/
theorem only_initDataPool (num : UInt32) : (initDataPool c num).Only Action.Grows := by
  apply (only_mallocParticle num).bind
  intro r
  split
  split_ifs
  · exact (only_enqueueAll _).bind fun _ => trivial
  · exact trivial

/-- The actions of every operation. -/
theorem only_body (op : Operation) : (body c op).Only fun a => a.Grows ∨ a.Reuses c := by
  have hgrows : ∀ num, (initDataPool c num).Only fun a => a.Grows ∨ a.Reuses c :=
    fun num => (only_initDataPool num).mono fun _ => Or.inl
  by_cases hop : op.Reuses
  · exact (only_reuses hop).mono fun _ => Or.inr
  · cases op with
    | construct initDepth =>
      have hconstruct : (construct c initDepth).Only fun a => a.Grows ∨ a.Reuses c := by
        apply (hgrows initDepth).bind
        intro ok
        split_ifs <;> exact trivial
      exact hconstruct.bind fun _ => trivial
    | pGetTryBest p =>
      have htryBest : (pGetTryBest c p).Only fun a => a.Grows ∨ a.Reuses c := by
        have hdequeue : (act (.dequeue .dataPool)).Only fun a => a.Grows ∨ a.Reuses c :=
          only_perform (Or.inr trivial)
        apply hdequeue.bind
        intro data
        cases data with
        | none =>
          apply (hgrows 64).bind
          intro ok
          split_ifs
          · exact trivial
          · exact ((only_reset p).mono fun _ => Or.inr).bind fun _ => trivial
        | some pD =>
          exact ((only_assignShared p pD _ id).mono fun _ => Or.inr).bind fun _ => trivial
      exact htryBest.bind fun _ => trivial
    | _ => exact absurd trivial hop

end Queue
end S4LibLite
