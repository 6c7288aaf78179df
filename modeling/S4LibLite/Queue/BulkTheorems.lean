import S4LibLite.Queue.BulkSend

/-!
# Bulk receiving, and the bulk operations against the single ones

`C_getBulk_timeout` takes the frames first and makes the handles afterwards.

* `call_cGetBulkTimeout` and `calls_cRecvTry`, what the two ways to receive leave behind;
* `run_tokens`, whose handles have a token;
* `bulk_eq_singles`, the bulk operations do what the single ones do one by one.
-/

namespace S4LibLite
namespace Queue

open Interleaving

variable {c : Params} {t : Tid} {s s' : State} {v : Var} {hs : List QueParticleAr} {pv : ℕ}

/-! ## Frames out of a queue -/

def State.withQueue (s : State) (q : QueueId) (es : List Entry) : State :=
  { s with queue := Function.update s.queue q es }

theorem withQueue_self (q : QueueId) : s.withQueue q (s.queue q) = s := by
  unfold State.withQueue
  rw [Function.update_eq_self]

/-- The frames `ps` leave the queue `es`, one after the other and each from anywhere. -/
def Dequeues : List Entry → List QueParticle → List Entry → Prop
  | es, [], es' => es = es'
  | es, p :: ps, es' => ∃ i e, es[i]? = some e ∧ e.particle = p ∧ Dequeues (es.eraseIdx i) ps es'

def takenOf (t : Tid) (q : QueueId) (ps : List QueParticle) : List Held :=
  ps.map fun p => ⟨t, .taken q, p⟩

/-- The element `i` of the queue goes into the hands of `t`. -/
def State.dequeued (s : State) (t : Tid) (q : QueueId) (i : ℕ) (p : QueParticle) : State :=
  (s.withQueue q ((s.queue q).eraseIdx i)).withHeld (⟨t, .taken q, p⟩ :: s.held)

/-- What a queue can hand out: any of its elements, or nothing. -/
theorem step_dequeue {q : QueueId} {r : Option QueParticle} :
    (∃ choice, step c t (.dequeue q) choice s = some (r, s')) ↔
      (∃ i e, (s.queue q)[i]? = some e ∧ r = some e.particle ∧
        s' = s.dequeued t q i e.particle) ∨ (r = none ∧ s' = s) := by
  constructor
  · rintro ⟨choice, hstep⟩
    rcases step_dequeue_cases hstep with ⟨i, e, _, he, hr, hs⟩ | ⟨_, hr, hs⟩
    · exact Or.inl ⟨i, e, he, hr, hs⟩
    · exact Or.inr ⟨hr, hs⟩
  · intro h
    rcases h with ⟨i, e, he, hr, hs⟩ | ⟨hr, hs⟩
    · refine ⟨.element i, ?_⟩
      rw [hr, hs]
      simp only [step, he]
      rfl
    · refine ⟨.none, ?_⟩
      rw [hr, hs]
      rfl

/-- Where nothing comes out, nothing changes. -/
theorem dequeues_nil_iff {q : QueueId} : (∃ es, Dequeues (s.queue q) [] es ∧
    s' = (s.withQueue q es).withHeld ((takenOf t q []).reverse ++ s.held)) ↔ s' = s := by
  constructor
  · rintro ⟨es, hes, hs'⟩
    rw [hs', ← hes, withQueue_self]
    rfl
  · intro hs'
    refine ⟨_, rfl, ?_⟩
    rw [hs', withQueue_self]
    rfl

/-- A bulk takes any elements out, up to the number asked for. -/
theorem returns_dequeueBulk {q : QueueId} {n : ℕ} {ps : List QueParticle} :
    (dequeueBulk q n).Returns (step c t) s ps s' ↔
      ps.length ≤ n ∧ ∃ es, Dequeues (s.queue q) ps es ∧
        s' = (s.withQueue q es).withHeld ((takenOf t q ps).reverse ++ s.held) := by
  induction n generalizing s s' ps with
  | zero =>
    unfold dequeueBulk
    rw [returns_pure]
    constructor
    · rintro ⟨hps, hs'⟩
      rw [← hps]
      exact ⟨Nat.le_refl 0, dequeues_nil_iff.mpr hs'.symm⟩
    · rintro ⟨hps, h⟩
      rw [List.length_eq_zero_iff.mp (Nat.le_zero.mp hps)] at h ⊢
      exact ⟨rfl, (dequeues_nil_iff.mp h).symm⟩
  | succ n ih =>
    unfold dequeueBulk
    rw [returns_bind]
    constructor
    · rintro ⟨r, s₁, htake, hrest⟩
      rcases step_dequeue.mp (returns_perform.mp htake) with ⟨i, e, he, hr, hs₁⟩ | ⟨hr, hs₁⟩
      · rw [hr, hs₁] at hrest
        obtain ⟨ps₁, s₂, hbulk, hps, hs'⟩ := returns_bind.mp hrest
        obtain ⟨hlen, es, hes, hs₂⟩ := ih.mp hbulk
        rw [← hps]
        refine ⟨Nat.succ_le_succ hlen, es, ⟨i, e, he, rfl, ?_⟩, ?_⟩
        · simpa [State.dequeued, State.withQueue, State.withHeld] using hes
        · rw [← hs', hs₂]
          simp [State.dequeued, State.withQueue, State.withHeld, takenOf]
      · rw [hr, hs₁] at hrest
        rw [← hrest.1]
        exact ⟨Nat.zero_le _, dequeues_nil_iff.mpr hrest.2.symm⟩
    · rintro ⟨hlen, h⟩
      -- either the first try fails, or it takes the first frame
      cases ps with
      | nil =>
        refine ⟨none, s, returns_perform.mpr (step_dequeue.mpr (Or.inr ⟨rfl, rfl⟩)), rfl, ?_⟩
        exact (dequeues_nil_iff.mp h).symm
      | cons p ps =>
        obtain ⟨es, ⟨i, e, he, hp, hes⟩, hs'⟩ := h
        refine ⟨some e.particle, s.dequeued t q i e.particle,
          returns_perform.mpr (step_dequeue.mpr (Or.inl ⟨i, e, he, rfl, rfl⟩)), ?_⟩
        apply returns_bind.mpr
        refine ⟨ps, s', ih.mpr ⟨Nat.le_of_succ_le_succ hlen, es, ?_, ?_⟩, by rw [hp], rfl⟩
        · simpa [State.dequeued, State.withQueue, State.withHeld] using hes
        · rw [hs', hp]
          simp [State.dequeued, State.withQueue, State.withHeld, takenOf]

/-! ## New handles -/

/-- Without a `tmp` there is nothing to rename. -/
theorem renameOwner_of_not_tmp (htmp : tmpOwns t hs = false) :
    hs.map (renameOwner (.tmp t) (.var v)) = hs := by
  have hid : ∀ h ∈ hs, renameOwner (.tmp t) (.var v) h = h := by
    intro h hh
    have hne : Owner.tmp t ∉ h.owners := by
      intro htmp'
      apply Bool.false_ne_true
      rw [← htmp]
      exact List.any_eq_true.mpr ⟨h, hh, decide_eq_true htmp'⟩
    have howners : h.owners.map (fun o => if o = .tmp t then .var v else o) =
        h.owners.map id := by
      apply List.map_congr_left
      intro o ho
      exact if_neg fun (heq : o = .tmp t) => hne (heq ▸ ho)
    unfold renameOwner
    rw [howners, List.map_id]
  exact (List.map_congr_left hid).trans (List.map_id hs)

/-- A frame in the hands of `t` goes into a handle of `v`, which was null. -/
theorem returns_assignShared {p : QueParticle} {q : QueueId} {tok : Bool}
    (hv : handleOf v s.handles = none) (htmp : tmpOwns t s.handles = false) :
    (assignShared v p q tok).Returns (step c t) s () s' ↔
      s' = (s.withHandles (⟨[.var v], some p, some q, tok⟩ :: s.handles)).withHeld
        (s.held.erase ⟨t, .taken q.other, p⟩) := by
  have hmake : ∀ choice, step c t (.makeShared p q tok) choice s =
      some ((), (s.withHandles (⟨[.tmp t], some p, some q, tok⟩ :: s.handles)).withHeld
        (s.held.erase ⟨t, .taken q.other, p⟩)) := fun _ => rfl
  -- `v` has nothing to let go of: the new handle only changes its owner
  have hdrop : dropOwner (.var v) (⟨[.tmp t], some p, some q, tok⟩ :: s.handles) =
      (none, ⟨[.tmp t], some p, some q, tok⟩ :: s.handles) := by
    apply dropOwner_null
    simpa [handleOf, Points] using hv
  have hmove : ∀ choice, step c t (.moveTmp v) choice
      ((s.withHandles (⟨[.tmp t], some p, some q, tok⟩ :: s.handles)).withHeld
        (s.held.erase ⟨t, .taken q.other, p⟩)) =
      some (none, (s.withHandles (⟨[.var v], some p, some q, tok⟩ :: s.handles)).withHeld
        (s.held.erase ⟨t, .taken q.other, p⟩)) := by
    intro choice
    simp [step, State.drop, State.withHandles, State.withHeld, hdrop, leaving, State.mapHandles,
      renameOwner_of_not_tmp htmp, renameOwner]
  unfold assignShared
  rw [returns_bind_of_step hmake, returns_bind_of_step hmove]
  unfold destroyDead
  rw [returns_pure, and_iff_right rfl]
  exact eq_comm

/-- The handles of the frames that were received, in the elements of `pv` from `i` on. -/
def received (pv : ℕ) : ℕ → List QueParticle → List QueParticleAr → List QueParticleAr
  | _, [], hs => hs
  | i, p :: ps, hs =>
    received pv (i + 1) ps (⟨[.var (.elem pv i)], some p, some .dataPool, false⟩ :: hs)

/-- The elements of `pv` from `i` on are null. -/
def NullFrom (pv i : ℕ) (hs : List QueParticleAr) : Prop :=
  ∀ j, i ≤ j → handleOf (.elem pv j) hs = none

/-- One element more has its handle. -/
theorem NullFrom.received {i : ℕ} {p : QueParticle} (h : NullFrom pv i hs) :
    NullFrom pv (i + 1) (⟨[.var (.elem pv i)], some p, some .dataPool, false⟩ :: hs) := by
  intro j hj
  have hne : ¬ j = i := by omega
  have hnull := h j (by omega)
  unfold handleOf at hnull ⊢
  simp [Points, hne, hnull]

/-- The handle of a variable is no `tmp`. -/
theorem tmpOwns_received {h : QueParticleAr} (htmp : tmpOwns t hs = false)
    (hh : h.owners = [.var v]) : tmpOwns t (h :: hs) = false := by
  rw [tmpOwns_cons, htmp, hh]
  simp

/-- The frames go into handles of the vector's elements, in order. -/
theorem returns_assigns {i : ℕ} {ps : List QueParticle} (hnull : NullFrom pv i s.handles)
    (htmp : tmpOwns t s.handles = false) :
    (Prog.forEach (fun x => assignShared (.elem pv x.2) x.1 .dataPool false)
      (ps.zipIdx i)).Returns (step c t) s () s' ↔
      s' = (s.withHandles (received pv i ps s.handles)).withHeld
        ((takenOf t .dataPtoC ps).foldl List.erase s.held) := by
  induction ps generalizing s i with
  | nil =>
    rw [List.zipIdx_nil, returns_nil]
    exact eq_comm
  | cons p ps ih =>
    rw [List.zipIdx_cons, returns_cons]
    simp only [returns_assignShared (hnull i (Nat.le_refl i)) htmp]
    constructor
    · rintro ⟨s₁, hs₁, hrest⟩
      rw [hs₁, ih hnull.received (tmpOwns_received htmp rfl)] at hrest
      exact hrest
    · intro hs'
      exact ⟨_, rfl, ih hnull.received (tmpOwns_received htmp rfl) |>.mpr hs'⟩

/-! ## Receiving -/

theorem direct_assignShared (v : Var) (p : QueParticle) (q : QueueId) (tok : Bool) :
    (assignShared v p q tok).Direct := by
  apply direct_bind (direct_perform _)
  intro _
  apply direct_bind (direct_perform _)
  exact direct_destroyDead

theorem direct_takeTry (q pQ : QueueId) (v : Var) (tok : Bool) :
    (takeTry q v pQ tok).Direct := by
  apply direct_bind (direct_perform _)
  intro data
  cases data with
  | none => exact direct_bind (direct_reset v) fun _ => trivial
  | some p => exact direct_bind (direct_assignShared v p pQ tok) fun _ => trivial

theorem direct_dequeueBulk (q : QueueId) (n : ℕ) : (dequeueBulk q n).Direct := by
  induction n with
  | zero => exact trivial
  | succ n ih =>
    apply direct_bind (direct_perform _)
    intro data
    cases data with
    | none => exact trivial
    | some p => exact direct_bind ih fun _ => trivial

theorem direct_cGetBulkTimeout (pv maxNb : ℕ) : (cGetBulkTimeout pv maxNb).Direct := by
  apply direct_bind (direct_dequeueBulk .dataPtoC maxNb)
  intro ps
  apply direct_bind (direct_resize pv ps.length)
  intro _
  split_ifs
  · have hassigns : (Prog.forEach (fun x => assignShared (.elem pv x.2) x.1 .dataPool false)
        ps.zipIdx).Direct := by
      apply direct_forEach
      intro x
      exact direct_assignShared _ x.1 .dataPool false
    exact direct_bind hassigns fun _ => trivial
  · exact trivial

/-- A consumer takes element `i` of `_dataPtoC` into a handle of `v`. -/
def State.received (s : State) (v : Var) (i : ℕ) (p : QueParticle) : State :=
  (s.withQueue .dataPtoC ((s.queue .dataPtoC).eraseIdx i)).withHandles
    (⟨[.var v], some p, some .dataPool, false⟩ :: s.handles)

/-- `C_recv_try` gets an element of the queue into its variable. -/
theorem returns_cRecvTry (hv : handleOf v s.handles = none) (htmp : tmpOwns t s.handles = false) :
    (cRecvTry v).Returns (step c t) s true s' ↔
      ∃ i e, (s.queue .dataPtoC)[i]? = some e ∧ s' = s.received v i e.particle := by
  have hassign : ∀ {i : ℕ} {p : QueParticle} {s' : State},
      (assignShared v p .dataPool false).Returns (step c t) (s.dequeued t .dataPtoC i p) () s' ↔
        s' = s.received v i p := by
    intro i p s'
    have hassign := @returns_assignShared c t (s.dequeued t .dataPtoC i p) s' v p .dataPool false
    have hheld : (s.dequeued t .dataPtoC i p).held.erase ⟨t, .taken .dataPtoC, p⟩ = s.held :=
      List.erase_cons_head ..
    rw [hassign hv htmp, show QueueId.dataPool.other = .dataPtoC from rfl, hheld]
    rfl
  unfold cRecvTry takeTry
  rw [returns_bind]
  constructor
  · rintro ⟨r, s₁, htake, hrest⟩
    rcases step_dequeue.mp (returns_perform.mp htake) with ⟨i, e, he, hr, hs₁⟩ | ⟨hr, hs₁⟩
    · rw [hr, hs₁] at hrest
      obtain ⟨_, s₂, hs₂, _, hs'⟩ := returns_bind.mp hrest
      rw [hassign] at hs₂
      exact ⟨i, e, he, by rw [← hs', hs₂]⟩
    · -- nothing was taken, and the call returns false
      rw [hr] at hrest
      obtain ⟨_, _, _, hfalse, _⟩ := returns_bind.mp hrest
      simp at hfalse
  · rintro ⟨i, e, he, hs'⟩
    refine ⟨some e.particle, s.dequeued t .dataPtoC i e.particle,
      returns_perform.mpr (step_dequeue.mpr (Or.inl ⟨i, e, he, rfl, rfl⟩)), ?_⟩
    exact returns_bind.mpr ⟨(), s', hassign.mpr hs', rfl, rfl⟩

variable {k k' : Threads}

/-- The same, as a call that nobody interrupts. -/
theorem call_cRecvTry (hk : k.running t = none) (hv : handleOf v k.state.handles = none)
    (htmp : tmpOwns t k.state.handles = false) :
    (system c).Call t (.cRecvTry v) (some true) k k' ↔
      ∃ i e, (k.state.queue .dataPtoC)[i]? = some e ∧
        k' = ⟨k.state.received v i e.particle, k.running⟩ := by
  have hbody : (body c (.cRecvTry v)).Direct :=
    direct_bind (direct_takeTry _ _ v false) fun _ => trivial
  rw [System.call_iff hbody, and_iff_right hk]
  show (∃ s, (cRecvTry v >>= fun b => pure (some b)).Returns (step c t) k.state
    (some true) s ∧ _) ↔ _
  simp only [returns_bind, returns_pure]
  constructor
  · rintro ⟨s, ⟨b, s₁, htry, hb, hs⟩, hk'⟩
    rw [Option.some.inj hb, returns_cRecvTry hv htmp] at htry
    obtain ⟨i, e, he, hs₁⟩ := htry
    exact ⟨i, e, he, by rw [hk', ← hs, hs₁]⟩
  · rintro ⟨i, e, he, hk'⟩
    exact ⟨_, ⟨true, _, (returns_cRecvTry hv htmp).mpr ⟨i, e, he, rfl⟩, rfl, rfl⟩, hk'⟩

/-- One `C_recv_try` for each element of the vector. -/
theorem calls_cRecvTry {i m : ℕ} (hk : k.running t = none) (hnull : NullFrom pv i k.state.handles)
    (htmp : tmpOwns t k.state.handles = false) :
    (system c).Calls t ((List.range' i m).map fun j => (.cRecvTry (.elem pv j), some true)) k k' ↔
      ∃ ps es, ps.length = m ∧ Dequeues (k.state.queue .dataPtoC) ps es ∧
        k' = ⟨(k.state.withQueue .dataPtoC es).withHandles (received pv i ps k.state.handles),
          k.running⟩ := by
  induction m generalizing k i with
  | zero =>
    constructor
    · intro hk'
      refine ⟨[], _, rfl, rfl, ?_⟩
      rw [withQueue_self]
      exact hk'.symm
    · rintro ⟨ps, es, hlen, hes, hk'⟩
      rw [List.length_eq_zero_iff.mp hlen] at hes hk'
      rw [← hes, withQueue_self] at hk'
      exact hk'.symm
  | succ m ih =>
    have hnull' : ∀ p, NullFrom pv (i + 1)
        (⟨[.var (.elem pv i)], some p, some .dataPool, false⟩ :: k.state.handles) :=
      fun p => hnull.received
    have hrest := fun j p => @ih ⟨k.state.received (.elem pv i) j p, k.running⟩ (i + 1) hk
      (hnull' p) (tmpOwns_received htmp rfl)
    have hcall := @call_cRecvTry c t (.elem pv i) k
    constructor
    · rintro ⟨k₁, hfirst, hcalls⟩
      obtain ⟨j, e, he, hk₁⟩ := hcall hk (hnull i (Nat.le_refl i)) htmp |>.mp hfirst
      rw [hk₁] at hcalls
      obtain ⟨ps, es, hlen, hes, hk'⟩ := hrest j e.particle |>.mp hcalls
      refine ⟨e.particle :: ps, es, congrArg _ hlen, ⟨j, e, he, rfl, ?_⟩, ?_⟩
      · simpa [State.received, State.withQueue, State.withHandles] using hes
      · rw [hk']
        simp [State.received, State.withQueue, State.withHandles, Queue.received]
    · rintro ⟨ps, es, hlen, hes, hk'⟩
      cases ps with
      | nil => simp at hlen
      | cons p ps =>
        obtain ⟨j, e, he, hp, hes⟩ := hes
        have hfirst := hcall hk (hnull i (Nat.le_refl i)) htmp |>.mpr ⟨j, e, he, rfl⟩
        refine ⟨_, hfirst, hrest j e.particle |>.mpr ⟨ps, es, Nat.succ.inj hlen, ?_, ?_⟩⟩
        · simpa [State.received, State.withQueue, State.withHandles] using hes
        · rw [hk', hp]
          simp [State.received, State.withQueue, State.withHandles, Queue.received]

/-- An empty vector is resized without an effect on handles. -/
theorem returns_resize_empty (hsize : s.vecSize pv = 0) (n : ℕ) :
    (resize pv n).Returns (step c t) s () s' ↔ s' = s.withSize pv n := by
  unfold resize
  rw [returns_bind_of_step (step_size s), hsize]
  show (Prog.forEach _ ((List.range 0).drop n) >>= _).Returns _ _ _ _ ↔ _
  rw [List.range_zero, List.drop_nil, returns_seq_of_iff fun _ => returns_nil.trans eq_comm,
    returns_perform_of_step (step_setSize s n), and_iff_right rfl]

/-- `C_getBulk_timeout` from where the frames `ps` are in its hands. -/
theorem returns_deliver {ps : List QueParticle} {b : Bool} (hsize : s.vecSize pv = 0)
    (hnull : NullFrom pv 0 s.handles) (htmp : tmpOwns t s.handles = false) :
    (do
      resize pv ps.length
      if ps.length ≠ 0 then
        Prog.forEach (fun x => assignShared (.elem pv x.2) x.1 .dataPool false) ps.zipIdx
        pure true
      else
        pure false : Op Bool).Returns (step c t) s b s' ↔
      b = decide (ps.length ≠ 0) ∧
        s' = ((s.withSize pv ps.length).withHandles (received pv 0 ps s.handles)).withHeld
          ((takenOf t .dataPtoC ps).foldl List.erase s.held) := by
  have hassigns := @returns_assigns c t (s.withSize pv ps.length)
  rw [returns_seq_of_iff fun _ => returns_resize_empty hsize ps.length]
  by_cases hlen : ps.length ≠ 0
  · rw [if_pos hlen, decide_eq_true hlen, returns_seq_of_iff fun _ => hassigns hnull htmp,
      returns_pure]
    exact and_congr eq_comm eq_comm
  · rw [if_neg hlen, decide_eq_false hlen, returns_pure]
    rw [List.length_eq_zero_iff.mp (not_not.mp hlen)]
    exact and_congr eq_comm eq_comm

/-- The state after the frames `ps` were received into `pv`, which was empty. -/
def State.receivedAll (s : State) (pv : ℕ) (ps : List QueParticle) (es : List Entry) : State :=
  ((s.withSize pv ps.length).withQueue .dataPtoC es).withHandles (Queue.received pv 0 ps s.handles)

/-- `C_get_bulk_timeout` gets some frames, as many handles, and says whether there are any. -/
theorem returns_cGetBulkTimeout {maxNb : ℕ} {b : Bool} (hsize : s.vecSize pv = 0)
    (hnull : NullFrom pv 0 s.handles) (htmp : tmpOwns t s.handles = false) :
    (cGetBulkTimeout pv maxNb).Returns (step c t) s b s' ↔
      ∃ ps es, ps.length ≤ maxNb ∧ Dequeues (s.queue .dataPtoC) ps es ∧
        b = decide (ps.length ≠ 0) ∧ s' = s.receivedAll pv ps es := by
  have hdeliver := fun ps es => @returns_deliver c t ((s.withQueue .dataPtoC es).withHeld
    ((takenOf t .dataPtoC ps).reverse ++ s.held)) s' pv ps b hsize hnull htmp
  -- what is in the hands of the thread on the way ends up in handles
  have hstate : ∀ ps es, s' = State.withHeld (State.withHandles (State.withSize
      ((s.withQueue .dataPtoC es).withHeld ((takenOf t .dataPtoC ps).reverse ++ s.held))
      pv ps.length) (received pv 0 ps s.handles)) ((takenOf t .dataPtoC ps).foldl List.erase
        ((takenOf t .dataPtoC ps).reverse ++ s.held)) ↔ s' = s.receivedAll pv ps es := by
    intro ps es
    rw [foldl_erase (List.reverse_perm _)]
    rfl
  unfold cGetBulkTimeout
  rw [returns_bind]
  constructor
  · rintro ⟨ps, s₁, htake, hrest⟩
    obtain ⟨hlen, es, hes, hs₁⟩ := returns_dequeueBulk.mp htake
    rw [hs₁] at hrest
    obtain ⟨hb, hs'⟩ := hdeliver ps es |>.mp hrest
    exact ⟨ps, es, hlen, hes, hb, hstate ps es |>.mp hs'⟩
  · rintro ⟨ps, es, hlen, hes, hb, hs'⟩
    refine ⟨ps, _, returns_dequeueBulk.mpr ⟨hlen, es, hes, rfl⟩, ?_⟩
    exact hdeliver ps es |>.mpr ⟨hb, hstate ps es |>.mpr hs'⟩

/-- The same, as a call that nobody interrupts. -/
theorem call_cGetBulkTimeout {maxNb : ℕ} {b : Bool} (hk : k.running t = none)
    (hsize : k.state.vecSize pv = 0) (hnull : NullFrom pv 0 k.state.handles)
    (htmp : tmpOwns t k.state.handles = false) :
    (system c).Call t (.cGetBulkTimeout pv maxNb) (some b) k k' ↔
      ∃ ps es, ps.length ≤ maxNb ∧ Dequeues (k.state.queue .dataPtoC) ps es ∧
        b = decide (ps.length ≠ 0) ∧ k' = ⟨k.state.receivedAll pv ps es, k.running⟩ := by
  have hbody : (body c (.cGetBulkTimeout pv maxNb)).Direct :=
    direct_bind (direct_cGetBulkTimeout pv maxNb) fun _ => trivial
  rw [System.call_iff hbody, and_iff_right hk]
  show (∃ s, (cGetBulkTimeout pv maxNb >>= fun b => pure (some b)).Returns (step c t) k.state
    (some b) s ∧ _) ↔ _
  simp only [returns_bind, returns_pure, returns_cGetBulkTimeout hsize hnull htmp]
  constructor
  · rintro ⟨s, ⟨b', s₁, ⟨ps, es, hlen, hes, hb', hs₁⟩, hb, hs⟩, hk'⟩
    refine ⟨ps, es, hlen, hes, ?_, by rw [hk', ← hs, hs₁]⟩
    rw [← Option.some.inj hb, hb']
  · rintro ⟨ps, es, hlen, hes, hb, hk'⟩
    exact ⟨_, ⟨b, _, ⟨ps, es, hlen, hes, hb, rfl⟩, rfl, rfl⟩, hk'⟩

/-! ## Tokens -/

/-- Only the handles of `simpleQ_spmc_ar_t` have a token. -/
def Tokens (c : Params) (s : State) : Prop := ∀ h ∈ s.handles, h.pPtok = true → c.spmc = true

theorem tokens_drop (hs : Tokens c s) (o : Owner) : Tokens c (s.drop t o).2 := by
  show ∀ h ∈ (dropOwner o s.handles).2, _
  unfold Tokens at hs
  rcases dropOwner_cases o s.handles with heq | ⟨l₁, x, l₂, hl, _, heq⟩ | ⟨l₁, x, l₂, hl, _, heq⟩
  · rw [heq]
    exact hs
  · rw [hl, List.forall_mem_append, List.forall_mem_cons] at hs
    rw [heq]
    exact List.forall_mem_append.mpr ⟨hs.1, hs.2.2⟩
  · rw [hl, List.forall_mem_append, List.forall_mem_cons] at hs
    rw [heq]
    exact List.forall_mem_append.mpr ⟨hs.1, List.forall_mem_cons.mpr hs.2⟩

/-- What leaves the tokens of handles alone. -/
theorem tokens_mapHandles {f : QueParticleAr → QueParticleAr} (hf : ∀ h, (f h).pPtok = h.pPtok)
    (hs : Tokens c s) : Tokens c (s.mapHandles f) := by
  intro h hh
  obtain ⟨x, hx, hxh⟩ := List.mem_map.mp hh
  rw [← hxh, hf]
  exact hs x hx

/-- No action makes a token where the queue has none. -/
theorem step_tokens {a : Action} {choice : Choice} {r : Answer a} (hs : Tokens c s)
    (ha : a.Grows ∨ a.Reuses c) (h : step c t a choice s = some (r, s')) : Tokens c s' := by
  cases a with
  | dequeue q =>
    rcases step_dequeue_cases h with ⟨i, e, _, _, _, rfl⟩ | ⟨_, _, rfl⟩
    · exact hs
    · exact hs
  | enqueue q tok d =>
    obtain ⟨p, _, _, rfl⟩ := step_enqueue_eq h
    exact hs
  | makeShared p q tok =>
    -- the only action that gives a handle a token
    rw [← (Prod.mk.inj (Option.some.inj h)).2]
    exact List.forall_mem_cons.mpr ⟨ha.elim False.elim id, hs⟩
  | moveTmp v =>
    rw [← (Prod.mk.inj (Option.some.inj h)).2]
    exact tokens_mapHandles (fun _ => rfl) (tokens_drop hs _)
  | copy v w =>
    rcases step_copy_cases h with ⟨_, rfl⟩ | ⟨_, rfl⟩
    · exact hs
    · apply tokens_mapHandles _ (tokens_drop hs _)
      intro x
      unfold addOwner
      split_ifs <;> rfl
  | reset v =>
    rw [← (Prod.mk.inj (Option.some.inj h)).2]
    exact tokens_drop hs _
  | takeOut v =>
    obtain ⟨hs₁, heq, rfl⟩ := step_takeOut_eq h
    obtain ⟨l₁, x, l₂, hl, _, _, rfl⟩ := disarm_eq_some heq
    unfold Tokens at hs
    rw [hl, List.forall_mem_append, List.forall_mem_cons] at hs
    exact List.forall_mem_append.mpr ⟨hs.1, List.forall_mem_cons.mpr hs.2⟩
  | posixMemalign len num =>
    rcases step_posixMemalign_cases h with ⟨base, _, _, _, rfl⟩ | ⟨_, _, rfl⟩
    · exact hs
    · exact hs
  | enqueueNew p | size pv | setSize pv n | hostMem mem len | addDepth n =>
    rw [← (Prod.mk.inj (Option.some.inj h)).2]
    exact hs

/-- The rules that keep tokens where they belong. -/
def tokenRules (c : Params) : Rules Action Answer Unit :=
  ⟨fun _ a => a.Grows ∨ a.Reuses c, fun _ _ _ _ => True, fun _ => True⟩

theorem sound_tokens (c : Params) :
    Sound (system c) (tokenRules c) (fun _ _ => ()) (Tokens c) where
  step hs ha h := ⟨step_tokens hs ha h, trivial, fun _ _ => rfl⟩
  body op _ _ := wp_of_only (fun _ h => h) (fun _ _ ha _ => ⟨ha, fun _ _ _ => trivial⟩)
    (only_body op) trivial

/-- In every run only the handles of `simpleQ_spmc_ar_t` have tokens. -/
theorem run_tokens {es : List QEvent} (hk : (system c).run start es = some k) :
    Tokens c k.state := by
  have hstart : Good (tokenRules c) (fun _ _ => ()) (Tokens c) start :=
    ⟨by simp [Tokens, start, State.init], fun _ => trivial⟩
  exact ((sound_tokens c).run hstart hk).inv

/-! ## The bulk operations and the single ones -/

/-- `v` owns the handle of a producer, and nothing else does. -/
def OwnsProduct (s : State) (v : Var) : Prop :=
  ∃ h, Sole v h s.handles ∧ h.pHostQ = some .dataPtoC

/-- The frame that `v` gives access to. -/
def frameOf (s : State) (v : Var) : Option QueParticle :=
  (handleOf v s.handles).bind QueParticleAr.pQdata

/-- The handles of the producers of `simpleQ_mpmc_ar_t` have a frame and no token. -/
theorem sendable_of_owns {es : List QEvent} (hc : c.spmc = false)
    (hk : (system c).run start es = some k) (hv : OwnsProduct k.state v) :
    ∃ p, frameOf k.state v = some p ∧ Sendable k.state.handles v p := by
  obtain ⟨h, hsole, hq⟩ := hv
  have hh : h ∈ k.state.handles := List.mem_of_find?_eq_some hsole.1
  have harmed := (((sound c).run (good_start c) hk).inv.wf h hh).armed
  rw [hq] at harmed
  obtain ⟨p, hp⟩ := Option.isSome_iff_exists.mp harmed
  have htok : h.pPtok = false := by
    rw [Bool.eq_false_iff]
    intro htok
    exact absurd (run_tokens hk h hh htok) (by simp [hc])
  have heq : h = ⟨[.var v], some p, some .dataPtoC, false⟩ := by
    rw [← hsole.2, ← hp, ← hq, ← htok]
  rw [heq] at hsole
  refine ⟨p, ?_, hsole⟩
  unfold frameOf
  rw [hsole.1]
  rfl

/-- The elements of `pv` own handles of producers, each by itself. -/
def OwnsProducts (s : State) (pv : ℕ) : Prop := ∀ i < s.vecSize pv, OwnsProduct s (.elem pv i)

/-- The elements of `pv` in order, with what `P_send` of each returns. -/
def sends (s : State) (pv : ℕ) : List (Operation × Option Bool) :=
  (List.range (s.vecSize pv)).map fun i => (.pSend (.elem pv i), none)

/-- `C_recv_try` into each of the first `m` elements of `pv`, all with success. -/
def tries (pv m : ℕ) : List (Operation × Option Bool) :=
  (List.range m).map fun i => (.cRecvTry (.elem pv i), some true)

/-- `ps` are the frames of the elements of `pv`, in order. -/
def FramesOf (s : State) (pv : ℕ) (ps : List QueParticle) : Prop :=
  (List.range (s.vecSize pv)).map (fun i => frameOf s (.elem pv i)) = ps.map some

theorem pSendBulk_eq {es : List QEvent} (hc : c.spmc = false)
    (hk : (system c).run start es = some k) (ht : k.running t = none)
    (hpv : OwnsProducts k.state pv) :
    (∀ k', (system c).Call t (.pSendBulk pv) none k k' ↔
      ∃ k₁, (system c).Calls t (sends k.state pv) k k₁ ∧
        k' = ⟨k₁.state.withSize pv 0, k₁.running⟩) ∧
    ∃ k' ps, (system c).Call t (.pSendBulk pv) none k k' ∧ FramesOf k.state pv ps ∧
      k'.state.queue .dataPtoC = k.state.queue .dataPtoC ++ ps.map (Entry.mk (.thread t)) ∧
      k'.state.queue .dataPool = k.state.queue .dataPool := by
  let frame : ℕ → QueParticle := fun i => (frameOf k.state (.elem pv i)).getD ⟨0, 0, 0⟩
  -- every element has a frame, so the default is never used
  have hframe : ∀ i < k.state.vecSize pv, frameOf k.state (.elem pv i) = some (frame i) ∧
      Sendable k.state.handles (.elem pv i) (frame i) := by
    intro i hi
    obtain ⟨p, hp, hsend⟩ := sendable_of_owns hc hk (hpv i hi)
    have hpi : frame i = p := by
      unfold frame
      rw [hp]
      rfl
    rw [hpi]
    exact ⟨hp, hsend⟩
  have hsend := fun i hi => (hframe i hi).2
  constructor
  · intro k'
    have hcalls := fun k₁ => @calls_pSend c t pv k k₁ _ frame ht List.nodup_range
      fun i hi => hsend i (List.mem_range.mp hi)
    rw [call_pSendBulk ht hsend]
    constructor
    · intro hk'
      exact ⟨_, (hcalls _).mpr rfl, hk'⟩
    · rintro ⟨k₁, hk₁, hk'⟩
      rw [hk', (hcalls k₁).mp hk₁]
  · refine ⟨_, (List.range (k.state.vecSize pv)).map frame, (call_pSendBulk ht hsend).mpr rfl,
      ?_, ?_, ?_⟩
    · unfold FramesOf
      rw [List.map_map]
      apply List.map_congr_left
      intro i hi
      exact (hframe i (List.mem_range.mp hi)).1
    · simp [State.withSize, State.sent, State.publish, State.withHandles]
    · simp [State.withSize, State.sent, State.publish, State.withHandles]

theorem cGetBulkTimeout_eq (ht : k.running t = none) (htmp : tmpOwns t k.state.handles = false)
    (hsize : k.state.vecSize pv = 0) (hnull : NullFrom pv 0 k.state.handles) (maxNb : ℕ) (b : Bool)
    (k' : Threads) :
    (system c).Call t (.cGetBulkTimeout pv maxNb) (some b) k k' ↔
      ∃ m, m ≤ maxNb ∧ b = decide (m ≠ 0) ∧
        (system c).Calls t (tries pv m) ⟨k.state.withSize pv m, k.running⟩ k' := by
  have hcalls := fun m => @calls_cRecvTry c t pv ⟨k.state.withSize pv m, k.running⟩ k' 0 m ht
    hnull htmp
  simp only [tries, List.range_eq_range', hcalls]
  rw [call_cGetBulkTimeout ht hsize hnull htmp]
  constructor
  · rintro ⟨ps, es, hlen, hes, hb, hk'⟩
    exact ⟨ps.length, hlen, hb, ps, es, rfl, hes, hk'⟩
  · rintro ⟨m, hm, hb, ps, es, hlen, hes, hk'⟩
    rw [← hlen] at hm hb hk'
    exact ⟨ps, es, hm, hes, hb, hk'⟩

/-- What the bulk operations of `simpleQ_mpmc_ar_t` do when the other threads wait, in every
state that the threads can reach:

* `P_send_bulk` of a vector whose elements own handles of producers, each by itself, does what
  `P_send` of the elements in order and `clear` do. Each frame is once more in `_dataPtoC`;
* `C_getBulk_timeout` into an empty vector does what some number `m` of successful `C_recv_try`
  into the elements of a vector of `m` null handles do. It returns false for no frames. -/
theorem bulk_eq_singles {es : List QEvent} (hc : c.spmc = false)
    (hk : (system c).run start es = some k) (ht : k.running t = none) :
    (∀ pv, OwnsProducts k.state pv →
      (∀ k', (system c).Call t (.pSendBulk pv) none k k' ↔
        ∃ k₁, (system c).Calls t (sends k.state pv) k k₁ ∧
          k' = ⟨k₁.state.withSize pv 0, k₁.running⟩) ∧
      ∃ k' ps, (system c).Call t (.pSendBulk pv) none k k' ∧ FramesOf k.state pv ps ∧
        k'.state.queue .dataPtoC = k.state.queue .dataPtoC ++ ps.map (Entry.mk (.thread t)) ∧
        k'.state.queue .dataPool = k.state.queue .dataPool) ∧
    ∀ pv, k.state.vecSize pv = 0 → NullFrom pv 0 k.state.handles → ∀ maxNb b k',
      (system c).Call t (.cGetBulkTimeout pv maxNb) (some b) k k' ↔
        ∃ m, m ≤ maxNb ∧ b = decide (m ≠ 0) ∧
          (system c).Calls t (tries pv m) ⟨k.state.withSize pv m, k.running⟩ k' := by
  have hready := ((sound c).run (good_start c) hk).ready t
  rw [ht] at hready
  constructor
  · intro pv hpv
    exact pSendBulk_eq hc hk ht hpv
  · intro pv hsize hnull maxNb b k'
    exact cGetBulkTimeout_eq ht hready.2 hsize hnull maxNb b k'

/-- Thread 1 puts one more producer's handle into `pv`. -/
def fillOne (pv : ℕ) : List QEvent :=
  [.call 1 (.pGet (.var 0)), .go 1 (.element 0), .go 1 .none, .go 1 .none, .go 1 .none,
    .call 1 (.pushBack pv (.var 0)), .go 1 .none, .go 1 .none, .go 1 .none, .go 1 .none,
    .call 1 (.release (.var 0)), .go 1 .none, .go 1 .none]

/-- The vector 0 has two producers' handles. -/
def filled : Threads :=
  ((system ⟨4096, false, false⟩).run start (constructSliced 2 ++ fillOne 0 ++ fillOne 0)).get
    (by decide +kernel)

/-- Thread 1 has sent both in one go. -/
def sentBoth : Threads :=
  ((system ⟨4096, false, false⟩).run start (constructSliced 2 ++ fillOne 0 ++ fillOne 0
    ++ .call 1 (.pSendBulk 0) :: List.replicate 10 (.go 1 .none))).get (by decide +kernel)

/-- Thread 1 sends both frames in one go, and thread 2 gets both in one go. -/
theorem bulk_eq_singles_two :
    (∃ (k' : Threads) (ps : List QueParticle),
      (system ⟨4096, false, false⟩).Call 1 (.pSendBulk 0) none filled k' ∧
      (∃ k₁, (system ⟨4096, false, false⟩).Calls 1 (sends filled.state 0) filled k₁ ∧
        k' = ⟨k₁.state.withSize 0 0, k₁.running⟩) ∧
      FramesOf filled.state 0 ps ∧ ps.length = 2 ∧
      k'.state.queue .dataPtoC = filled.state.queue .dataPtoC ++ ps.map (Entry.mk (.thread 1))) ∧
    ∃ k' : Threads, (system ⟨4096, false, false⟩).Call 2 (.cGetBulkTimeout 1 5) (some true)
        sentBoth k' ∧
      (system ⟨4096, false, false⟩).Calls 2 (tries 1 2)
        ⟨sentBoth.state.withSize 1 2, sentBoth.running⟩ k' ∧
      FramesOf k'.state 1 [⟨0, 0, 65536⟩, ⟨0, 1, 69632⟩] ∧ k'.state.queue .dataPtoC = [] := by
  constructor
  · have hidle : filled.running 1 = none := Option.isNone_iff_eq_none.mp (by decide +kernel)
    have hsize : filled.state.vecSize 0 = 2 := by decide +kernel
    have hhandles : filled.state.handles =
        [⟨[.var (.elem 0 1)], some ⟨0, 1, 69632⟩, some .dataPtoC, false⟩,
          ⟨[.var (.elem 0 0)], some ⟨0, 0, 65536⟩, some .dataPtoC, false⟩] := by decide +kernel
    have hrun : (system ⟨4096, false, false⟩).run start
        (constructSliced 2 ++ fillOne 0 ++ fillOne 0) = some filled := (Option.some_get _).symm
    have hpv : OwnsProducts filled.state 0 := by
      intro i hi
      rw [hsize] at hi
      have hi' : i = 0 ∨ i = 1 := by omega
      rcases hi' with rfl | rfl
      · exact ⟨_, ⟨by rw [hhandles]; rfl, rfl⟩, rfl⟩
      · exact ⟨_, ⟨by rw [hhandles]; rfl, rfl⟩, rfl⟩
    obtain ⟨hbulk, k', ps, hcall, hps, hq, _⟩ :=
      (bulk_eq_singles (c := ⟨4096, false, false⟩) rfl hrun hidle).1 0 hpv
    refine ⟨k', ps, hcall, hbulk k' |>.mp hcall, hps, ?_, hq⟩
    have hlen := congrArg List.length hps
    rw [List.length_map, List.length_map, List.length_range, hsize] at hlen
    exact hlen.symm
  · have hidle : sentBoth.running 2 = none := Option.isNone_iff_eq_none.mp (by decide +kernel)
    have hsize : sentBoth.state.vecSize 1 = 0 := by decide +kernel
    have hhandles : sentBoth.state.handles = [] := by decide +kernel
    have hqueue : sentBoth.state.queue .dataPtoC
        = [⟨.thread 1, ⟨0, 0, 65536⟩⟩, ⟨.thread 1, ⟨0, 1, 69632⟩⟩] := by decide +kernel
    have hrun : (system ⟨4096, false, false⟩).run start (constructSliced 2 ++ fillOne 0 ++ fillOne 0
        ++ .call 1 (.pSendBulk 0) :: List.replicate 10 (.go 1 .none)) = some sentBoth :=
      (Option.some_get _).symm
    generalize sentBoth = k at *
    have hnull : NullFrom 1 0 k.state.handles := by
      intro j _
      rw [hhandles]
      rfl
    have htmp : tmpOwns 2 k.state.handles = false := by
      rw [hhandles]
      rfl
    have hdequeues : Dequeues (k.state.queue .dataPtoC) [⟨0, 0, 65536⟩, ⟨0, 1, 69632⟩] [] := by
      rw [hqueue]
      exact ⟨0, _, rfl, rfl, 0, _, rfl, rfl, rfl⟩
    have htries := @calls_cRecvTry ⟨4096, false, false⟩ 2 1 ⟨k.state.withSize 1 2, k.running⟩ _ 0 2
      hidle hnull htmp |>.mpr ⟨_, _, rfl, hdequeues, rfl⟩
    rw [← List.range_eq_range'] at htries
    have hcall := (bulk_eq_singles (c := ⟨4096, false, false⟩) rfl hrun hidle).2 1 hsize hnull 5
      true _ |>.mpr ⟨2, by decide, rfl, htries⟩
    refine ⟨_, hcall, htries, ?_, ?_⟩
    · simp only [FramesOf, State.withHandles, State.withQueue, State.withSize, hhandles,
        Function.update_self]
      rfl
    · simp [State.withHandles, State.withQueue]

end Queue
end S4LibLite
