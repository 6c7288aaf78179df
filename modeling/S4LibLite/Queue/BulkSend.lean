import S4LibLite.Lib.Solo
import S4LibLite.Queue.Actions
import S4LibLite.Queue.SimpleQTheorems

/-!
# Sending many frames

`P_send_bulk` takes the frames out of the handles, publishes them and leaves the handles to die
without a frame; `P_send` lets go of one handle, whose destructor publishes the frame.

* `withoutAll_spendAll`, the handles that lost their frames first go like the others;
* `calls_pSend` and `call_pSendBulk`, what the two ways to send leave behind.
-/

namespace S4LibLite
namespace Queue

open Interleaving

/-! ## The handle of a variable -/

def Points (v : Var) (h : QueParticleAr) : Bool := decide (.var v ∈ h.owners)

/-- What `v` points to. -/
def handleOf (v : Var) (hs : List QueParticleAr) : Option QueParticleAr := hs.find? (Points v)

/-- `v` owns the handle `h`, and nothing else does. -/
def Sole (v : Var) (h : QueParticleAr) (hs : List QueParticleAr) : Prop :=
  handleOf v hs = some h ∧ h.owners = [.var v]

/-- The handles without that of `v`. -/
def without (v : Var) (hs : List QueParticleAr) : List QueParticleAr := hs.eraseP (Points v)

/-- The handle of `v` is without its frame. -/
def spend (v : Var) : List QueParticleAr → List QueParticleAr
  | [] => []
  | h :: hs => if Points v h then { h with pHostQ := none, pQdata := none } :: hs
    else h :: spend v hs

variable {v w : Var} {h x : QueParticleAr} {hs : List QueParticleAr} {p : QueParticle}

theorem not_points (hp : Points v h = false) : Owner.var v ∉ h.owners := of_decide_eq_false hp

/-- A handle without its frame points where it did. -/
@[simp] theorem points_spent :
    Points v { h with pHostQ := none, pQdata := none } = Points v h := rfl

/-- A handle with one owner is pointed to by that one alone. -/
theorem Sole.points (hv : Sole v x hs) : Points w x = decide (w = v) := by
  simp [Points, hv.2]

theorem Sole.not_points (hv : Sole v x hs) (hw : w ≠ v) : Points w x = false := by
  rw [hv.points]
  exact decide_eq_false hw

/-- The first handle is that of `v`, or it is further down. -/
theorem Sole.cons_cases (hv : Sole v x (h :: hs)) :
    (h = x ∧ Points v x = true) ∨ (Points v h = false ∧ Sole v x hs) := by
  unfold Sole handleOf at hv
  rw [List.find?_cons] at hv
  cases hp : Points v h with
  | true =>
    rw [hp] at hv
    have hhx := Option.some.inj hv.1
    exact Or.inl ⟨hhx, hhx ▸ hp⟩
  | false =>
    rw [hp] at hv
    exact Or.inr ⟨rfl, hv⟩

/-- A variable without a handle has none to let go. -/
theorem dropOwner_null (hv : handleOf v hs = none) : dropOwner (.var v) hs = (none, hs) := by
  induction hs with
  | nil => rfl
  | cons h hs ih =>
    obtain ⟨hp, hv⟩ := List.forall_mem_cons.mp (List.find?_eq_none.mp hv)
    have hne := Queue.not_points (Bool.eq_false_iff.mpr hp)
    simp [dropOwner, hne, ih (List.find?_eq_none.mpr hv)]

/-- The only owner takes its handle along. -/
theorem dropOwner_sole (hv : Sole v x hs) : dropOwner (.var v) hs = (some x, without v hs) := by
  induction hs with
  | nil => simp [Sole, handleOf] at hv
  | cons h hs ih =>
    rcases hv.cons_cases with ⟨rfl, hp⟩ | ⟨hp, hv⟩
    · simp [dropOwner, without, hp, hv.2]
    · simp [dropOwner, without, hp, Queue.not_points hp, ih hv]

/-- The frame of the handle that `v` alone owns. -/
theorem disarm_sole (hv : Sole v x hs) (hq : x.pHostQ = some .dataPtoC)
    (hp : x.pQdata = some p) : disarm v hs = some (p, spend v hs) := by
  induction hs with
  | nil => simp [Sole, handleOf] at hv
  | cons h hs ih =>
    rcases hv.cons_cases with ⟨rfl, hpt⟩ | ⟨hpt, hv⟩
    · simp [disarm, spend, hpt, hv.2, hq, hp]
    · simp [disarm, spend, hpt, Queue.not_points hpt, ih hv]

/-! ## One handle less, or without its frame -/

/-- Other variables keep their handles. -/
theorem handleOf_without (hv : Sole v x hs) (hw : w ≠ v) :
    handleOf w (without v hs) = handleOf w hs := by
  induction hs with
  | nil => rfl
  | cons h hs ih =>
    unfold handleOf without at ih ⊢
    rcases hv.cons_cases with ⟨rfl, hp⟩ | ⟨hp, hv'⟩
    · simp [hp, hv.not_points hw]
    · simp [hp, List.find?_cons, ih hv']

/-- Other variables keep their handles as they are. -/
theorem handleOf_spend (hv : Sole v x hs) (hw : w ≠ v) :
    handleOf w (spend v hs) = handleOf w hs := by
  induction hs with
  | nil => rfl
  | cons h hs ih =>
    unfold handleOf at ih ⊢
    rcases hv.cons_cases with ⟨rfl, hp⟩ | ⟨hp, hv'⟩
    · simp [spend, hp, hv.not_points hw]
    · simp [spend, hp, List.find?_cons, ih hv']

/-- A spent handle keeps its owner. -/
theorem Sole.spend (hv : Sole v x hs) :
    Sole v { x with pHostQ := none, pQdata := none } (spend v hs) := by
  refine ⟨?_, hv.2⟩
  induction hs with
  | nil => simp [Sole, handleOf] at hv
  | cons h hs ih =>
    unfold handleOf at ih ⊢
    rcases hv.cons_cases with ⟨rfl, hp⟩ | ⟨hp, hv'⟩
    · simp [Queue.spend, hp]
    · simp [Queue.spend, hp, ih hv']

/-- A handle that goes may be spent before. -/
theorem without_spend_self (v : Var) (hs : List QueParticleAr) :
    without v (spend v hs) = without v hs := by
  induction hs with
  | nil => rfl
  | cons h hs ih =>
    unfold without at ih ⊢
    cases hp : Points v h with
    | true => simp [spend, hp]
    | false => simp [spend, hp, ih]

/-- Spending one handle and dropping another, in either order. -/
theorem without_spend (hv : Sole v x hs) (hw : w ≠ v) :
    without v (spend w hs) = spend w (without v hs) := by
  induction hs with
  | nil => rfl
  | cons h hs ih =>
    unfold without at ih ⊢
    rcases hv.cons_cases with ⟨rfl, hp⟩ | ⟨hp, hv'⟩
    · simp [spend, hp, hv.not_points hw]
    · cases hwh : Points w h with
      | true => simp [spend, hp, hwh]
      | false => simp [spend, hp, hwh, ih hv']

/-! ## Sending -/

instance : Nonempty Choice := ⟨.none⟩

variable {c : Params} {t : Tid} {s s' : State} {pv : ℕ}

/-- `v` owns a producer's handle of `simpleQ_mpmc_ar_t` with the frame `p`, by itself. -/
def Sendable (hs : List QueParticleAr) (v : Var) (p : QueParticle) : Prop :=
  Sole v ⟨[.var v], some p, some .dataPtoC, false⟩ hs

/-- `v` owns a handle without a frame, by itself. -/
def Spent (hs : List QueParticleAr) (v : Var) : Prop :=
  Sole v ⟨[.var v], none, none, false⟩ hs

/-- Thread `t` puts frames into `_dataPtoC`, in order and without a token. -/
def State.publish (s : State) (t : Tid) (ps : List QueParticle) : State :=
  { s with
    queue := Function.update s.queue .dataPtoC
      (s.queue .dataPtoC ++ ps.map (Entry.mk (.thread t))) }

def State.withHandles (s : State) (hs : List QueParticleAr) : State := { s with handles := hs }

def State.withHeld (s : State) (held : List Held) : State := { s with held := held }

@[simp] theorem withHeld_held (s : State) (held : List Held) : (s.withHeld held).held = held := rfl

def State.withSize (s : State) (pv n : ℕ) : State :=
  { s with vecSize := Function.update s.vecSize pv n }

/-- Resetting a producer's handle publishes its frame. -/
theorem returns_reset_sendable (hv : Sendable s.handles v p) :
    (reset v).Returns (step c t) s () s' ↔
      s' = (s.publish t [p]).withHandles (without v s.handles) := by
  have hdrop : ∀ choice, step c t (.reset v) choice s =
      some (some ⟨[.var v], some p, some .dataPtoC, false⟩, { s with
        handles := without v s.handles
        held := ⟨t, .leaving .dataPtoC, p⟩ :: s.held }) := by
    intro choice
    simp [step, State.drop, dropOwner_sole hv, leaving, hold]
  unfold reset
  rw [returns_bind_of_step hdrop]
  unfold destroyDead QueParticleAr.destroy
  have henqueue : ∀ choice, step c t (.enqueue .dataPtoC false (some p)) choice { s with
        handles := without v s.handles
        held := ⟨t, .leaving .dataPtoC, p⟩ :: s.held } =
      some (true, (s.publish t [p]).withHandles (without v s.handles)) := by
    intro choice
    simp [step, State.publish, State.withHandles]
  rw [returns_bind_of_step henqueue, returns_pure]
  simp [eq_comm]

/-- Resetting a spent handle publishes nothing. -/
theorem returns_reset_spent (hv : Spent s.handles v) :
    (reset v).Returns (step c t) s () s' ↔ s' = s.withHandles (without v s.handles) := by
  have hdrop : ∀ choice, step c t (.reset v) choice s =
      some (some ⟨[.var v], none, none, false⟩, s.withHandles (without v s.handles)) := by
    intro choice
    simp [step, State.drop, dropOwner_sole hv, leaving, State.withHandles]
  unfold reset
  rw [returns_bind_of_step hdrop]
  unfold destroyDead QueParticleAr.destroy
  rw [returns_pure]
  simp [eq_comm]

/-! ## Many handles -/

def withoutAll (vs : List Var) (hs : List QueParticleAr) : List QueParticleAr :=
  vs.foldl (fun hs v => without v hs) hs

def spendAll (vs : List Var) (hs : List QueParticleAr) : List QueParticleAr :=
  vs.foldl (fun hs v => spend v hs) hs

theorem Sole.spend_of_ne (hw : Sole w h hs) (hv : Sole v x hs) (hne : w ≠ v) :
    Sole w h (Queue.spend v hs) :=
  ⟨(handleOf_spend hv hne).trans hw.1, hw.2⟩

theorem Sole.without_of_ne (hw : Sole w h hs) (hv : Sole v x hs) (hne : w ≠ v) :
    Sole w h (without v hs) :=
  ⟨(handleOf_without hv hne).trans hw.1, hw.2⟩

/-- Different elements of a vector are different variables. -/
theorem elem_ne {pv i j : ℕ} {is : List ℕ} (hi : i ∉ is) (hj : j ∈ is) :
    Var.elem pv j ≠ .elem pv i := fun heq => hi ((Var.elem.inj heq).2 ▸ hj)

/-- The owners of the rest keep their handles when one loses its frame. -/
theorem sole_tail {v : Var} {vs : List Var} (hvs : ∀ w ∈ v :: vs, ∃ y, Sole w y hs)
    (hv : v ∉ vs) : ∀ w ∈ vs, ∃ y, Sole w y (Queue.spend v hs) := by
  intro w hw
  obtain ⟨x, hx⟩ := hvs v List.mem_cons_self
  obtain ⟨y, hy⟩ := hvs w (List.mem_cons_of_mem v hw)
  exact ⟨y, hy.spend_of_ne hx fun heq => hv (heq ▸ hw)⟩

/-- A handle beside those that are spent. -/
theorem Sole.spendAll {vs : List Var} (hv : Sole v x hs) (hne : v ∉ vs)
    (hvs : ∀ w ∈ vs, ∃ y, Sole w y hs) (hnodup : vs.Nodup) : Sole v x (spendAll vs hs) := by
  induction vs generalizing hs with
  | nil => exact hv
  | cons w vs ih =>
    obtain ⟨y, hw⟩ := hvs w List.mem_cons_self
    obtain ⟨hwvs, hnodup'⟩ := List.nodup_cons.mp hnodup
    have hvw := hv.spend_of_ne hw (List.ne_of_not_mem_cons hne)
    exact ih hvw (List.not_mem_of_not_mem_cons hne) (sole_tail hvs hwvs) hnodup'

/-- Other handles that lose their frames do not stand in the way of one that goes. -/
theorem without_spendAll {vs : List Var} (hv : Sole v x hs) (hne : v ∉ vs)
    (hvs : ∀ w ∈ vs, ∃ y, Sole w y hs) (hnodup : vs.Nodup) :
    without v (Queue.spendAll vs hs) = Queue.spendAll vs (without v hs) := by
  induction vs generalizing hs with
  | nil => rfl
  | cons w vs ih =>
    have hwv : v ≠ w := List.ne_of_not_mem_cons hne
    obtain ⟨y, hw⟩ := hvs w List.mem_cons_self
    obtain ⟨hwvs, hnodup'⟩ := List.nodup_cons.mp hnodup
    calc without v (Queue.spendAll vs (Queue.spend w hs))
        = Queue.spendAll vs (without v (Queue.spend w hs)) :=
          ih (hv.spend_of_ne hw hwv) (List.not_mem_of_not_mem_cons hne) (sole_tail hvs hwvs) hnodup'
      _ = Queue.spendAll vs (Queue.spend w (without v hs)) := by
          rw [without_spend hv (Ne.symm hwv)]

/-- Handles that lost their frames first go like those that did not. -/
theorem withoutAll_spendAll {vs : List Var} (hvs : ∀ v ∈ vs, ∃ x, Sole v x hs)
    (hnodup : vs.Nodup) : withoutAll vs (spendAll vs hs) = withoutAll vs hs := by
  induction vs generalizing hs with
  | nil => rfl
  | cons v vs ih =>
    obtain ⟨x, hv⟩ := hvs v List.mem_cons_self
    obtain ⟨hvvs, hnodup'⟩ := List.nodup_cons.mp hnodup
    have hgone : ∀ w ∈ vs, ∃ y, Sole w y (without v hs) := by
      intro w hw
      obtain ⟨y, hy⟩ := hvs w (List.mem_cons_of_mem v hw)
      exact ⟨y, hy.without_of_ne hv fun heq => hvvs (heq ▸ hw)⟩
    calc withoutAll vs (without v (spendAll vs (Queue.spend v hs)))
        = withoutAll vs (spendAll vs (without v (Queue.spend v hs))) := by
          rw [without_spendAll hv.spend hvvs (sole_tail hvs hvvs) hnodup']
      _ = withoutAll vs (spendAll vs (without v hs)) := by rw [without_spend_self]
      _ = withoutAll vs (without v hs) := ih hgone hnodup'

/-- All of them are spent. -/
theorem spent_spendAll {vs : List Var} {tok : Bool} (hvs : ∀ v ∈ vs, ∃ p q,
    Sole v ⟨[.var v], p, q, tok⟩ hs) (hnodup : vs.Nodup) :
    ∀ v ∈ vs, Sole v ⟨[.var v], none, none, tok⟩ (spendAll vs hs) := by
  induction vs generalizing hs with
  | nil => simp
  | cons v vs ih =>
    obtain ⟨p, q, hv⟩ := hvs v List.mem_cons_self
    obtain ⟨hvvs, hnodup'⟩ := List.nodup_cons.mp hnodup
    have hrest : ∀ w ∈ vs, ∃ p q, Sole w ⟨[.var w], p, q, tok⟩ (Queue.spend v hs) := by
      intro w hw
      obtain ⟨p', q', hw'⟩ := hvs w (List.mem_cons_of_mem v hw)
      exact ⟨p', q', hw'.spend_of_ne hv fun heq => hvvs (heq ▸ hw)⟩
    intro w hw
    rcases List.mem_cons.mp hw with rfl | hw
    · apply hv.spend.spendAll hvvs _ hnodup'
      intro u hu
      obtain ⟨p', q', hu'⟩ := hrest u hu
      exact ⟨_, hu'⟩
    · exact ih hrest hnodup' w hw

/-! ## The frames in the hands of a call -/

/-- What came into the hands first goes out again. -/
theorem foldl_erase {α : Type} [DecidableEq α] {l xs : List α} (h : l.Perm xs) (ys : List α) :
    xs.foldl List.erase (l ++ ys) = ys := by
  induction xs generalizing l with
  | nil => rw [h.eq_nil, List.nil_append, List.foldl_nil]
  | cons x xs ih =>
    have hx : x ∈ l := h.mem_iff.mpr List.mem_cons_self
    rw [List.foldl_cons, List.erase_append_left _ hx]
    apply ih
    have := h.erase x
    rwa [List.erase_cons_head] at this

def leavingOf (t : Tid) (ps : List QueParticle) : List Held :=
  ps.map fun p => ⟨t, .leaving .dataPtoC, p⟩

/-- The frame of `v` goes from its handle into the hands of `t`. -/
def State.takenOut (s : State) (t : Tid) (v : Var) (p : QueParticle) : State :=
  (s.withHandles (spend v s.handles)).withHeld (⟨t, .leaving .dataPtoC, p⟩ :: s.held)

/-- The frames are taken out in order, and their handles are spent. -/
theorem returns_takeOutAll {is : List ℕ} {frame : ℕ → QueParticle} {ps : List QueParticle}
    (hnodup : is.Nodup) (hsend : ∀ i ∈ is, Sendable s.handles (.elem pv i) (frame i)) :
    (takeOutAll pv is).Returns (step c t) s ps s' ↔
      ps = is.map frame ∧ s' = (s.withHandles (spendAll (is.map (.elem pv)) s.handles)).withHeld
        ((leavingOf t (is.map frame)).reverse ++ s.held) := by
  induction is generalizing s s' ps with
  | nil =>
    simp only [takeOutAll, returns_pure, List.map_nil, eq_comm (a := ps)]
    exact and_congr_right fun _ => eq_comm
  | cons i is ih =>
    obtain ⟨hi, hnodup'⟩ := List.nodup_cons.mp hnodup
    have hv := hsend i List.mem_cons_self
    have hstep : ∀ choice, step c t (.takeOut (.elem pv i)) choice s =
        some (frame i, s.takenOut t (.elem pv i) (frame i)) := by
      intro choice
      simp [step, disarm_sole hv rfl rfl, State.takenOut, State.withHandles, State.withHeld]
    -- the other elements have handles of their own
    have hsend' : ∀ j ∈ is, Sendable (spend (.elem pv i) s.handles) (.elem pv j) (frame j) := by
      intro j hj
      exact (hsend j (List.mem_cons_of_mem i hj)).spend_of_ne hv (elem_ne hi hj)
    have hheld : (leavingOf t ((i :: is).map frame)).reverse ++ s.held =
        (leavingOf t (is.map frame)).reverse ++ ⟨t, .leaving .dataPtoC, frame i⟩ :: s.held := by
      simp [leavingOf]
    unfold takeOutAll
    rw [returns_bind_of_step hstep, returns_bind, hheld]
    constructor
    · rintro ⟨ps₁, s₁, htake, hcons, hs'⟩
      obtain ⟨hps, hs₁⟩ := ih (s := s.takenOut t (.elem pv i) (frame i)) hnodup' hsend' |>.mp htake
      rw [← hcons, hps, ← hs', hs₁]
      exact ⟨rfl, rfl⟩
    · rintro ⟨hps, hs'⟩
      refine ⟨is.map frame, s', ?_, hps.symm, rfl⟩
      exact ih (s := s.takenOut t (.elem pv i) (frame i)) hnodup' hsend' |>.mpr ⟨rfl, hs'⟩

/-- What was taken out is published in order. -/
theorem returns_enqueueBulk (ps : List QueParticle) :
    (enqueueBulk .dataPtoC ps).Returns (step c t) s () s' ↔
      s' = (s.publish t ps).withHeld ((leavingOf t ps).foldl List.erase s.held) := by
  unfold enqueueBulk
  induction ps generalizing s with
  | nil => rw [returns_nil]; simp [State.publish, State.withHeld, leavingOf, eq_comm]
  | cons p ps ih =>
    have hstep : ∀ choice, step c t (.enqueue .dataPtoC false (some p)) choice s =
        some (true, (s.publish t [p]).withHeld (s.held.erase ⟨t, .leaving .dataPtoC, p⟩)) := by
      intro choice
      simp [step, State.publish, State.withHeld]
    rw [returns_cons]
    simp only [returns_bind_of_step hstep, returns_pure]
    constructor
    · rintro ⟨s₁, ⟨_, hs₁⟩, hs'⟩
      rw [← hs₁, ih] at hs'
      rw [hs']
      simp [State.publish, State.withHeld, leavingOf]
    · intro hs'
      refine ⟨_, ⟨trivial, rfl⟩, ih.mpr ?_⟩
      rw [hs']
      simp [State.publish, State.withHeld, leavingOf]

/-- The spent handles go without an effect on the queues. -/
theorem returns_resets {is : List ℕ} (hnodup : is.Nodup)
    (hspent : ∀ i ∈ is, Spent s.handles (.elem pv i)) :
    (Prog.forEach (fun i => reset (.elem pv i)) is).Returns (step c t) s () s' ↔
      s' = s.withHandles (withoutAll (is.map (.elem pv)) s.handles) := by
  induction is generalizing s with
  | nil => rw [returns_nil]; simp [State.withHandles, withoutAll, eq_comm]
  | cons i is ih =>
    obtain ⟨hi, hnodup'⟩ := List.nodup_cons.mp hnodup
    have hv := hspent i List.mem_cons_self
    have hspent' : ∀ j ∈ is, Spent (without (.elem pv i) s.handles) (.elem pv j) := by
      intro j hj
      exact (hspent j (List.mem_cons_of_mem i hj)).without_of_ne hv (elem_ne hi hj)
    have hrest := @ih (s.withHandles (without (.elem pv i) s.handles)) hnodup' hspent'
    rw [returns_cons]
    simp only [returns_reset_spent hv]
    constructor
    · rintro ⟨s₁, hs₁, hs'⟩
      rw [hs₁, hrest] at hs'
      exact hs'
    · intro hs'
      exact ⟨_, rfl, hrest.mpr hs'⟩

/-! ## One call -/

theorem direct_destroyDead (dead : Option QueParticleAr) : (destroyDead dead).Direct := by
  cases dead with
  | none => exact trivial
  | some h =>
    unfold destroyDead QueParticleAr.destroy
    dsimp only
    split
    · exact direct_bind (direct_perform _) fun _ => trivial
    · exact trivial

theorem direct_reset (v : Var) : (reset v).Direct :=
  direct_bind (direct_perform _) direct_destroyDead

theorem direct_resize (pv n : ℕ) : (resize pv n).Direct := by
  apply direct_bind (direct_perform _)
  intro size
  apply direct_bind (direct_forEach (fun i => direct_reset (.elem pv i)) _)
  intro _
  exact direct_perform _

theorem direct_takeOutAll (pv : ℕ) (is : List ℕ) : (takeOutAll pv is).Direct := by
  induction is with
  | nil => exact trivial
  | cons i is ih =>
    apply direct_bind (direct_perform _)
    intro p
    exact direct_bind ih fun _ => trivial

theorem direct_pSendBulk (pv : ℕ) : (pSendBulk pv).Direct := by
  apply direct_bind (direct_perform _)
  intro size
  apply direct_bind (direct_takeOutAll pv _)
  intro ps
  have henqueue : (enqueueBulk .dataPtoC ps).Direct := by
    apply direct_forEach
    intro p
    exact direct_bind (direct_perform _) fun _ => trivial
  exact direct_bind henqueue fun _ => direct_resize pv 0

variable {k k' : Threads}

/-- `P_send`, as a call that nobody interrupts. -/
theorem call_pSend (hk : k.running t = none) (hv : Sendable k.state.handles v p) :
    (system c).Call t (.pSend v) none k k' ↔
      k' = ⟨(k.state.publish t [p]).withHandles (without v k.state.handles), k.running⟩ := by
  have hbody : (body c (.pSend v)).Direct := direct_bind (direct_reset v) fun _ => trivial
  rw [System.call_iff hbody, and_iff_right hk]
  show (∃ s, (reset v >>= fun _ => pure none).Returns (step c t) k.state none s ∧ _) ↔ _
  simp only [returns_seq_of_iff fun _ => returns_reset_sendable hv, returns_pure]
  constructor
  · rintro ⟨s, ⟨_, hs⟩, hk'⟩
    rw [hk', ← hs]
  · intro hk'
    exact ⟨_, ⟨trivial, rfl⟩, hk'⟩

/-- The state after the elements `is` of `pv` are sent. -/
def State.sent (s : State) (t : Tid) (pv : ℕ) (frame : ℕ → QueParticle) (is : List ℕ) : State :=
  (s.publish t (is.map frame)).withHandles (withoutAll (is.map (.elem pv)) s.handles)

/-- One `P_send` for each element. -/
theorem calls_pSend {is : List ℕ} {frame : ℕ → QueParticle} (hk : k.running t = none)
    (hnodup : is.Nodup) (hsend : ∀ i ∈ is, Sendable k.state.handles (.elem pv i) (frame i)) :
    (system c).Calls t (is.map fun i => (.pSend (.elem pv i), none)) k k' ↔
      k' = ⟨k.state.sent t pv frame is, k.running⟩ := by
  induction is generalizing k with
  | nil =>
    have hnil : k.state.sent t pv frame [] = k.state := by
      simp [State.sent, State.publish, State.withHandles, withoutAll]
    rw [hnil]
    exact eq_comm
  | cons i is ih =>
    obtain ⟨hi, hnodup'⟩ := List.nodup_cons.mp hnodup
    have hv := hsend i List.mem_cons_self
    have hsend' : ∀ j ∈ is,
        Sendable (without (.elem pv i) k.state.handles) (.elem pv j) (frame j) := by
      intro j hj
      exact (hsend j (List.mem_cons_of_mem i hj)).without_of_ne hv (elem_ne hi hj)
    have hrest := @ih ⟨(k.state.publish t [frame i]).withHandles
      (without (.elem pv i) k.state.handles), k.running⟩ hk hnodup' hsend'
    -- sending one and then the others is sending them all
    have hsent : State.sent ((k.state.publish t [frame i]).withHandles
        (without (.elem pv i) k.state.handles)) t pv frame is =
        k.state.sent t pv frame (i :: is) := by
      simp [State.sent, State.publish, State.withHandles, withoutAll]
    rw [hsent] at hrest
    constructor
    · rintro ⟨k₁, hcall, hcalls⟩
      rw [(call_pSend hk hv).mp hcall] at hcalls
      exact hrest.mp hcalls
    · intro hk'
      exact ⟨_, (call_pSend hk hv).mpr rfl, hrest.mpr hk'⟩

theorem step_size (s : State) (choice : Choice) :
    step c t (.size pv) choice s = some (s.vecSize pv, s) := rfl

theorem step_setSize (s : State) (n : ℕ) (choice : Choice) :
    step c t (.setSize pv n) choice s =
      some ((), s.withSize pv n) := rfl

/-- The frames are out of the handles and in the queue. -/
theorem publish_takenOut (ps : List QueParticle) (hs : List QueParticleAr) :
    (((s.withHandles hs).withHeld ((leavingOf t ps).reverse ++ s.held)).publish t ps).withHeld
      ((leavingOf t ps).foldl List.erase ((leavingOf t ps).reverse ++ s.held)) =
    (s.publish t ps).withHandles hs := by
  rw [foldl_erase (List.reverse_perm _)]
  rfl

/-- `P_send_bulk` publishes what its vector has and empties it. -/
theorem returns_pSendBulk {frame : ℕ → QueParticle}
    (hsend : ∀ i < s.vecSize pv, Sendable s.handles (.elem pv i) (frame i)) :
    (pSendBulk pv).Returns (step c t) s () s' ↔
      s' = (s.sent t pv frame (List.range (s.vecSize pv))).withSize pv 0 := by
  generalize his : List.range (s.vecSize pv) = is
  have hnodup : is.Nodup := his ▸ List.nodup_range
  have hsend' : ∀ i ∈ is, Sendable s.handles (.elem pv i) (frame i) := by
    intro i hi
    rw [← his] at hi
    exact hsend i (List.mem_range.mp hi)
  have hvars : (is.map (Var.elem pv)).Nodup := hnodup.map fun i j h => (Var.elem.inj h).2
  have hsole : ∀ v ∈ is.map (Var.elem pv), ∃ p q, Sole v ⟨[.var v], p, q, false⟩ s.handles := by
    intro v hv
    obtain ⟨i, hi, hiv⟩ := List.mem_map.mp hv
    rw [← hiv]
    exact ⟨_, _, hsend' i hi⟩
  have hspent : ∀ i ∈ is, Spent (spendAll (is.map (.elem pv)) s.handles) (.elem pv i) :=
    fun i hi => spent_spendAll hsole hvars _ (List.mem_map_of_mem hi)
  -- a handle is dropped whether its frame is still there or not
  have hwithout : withoutAll (is.map (.elem pv)) (spendAll (is.map (.elem pv)) s.handles) =
      withoutAll (is.map (.elem pv)) s.handles := by
    apply withoutAll_spendAll _ hvars
    intro v hv
    obtain ⟨_, _, hx⟩ := hsole v hv
    exact ⟨_, hx⟩
  have hresets := @returns_resets c t
    ((s.publish t (is.map frame)).withHandles (spendAll (is.map (.elem pv)) s.handles))
  unfold pSendBulk resize
  rw [returns_bind_of_step (step_size s), his,
    returns_bind_of_iff fun _ _ => returns_takeOutAll hnodup hsend',
    returns_seq_of_iff fun _ => returns_enqueueBulk _, returns_bind_of_step (step_size _)]
  rw [withHeld_held, publish_takenOut]
  show (Prog.forEach (fun i => reset (.elem pv i)) (List.range (s.vecSize pv)) >>= _).Returns
    _ _ _ _ ↔ _
  rw [his, returns_seq_of_iff fun _ => hresets hnodup hspent,
    returns_perform_of_step (step_setSize _ 0), and_iff_right rfl]
  unfold State.sent
  rw [← hwithout]
  rfl

/-- The same, as a call that nobody interrupts. -/
theorem call_pSendBulk {frame : ℕ → QueParticle} (hk : k.running t = none)
    (hsend : ∀ i < k.state.vecSize pv, Sendable k.state.handles (.elem pv i) (frame i)) :
    (system c).Call t (.pSendBulk pv) none k k' ↔
      k' = ⟨(k.state.sent t pv frame (List.range (k.state.vecSize pv))).withSize pv 0,
        k.running⟩ := by
  have hbody : (body c (.pSendBulk pv)).Direct := direct_bind (direct_pSendBulk pv) fun _ => trivial
  rw [System.call_iff hbody, and_iff_right hk]
  show (∃ s, (pSendBulk pv >>= fun _ => pure none).Returns (step c t) k.state none s ∧ _) ↔ _
  simp only [returns_seq_of_iff fun _ => returns_pSendBulk hsend, returns_pure]
  constructor
  · rintro ⟨s, ⟨_, hs⟩, hk'⟩
    rw [hk', ← hs]
  · intro hk'
    exact ⟨_, ⟨trivial, rfl⟩, hk'⟩

end Queue
end S4LibLite
