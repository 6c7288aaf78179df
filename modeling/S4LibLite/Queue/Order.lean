import S4LibLite.Lib.Runs
import S4LibLite.Queue.BulkTheorems

/-!
# The order of the frames

A handle that dies publishes its frame through the token of the producer, `P_send_bulk`
without: two sub-queues of `_dataPtoC`, and only within each of them the order is kept.

* `oneWay_iff`, when the next frame is the one that was published first;
* `step_order`, what one action does to the frames that are pending;
* `obtained_in_order`, where no frame meets one that went the other way;
* `bulk_overtakes`, where one does.
-/

namespace S4LibLite
namespace Queue

open Interleaving

variable {c : Params} {s s' : State} {t : Tid} {a : Action} {choice : Choice}

/-! ## Publishing and obtaining -/

/-- The sub-queue that `enqueue` of thread `t` goes through, with the token or without. -/
def producerOf (t : Tid) (tok : Bool) : Producer := if tok then .token else .thread t

/-- What goes into `_dataPtoC`. -/
def published (t : Tid) : Action → Option Entry
  | .enqueue .dataPtoC tok (some p) => some ⟨producerOf t tok, p⟩
  | _ => none

/-- The queue that gives a frame away, and which of its elements. -/
def taken : Action → Choice → Option (QueueId × ℕ)
  | .dequeue q, .element i => some (q, i)
  | _, _ => none

/-- The frame that a producer publishes. -/
def publishes (_ : State) (t : Tid) (a : Action) (_ : Choice) : Option QueParticle :=
  (published t a).map Entry.particle

/-- The frame that a consumer obtains. -/
def obtains (s : State) (_ : Tid) (a : Action) (choice : Choice) : Option QueParticle :=
  match taken a choice with
  | some (.dataPtoC, i) => (s.queue .dataPtoC)[i]?.map Entry.particle
  | _ => none

/-- The frames that are published and not obtained yet. -/
def State.pending (s : State) : List QueParticle := (s.queue .dataPtoC).map Entry.particle

/-- Nothing is taken before what was enqueued earlier through the same sub-queue. -/
def Fifo (s : State) (_ : Tid) (a : Action) (choice : Choice) : Prop :=
  ∀ x ∈ taken a choice, ∀ e ∈ (s.queue x.1)[x.2]?, ∀ e' ∈ (s.queue x.1).take x.2,
    e'.producer ≠ e.producer

/-- What is published goes through the sub-queue of everything that is pending. -/
def SameWay (s : State) (t : Tid) (a : Action) (_ : Choice) : Prop :=
  ∀ e ∈ published t a, ∀ e' ∈ s.queue .dataPtoC, e'.producer = e.producer

/-- The thread whose part an action on the queues is. -/
def worker (prod cons : Tid) : Action → Option Tid
  | .dequeue .dataPool => some prod
  | .enqueue .dataPtoC .. => some prod
  | .dequeue .dataPtoC => some cons
  | .enqueue .dataPool .. => some cons
  | _ => none

/-- Thread `prod` is the only producer, and thread `cons` the only consumer. -/
def OneEach (prod cons : Tid) (_ : State) (t : Tid) (a : Action) (_ : Choice) : Prop :=
  ∀ u ∈ worker prod cons a, t = u

/-- Everything that is pending went through one sub-queue. -/
def State.OneWay (s : State) : Prop :=
  ∀ e ∈ s.queue .dataPtoC, ∀ e' ∈ s.queue .dataPtoC, e'.producer = e.producer

/-! ## One action -/

/-- An action that leaves the queue to the consumers alone. -/
theorem order_of_queue (hone : s.OneWay) (hput : published t a = none)
    (hgot : obtains s t a choice = none) (hqueue : s'.queue .dataPtoC = s.queue .dataPtoC) :
    s'.OneWay ∧ s.pending ++ (publishes s t a choice).toList =
      (obtains s t a choice).toList ++ s'.pending := by
  unfold State.OneWay State.pending publishes
  rw [hqueue, hput, hgot]
  exact ⟨hone, List.append_nil _⟩

/-- A queue in order has to give its first element away where everything went one way, and
only there. -/
theorem oneWay_iff : s.OneWay ↔ ∀ i e, (s.queue .dataPtoC)[i]? = some e →
    Fifo s t (.dequeue .dataPtoC) (.element i) → i = 0 := by
  constructor
  · intro hone i e he hfifo
    by_contra hi
    have hlt : i < (s.queue .dataPtoC).length := (List.getElem?_eq_some_iff.mp he).1
    have hfirst : (s.queue .dataPtoC)[0] ∈ (s.queue .dataPtoC).take i :=
      List.mem_take_iff_getElem.mpr ⟨0, by omega, rfl⟩
    apply hfifo (.dataPtoC, i) rfl e he _ hfirst
    exact hone e (List.mem_of_getElem? he) _ (List.getElem_mem (by omega))
  · intro hfirst
    -- the first element that did not go the way of the element 0 could be given away
    have hall : ∀ (i : ℕ) (e e₀ : Entry), (s.queue .dataPtoC)[i]? = some e →
        (s.queue .dataPtoC)[0]? = some e₀ → e.producer = e₀.producer := by
      intro i
      induction i using Nat.strong_induction_on with
      | _ i ih =>
        intro e e₀ he he₀
        by_contra hne
        have hfifo : Fifo s t (.dequeue .dataPtoC) (.element i) := by
          intro x hx e₁ he₁ e₂ he₂ heq
          rw [← Option.some.inj hx] at he₁ he₂
          dsimp only at he₁ he₂
          rw [← Option.some.inj (he.symm.trans he₁)] at heq
          obtain ⟨j, hj, hget⟩ := List.mem_take_iff_getElem.mp he₂
          have hsame := ih j (by omega) e₂ e₀ (List.getElem?_eq_some_iff.mpr ⟨by omega, hget⟩) he₀
          exact hne (heq.symm.trans hsame)
        have hi := hfirst i e he hfifo
        rw [hi, he₀] at he
        exact hne (congrArg _ (Option.some.inj he).symm)
    intro e he e' he'
    obtain ⟨i, hi, hget⟩ := List.mem_iff_getElem.mp he
    obtain ⟨j, hj, hget'⟩ := List.mem_iff_getElem.mp he'
    have he₀ : (s.queue .dataPtoC)[0]? = some ((s.queue .dataPtoC)[0]) :=
      List.getElem?_eq_getElem (by omega)
    rw [hall i e _ (List.getElem?_eq_some_iff.mpr ⟨hi, hget⟩) he₀,
      hall j e' _ (List.getElem?_eq_some_iff.mpr ⟨hj, hget'⟩) he₀]

/-- The element in front is obtained. -/
theorem order_of_dequeue (hone : s.OneWay) {i : ℕ}
    (hfifo : Fifo s t (.dequeue .dataPtoC) (.element i)) {e : Entry}
    (he : (s.queue .dataPtoC)[i]? = some e)
    (hqueue : s'.queue .dataPtoC = (s.queue .dataPtoC).eraseIdx i) :
    s'.OneWay ∧ s.pending ++ (publishes s t (.dequeue .dataPtoC) (.element i)).toList =
      (obtains s t (.dequeue .dataPtoC) (.element i)).toList ++ s'.pending := by
  have hget : obtains s t (.dequeue .dataPtoC) (.element i) = some e.particle := by
    simp [obtains, taken, he]
  -- where everything went one way, only the oldest entry can go
  have hi : i = 0 := oneWay_iff.mp hone i e he hfifo
  rw [hi] at he hqueue
  obtain ⟨es, hes⟩ : ∃ es, s.queue .dataPtoC = e :: es := by
    cases hq : s.queue .dataPtoC with
    | nil => simp [hq] at he
    | cons e₀ es => exact ⟨es, by simpa [hq] using he⟩
  have hqueue' : s'.queue .dataPtoC = es := by
    rw [hqueue, hes]
    rfl
  unfold State.OneWay State.pending at *
  rw [hget, hqueue', hes]
  rw [hes] at hone
  refine ⟨fun x hx y hy => ?_, by simp [publishes, published]⟩
  exact hone x (List.mem_cons_of_mem _ hx) y (List.mem_cons_of_mem _ hy)

/-- What is published comes behind the others. -/
theorem order_of_enqueue {tok : Bool} {p : QueParticle}
    (hway : SameWay s t (.enqueue .dataPtoC tok (some p)) choice)
    (hqueue : s'.queue .dataPtoC = s.queue .dataPtoC ++ [⟨producerOf t tok, p⟩]) :
    s'.OneWay ∧ s.pending ++ (publishes s t (.enqueue .dataPtoC tok (some p)) choice).toList =
      (obtains s t (.enqueue .dataPtoC tok (some p)) choice).toList ++ s'.pending := by
  have hnew : ∀ e ∈ s.queue .dataPtoC ++ [⟨producerOf t tok, p⟩],
      e.producer = producerOf t tok := by
    intro e he
    rcases List.mem_append.mp he with he | he
    · exact hway ⟨producerOf t tok, p⟩ rfl e he
    · rw [List.mem_singleton.mp he]
  unfold State.OneWay State.pending
  rw [hqueue]
  refine ⟨fun x hx y hy => ?_, by simp [publishes, published, obtains, taken]⟩
  rw [hnew x hx, hnew y hy]

/-- **One step** keeps what is pending between what was published and what was obtained. -/
theorem step_order {r : Answer a} (hone : s.OneWay) (hfifo : Fifo s t a choice)
    (hway : SameWay s t a choice) (h : step c t a choice s = some (r, s')) :
    s'.OneWay ∧ s.pending ++ (publishes s t a choice).toList =
      (obtains s t a choice).toList ++ s'.pending := by
  cases a with
  | dequeue q =>
    rcases step_dequeue_cases h with ⟨i, e, rfl, he, _, rfl⟩ | ⟨hchoice, _, rfl⟩
    · cases q with
      | dataPool => exact order_of_queue hone rfl rfl (by simp)
      | dataPtoC => exact order_of_dequeue hone hfifo he (by simp)
    · have hnone : taken (.dequeue q) choice = none := by
        cases choice with
        | element i => exact absurd rfl (hchoice i)
        | none | base mem => rfl
      exact order_of_queue hone rfl (by simp only [obtains, hnone]) rfl
  | enqueue q tok d =>
    obtain ⟨p, rfl, _, rfl⟩ := step_enqueue_eq h
    cases q with
    | dataPool => exact order_of_queue hone rfl rfl (by simp)
    | dataPtoC => exact order_of_enqueue hway (by simp [producerOf])
  | enqueueNew p =>
    rw [← (Prod.mk.inj (Option.some.inj h)).2]
    exact order_of_queue hone rfl rfl (by simp)
  | copy v w =>
    rcases step_copy_cases h with ⟨_, rfl⟩ | ⟨_, rfl⟩
    · exact order_of_queue hone rfl rfl rfl
    · exact order_of_queue hone rfl rfl rfl
  | takeOut v =>
    obtain ⟨hs, _, rfl⟩ := step_takeOut_eq h
    exact order_of_queue hone rfl rfl rfl
  | posixMemalign len num =>
    rcases step_posixMemalign_cases h with ⟨base, _, _, _, rfl⟩ | ⟨_, _, rfl⟩
    · exact order_of_queue hone rfl rfl rfl
    · exact order_of_queue hone rfl rfl rfl
  | makeShared pD pQ tok | moveTmp v | reset v | size pv | setSize pv n | hostMem mem len
  | addDepth n =>
    rw [← (Prod.mk.inj (Option.some.inj h)).2]
    exact order_of_queue hone rfl rfl rfl

/-! ## Runs -/

variable {k : Threads} {es : List QEvent}

/-- In every run in which `_dataPtoC` keeps each of its sub-queues in order, and whatever is
published goes the way of all that is pending, the consumers obtain the frames in the order in
which they are published; the others are pending, in that order. -/
theorem obtained_in_order (hrun : (system c).run start es = some k)
    (hfifo : (system c).Meets Fifo start es) (hway : (system c).Meets SameWay start es) :
    (system c).log publishes start es = (system c).log obtains start es ++ k.state.pending := by
  have hstart : start.state.OneWay := by simp [State.OneWay, start, State.init]
  exact System.run_conserves (I := State.OneWay)
    (fun hone hok hstep => step_order hone hok.1 hok.2 hstep) hstart (hfifo.and hway) hrun

instance (s t a choice) : Decidable (Fifo s t a choice) :=
  inferInstanceAs (Decidable (∀ x ∈ taken a choice, ∀ e ∈ (s.queue x.1)[x.2]?,
    ∀ e' ∈ (s.queue x.1).take x.2, e'.producer ≠ e.producer))

instance (s t a choice) : Decidable (SameWay s t a choice) :=
  inferInstanceAs (Decidable (∀ e ∈ published t a, ∀ e' ∈ s.queue .dataPtoC,
    e'.producer = e.producer))

instance (prod cons s t a choice) : Decidable (OneEach prod cons s t a choice) :=
  inferInstanceAs (Decidable (∀ u ∈ worker prod cons a, t = u))

/-- Thread 1 has the two frames of a queue: one in the vector 0, one in the variable 0. -/
def twoProducts : List QEvent :=
  constructSliced 2 ++ fillOne 0 ++
    [.call 1 (.pGet (.var 0)), .go 1 (.element 0), .go 1 .none, .go 1 .none, .go 1 .none]

def sendOne : List QEvent := .call 1 (.pSend (.var 0)) :: List.replicate 3 (.go 1 .none)

def sendBulk : List QEvent := .call 1 (.pSendBulk 0) :: List.replicate 7 (.go 1 .none)

/-- Thread 2 receives the element `i`, into the variable `n`. -/
def receive (n i : ℕ) : List QEvent :=
  [.call 2 (.cRecvTry (.var n)), .go 2 (.element i)] ++ List.replicate 3 (.go 2 .none)

/-- Both ways, and the second only when nothing is pending. -/
def turns : List QEvent :=
  twoProducts ++ sendOne ++ receive 1 0 ++ sendBulk ++ receive 2 0

def afterTurns : Threads :=
  ((system ⟨4096, false, true⟩).run start turns).get (by decide +kernel)

theorem obtained_in_order_turns : (system ⟨4096, false, true⟩).log publishes start turns =
    (system ⟨4096, false, true⟩).log obtains start turns ++ afterTurns.state.pending :=
  obtained_in_order (Option.some_get _).symm (by decide +kernel) (by decide +kernel)

/-- The frame that `P_send_bulk` sends comes out before the one that `P_send` sent. -/
theorem bulk_overtakes : ¬ ∀ (c : Params) (prod cons : Tid) (es : List QEvent) (k : Threads),
    c.spmc = true → (system c).run start es = some k → (system c).Meets Fifo start es →
      (system c).Meets (OneEach prod cons) start es →
        (system c).log obtains start es <+: (system c).log publishes start es := by
  intro horder
  have hsome : ((system ⟨4096, false, true⟩).run start
      (twoProducts ++ sendOne ++ sendBulk ++ receive 1 1)).isSome := by decide +kernel
  have h := horder ⟨4096, false, true⟩ 1 2 _ _ rfl (Option.some_get hsome).symm
    (by decide +kernel) (by decide +kernel)
  revert h
  decide +kernel

end Queue
end S4LibLite
