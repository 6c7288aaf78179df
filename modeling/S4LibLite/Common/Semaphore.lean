import Mathlib.Logic.Relation
import S4LibLite.Lib.Occupancy

/-!
# The semaphore (`s4semaphore.h`) as the barrier of `test_semaphore.cpp`

`semaphore_t` counts permits and, apart from them, threads that have reported ready. The
test lets a producer start rounds of work with it: it spins until all consumers are ready,
clears their reports and hands out one permit for each. The two counters are `int`; they are
integers here, and stay between zero and the number of consumers.

* `Inv`, what ties permits and reports to the number of waiting consumers;
* `Reachable.inv`, every interleaving keeps it;
* `barrier_safe`, no consumer works while the producer holds the barrier, and no permit is
  lost or created.
-/

namespace S4LibLite.Sema

open Occupancy

/-! ## `semaphore_t` -/

structure Semaphore where
  ready : ℤ
  count : ℤ
deriving DecidableEq, Repr

namespace Semaphore

/-- A constructed `semaphore_t`. -/
def init : Semaphore := ⟨0, 0⟩

/-- `setReady`. -/
def setReady (s : Semaphore) : Semaphore := { s with ready := s.ready + 1 }

/-- `clrReady`. -/
def clrReady (s : Semaphore) : Semaphore := { s with ready := 0 }

/-- `getReady`. -/
def getReady (s : Semaphore) : ℤ := s.ready

/-- `notify`. -/
def notify (n : ℤ) (s : Semaphore) : Semaphore := { s with count := s.count + n }

/-- `wait`, what it returns and leaves behind; `none` while it blocks. -/
def wait (s : Semaphore) : Option (ℤ × Semaphore) :=
  if 0 < s.count then some (s.count - 1, { s with count := s.count - 1 }) else none

theorem wait_eq_some {s s' : Semaphore} {n : ℤ} (h : s.wait = some (n, s')) :
    0 < s.count ∧ s' = { s with count := s.count - 1 } := by
  unfold wait at h
  by_cases hpos : 0 < s.count
  · rw [if_pos hpos] at h
    exact ⟨hpos, (Prod.mk.inj (Option.some.inj h)).2.symm⟩
  · rw [if_neg hpos] at h
    exact absurd h (by simp)

end Semaphore

/-! ## Producer and consumers -/

/-- What a consumer does next: `setReady`, return from `wait`, or end its work. -/
inductive Consumer
  | starting | waiting | working
deriving DecidableEq, Repr

/-- What the producer does next: read `getReady()`, `clrReady`, or `notify`. -/
inductive Producer
  | spinning | clearing | notifying
deriving DecidableEq, Repr

/-- One producer and `N` consumers. `issued` and `taken` are ghosts: the permits handed out
so far, and those `wait` has returned for. -/
structure Barrier (N : ℕ) where
  sema : Semaphore
  producer : Producer
  consumer : Fin N → Consumer
  issued : ℤ
  taken : ℤ

variable {N : ℕ}

/-- Before any thread has run. -/
def Barrier.init : Barrier N where
  sema := .init
  producer := .spinning
  consumer _ := .starting
  issued := 0
  taken := 0

/-- One atomic step of one thread. -/
inductive Step : Barrier N → Barrier N → Prop
  | setReady {s : Barrier N} (i : Fin N) (hi : s.consumer i = .starting) :
    Step s { s with
      sema := s.sema.setReady
      consumer := Function.update s.consumer i .waiting }
  | wait {s : Barrier N} (i : Fin N) (hi : s.consumer i = .waiting) {n : ℤ} {sema : Semaphore}
      (hwait : s.sema.wait = some (n, sema)) :
    Step s { s with
      sema := sema
      consumer := Function.update s.consumer i .working
      taken := s.taken + 1 }
  | work {s : Barrier N} (i : Fin N) (hi : s.consumer i = .working) :
    Step s { s with consumer := Function.update s.consumer i .starting }
  | spin {s : Barrier N} (hp : s.producer = .spinning) (hready : s.sema.getReady ≠ N) : Step s s
  | observe {s : Barrier N} (hp : s.producer = .spinning) (hready : s.sema.getReady = N) :
    Step s { s with producer := .clearing }
  | clrReady {s : Barrier N} (hp : s.producer = .clearing) :
    Step s { s with sema := s.sema.clrReady, producer := .notifying }
  | notify {s : Barrier N} (hp : s.producer = .notifying) :
    Step s { s with
      sema := s.sema.notify N
      producer := .spinning
      issued := s.issued + N }

/-- Any number of steps of any threads, in any order. -/
def Reachable (s : Barrier N) : Prop := Relation.ReflTransGen Step .init s

/-! ## The invariant -/

/-- While the producer spins, a waiting consumer has either reported or a permit to take.
Once it has seen all reports, everyone waits and there is no permit. -/
structure Inv (s : Barrier N) : Prop where
  count_nonneg : 0 ≤ s.sema.count
  ready_nonneg : 0 ≤ s.sema.ready
  ready_le : s.sema.ready ≤ N
  balance : s.taken + s.sema.count = s.issued
  spinning : s.producer = .spinning →
    (occupancy s.consumer .waiting : ℤ) = s.sema.count + s.sema.ready
  held : s.producer ≠ .spinning → s.sema.count = 0 ∧ ∀ i, s.consumer i = .waiting
  cleared : s.producer = .notifying → s.sema.ready = 0

theorem inv_init : Inv (.init : Barrier N) where
  count_nonneg := le_rfl
  ready_nonneg := le_rfl
  ready_le := Int.natCast_nonneg N
  balance := rfl
  spinning _ := by
    have hnone : occupancy (Barrier.init : Barrier N).consumer .waiting = 0 := by
      simp [occupancy, Barrier.init]
    rw [hnone]
    rfl
  held h := absurd rfl h
  cleared h := absurd h (by simp [Barrier.init])

variable {s s' : Barrier N}

/-- A consumer that is not waiting is not held by the producer. -/
theorem Inv.spinning_of_ne (h : Inv s) {i : Fin N} (hi : s.consumer i ≠ .waiting) :
    s.producer = .spinning := by
  by_contra hp
  exact hi ((h.held hp).2 i)

/-- The reports of all consumers: everyone waits, and no permit is left. -/
theorem Inv.of_ready (h : Inv s) (hp : s.producer = .spinning) (hready : s.sema.ready = N) :
    s.sema.count = 0 ∧ ∀ i, s.consumer i = .waiting := by
  have hbalance := h.spinning hp
  have hle := occupancy_le s.consumer .waiting
  have hcount := h.count_nonneg
  rw [Fintype.card_fin] at hle
  refine ⟨by omega, occupancy_eq_card_iff.mp ?_⟩
  rw [Fintype.card_fin]
  omega

/-- While the producer spins, the counters and the waiting consumers say it all: the other
fields speak of a producer that holds the barrier. -/
theorem Inv.of_spinning (hp : s.producer = .spinning) (hcount : 0 ≤ s.sema.count)
    (hready : 0 ≤ s.sema.ready) (hbalance : s.taken + s.sema.count = s.issued)
    (hwaiting : (occupancy s.consumer .waiting : ℤ) = s.sema.count + s.sema.ready) : Inv s where
  count_nonneg := hcount
  ready_nonneg := hready
  ready_le := by
    have hle := occupancy_le s.consumer .waiting
    rw [Fintype.card_fin] at hle
    omega
  balance := hbalance
  spinning _ := hwaiting
  held hne := absurd hp hne
  cleared hn := absurd (hp.symm.trans hn) (by decide)

/-- A consumer reports ready and waits: one waiting consumer more, and one report. -/
theorem Inv.setReady (h : Inv s) {i : Fin N} (hi : s.consumer i = .starting) :
    Inv { s with
      sema := s.sema.setReady
      consumer := Function.update s.consumer i .waiting } := by
  have hp : s.producer = .spinning := h.spinning_of_ne (by rw [hi]; decide)
  have hready := h.ready_nonneg
  have hbalance := h.spinning hp
  have hocc := occupancy_update s.consumer i .waiting .waiting
  rw [hi, if_neg (by decide), if_pos rfl] at hocc
  refine .of_spinning hp h.count_nonneg ?_ h.balance ?_
  · show 0 ≤ s.sema.ready + 1
    omega
  · show (occupancy (Function.update s.consumer i .waiting) .waiting : ℤ)
      = s.sema.count + (s.sema.ready + 1)
    omega

/-- A consumer takes a permit and works: one waiting consumer less, and one permit. -/
theorem Inv.wait (h : Inv s) {i : Fin N} (hi : s.consumer i = .waiting) {n : ℤ}
    {sema : Semaphore} (hwait : s.sema.wait = some (n, sema)) :
    Inv { s with
      sema := sema
      consumer := Function.update s.consumer i .working
      taken := s.taken + 1 } := by
  obtain ⟨hpos, rfl⟩ := Semaphore.wait_eq_some hwait
  -- a held consumer finds no permit
  have hp : s.producer = .spinning := by
    by_contra hne
    have := (h.held hne).1
    omega
  have htaken := h.balance
  have hbalance := h.spinning hp
  have hocc := occupancy_update s.consumer i .working .waiting
  rw [hi, if_pos rfl, if_neg (by decide)] at hocc
  refine .of_spinning hp ?_ h.ready_nonneg ?_ ?_
  · show 0 ≤ s.sema.count - 1
    omega
  · show s.taken + 1 + (s.sema.count - 1) = s.issued
    omega
  · show (occupancy (Function.update s.consumer i .working) .waiting : ℤ)
      = s.sema.count - 1 + s.sema.ready
    omega

/-- A consumer ends its work: it was not waiting, and is not. -/
theorem Inv.work (h : Inv s) {i : Fin N} (hi : s.consumer i = .working) :
    Inv { s with consumer := Function.update s.consumer i .starting } := by
  have hp : s.producer = .spinning := h.spinning_of_ne (by rw [hi]; decide)
  have hbalance := h.spinning hp
  have hocc := occupancy_update s.consumer i .starting .waiting
  rw [hi, if_neg (by decide), if_neg (by decide)] at hocc
  refine .of_spinning hp h.count_nonneg h.ready_nonneg h.balance ?_
  show (occupancy (Function.update s.consumer i .starting) .waiting : ℤ)
    = s.sema.count + s.sema.ready
  omega

/-- The producer hands out the permits of a round: each consumer waits, and gets one. -/
theorem Inv.notify (h : Inv s) (hp : s.producer = .notifying) :
    Inv { s with
      sema := s.sema.notify N
      producer := .spinning
      issued := s.issued + N } := by
  obtain ⟨hcount, hall⟩ := h.held (by rw [hp]; decide)
  have hready := h.cleared hp
  have htaken := h.balance
  have hocc := occupancy_eq_card_iff.mpr hall
  rw [Fintype.card_fin] at hocc
  refine .of_spinning rfl ?_ h.ready_nonneg ?_ ?_
  · show 0 ≤ s.sema.count + N
    omega
  · show s.taken + (s.sema.count + N) = s.issued + N
    omega
  · show (occupancy s.consumer .waiting : ℤ) = s.sema.count + N + s.sema.ready
    omega

/-- Every step keeps the invariant. -/
theorem Inv.step (h : Inv s) (hstep : Step s s') : Inv s' := by
  cases hstep with
  | setReady i hi => exact h.setReady hi
  | wait i hi hwait => exact h.wait hi hwait
  | work i hi => exact h.work hi
  | spin => exact h
  | observe hp hready =>
    exact { h with
      spinning := fun hn => absurd hn (by simp)
      held := fun _ => h.of_ready hp hready
      cleared := fun hn => absurd hn (by simp) }
  | clrReady hp =>
    have hheld := h.held (by rw [hp]; decide)
    exact {
      count_nonneg := h.count_nonneg
      ready_nonneg := le_rfl
      ready_le := Int.natCast_nonneg N
      balance := h.balance
      spinning := fun hn => absurd hn (by simp)
      held := fun _ => hheld
      cleared := fun _ => rfl }
  | notify hp => exact h.notify hp

theorem Reachable.inv (h : Reachable s) : Inv s := by
  induction h with
  | refl => exact inv_init
  | tail _ hstep ih => exact ih.step hstep

/-! ## The barrier -/

/-- The producer sees all reports, or has seen them and has not handed out permits since. -/
def Barrier.Observed (s : Barrier N) : Prop :=
  (s.producer = .spinning ∧ s.sema.getReady = N) ∨ s.producer ≠ .spinning

/-- **The barrier is safe.** In every interleaving, from the moment the producer sees all
consumers ready until it notifies them, there is no permit, no consumer works, and every
permit handed out has been taken; at any time the permits lie between zero and `N`, and
none is lost or created. -/
theorem barrier_safe (h : Reachable s) :
    (s.Observed → s.sema.count = 0 ∧ (∀ i, s.consumer i ≠ .working) ∧ s.taken = s.issued) ∧
      0 ≤ s.sema.count ∧ s.sema.count ≤ N ∧ s.taken + s.sema.count = s.issued := by
  have hinv := h.inv
  refine ⟨fun hobs => ?_, hinv.count_nonneg, ?_, hinv.balance⟩
  · have hheld : s.sema.count = 0 ∧ ∀ i, s.consumer i = .waiting := by
      rcases hobs with ⟨hp, hready⟩ | hp
      · exact hinv.of_ready hp hready
      · exact hinv.held hp
    refine ⟨hheld.1, fun i hi => ?_, ?_⟩
    · rw [hheld.2 i] at hi
      exact absurd hi (by decide)
    · have := hinv.balance
      omega
  · by_cases hp : s.producer = .spinning
    · -- every permit has a consumer waiting for it
      have hbalance := hinv.spinning hp
      have hready := hinv.ready_nonneg
      have hle := occupancy_le s.consumer .waiting
      rw [Fintype.card_fin] at hle
      omega
    · have := (hinv.held hp).1
      omega

/-- A round of two consumers in which the first one is fast: it takes both permits, works twice and
reports twice while the other one still waits, and the producer sees two reports again. -/
theorem reachable_secondRound : ∃ s : Barrier 2, Reachable s ∧ s.producer = .spinning ∧
    s.sema = ⟨2, 0⟩ ∧ s.issued = 2 ∧ s.consumer 1 = .waiting := by
  have hround : Reachable (_ : Barrier 2) :=
    (((((Relation.ReflTransGen.refl.tail (.setReady 0 rfl)).tail (.setReady 1 rfl)).tail
      (.observe rfl rfl)).tail (.clrReady rfl)).tail (.notify rfl))
  have hfirst := ((hround.tail (.wait 0 rfl rfl)).tail (.work 0 rfl)).tail (.setReady 0 rfl)
  have hsecond := ((hfirst.tail (.wait 0 rfl rfl)).tail (.work 0 rfl)).tail (.setReady 0 rfl)
  exact ⟨_, hsecond, rfl, rfl, rfl, rfl⟩

theorem barrier_safe_secondRound : ∃ s : Barrier 2, Reachable s ∧ s.Observed ∧ s.issued = 2 ∧
    s.sema.count = 0 ∧ (∀ i, s.consumer i ≠ .working) ∧ s.taken = s.issued := by
  obtain ⟨s, hreach, hp, hsema, hissued, -⟩ := reachable_secondRound
  have hobs : s.Observed := Or.inl ⟨hp, by rw [Semaphore.getReady, hsema]; rfl⟩
  exact ⟨s, hreach, hobs, hissued, (barrier_safe hreach).1 hobs⟩

end S4LibLite.Sema
