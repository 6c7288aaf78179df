import S4LibLite.Lib.Runs
import S4LibLite.Lib.Solo
import S4LibLite.Queue.BulkSend

/-!
# A growth that finds no memory

`P_get_tryBest` is to return false where the pool is empty and cannot grow. Its loop checks
for null what the constructor of `char_array_t` never leaves null: that throws.

* `raises_pGetTryBest`, every request that fails ends the call with the exception;
* `tryBest_never_reports`, so the call does not return.
-/

namespace S4LibLite
namespace Queue

open Interleaving

variable {c : Params} {t : Tid} {p : Var} {k₀ k k' : Threads}

/-- `posix_memalign` answers `ENOMEM`. -/
def NoMemory : (a : Action) → Answer a → Prop
  | .posixMemalign .., mem => mem = none
  | _, _ => False

def memoryError : String := "Error allocating aligned memory!"

/-- What allocates nothing raises nothing. -/
theorem raises_of_reuses {α : Type} {f : Op α} (h : f.Only (Action.Reuses c)) :
    f.Raises NoMemory memoryError := by
  apply raises_of_only _ h
  intro a r ha hbad
  cases a with
  | posixMemalign len num => exact ha
  | _ => exact hbad

theorem raises_perform {a : Action} (h : ∀ r, ¬ NoMemory a r) :
    (act a).Raises NoMemory memoryError :=
  fun r => ⟨fun hbad => absurd hbad (h r), trivial⟩

/-- `char_array` raises the error exactly where `posix_memalign` fails. -/
theorem raises_charArray (len : UInt64) (num : UInt32) :
    (charArray len num).Raises NoMemory memoryError := by
  intro r
  cases r with
  | none => exact ⟨fun _ => rfl, trivial⟩
  | some mem => exact ⟨fun hbad => absurd hbad (by simp [NoMemory]), trivial⟩

/-- The first block that fails ends the loop. -/
theorem raises_mallocAligned (ps : List QueParticle) (n : ℕ) :
    (mallocAligned c ps n).Raises NoMemory memoryError := by
  induction n generalizing ps with
  | zero => exact trivial
  | succ n ih =>
    apply raises_bind (raises_charArray _ _)
    intro mem
    split_ifs
    · exact trivial
    · apply raises_bind (raises_perform fun _ => id)
      intro _
      apply raises_bind (raises_perform fun _ => id)
      intro _
      exact ih _

/-- The one block that fails. -/
theorem raises_mallocSliced (num : UInt32) :
    (mallocSliced c num).Raises NoMemory memoryError := by
  apply raises_bind (raises_charArray _ _)
  intro mem
  split_ifs
  · exact trivial
  · apply raises_bind (raises_perform fun _ => id)
    intro _
    apply raises_bind (raises_perform fun _ => id)
    intro _
    exact trivial

/-- `malloc_particle` does not catch it. -/
theorem raises_mallocParticle (num : UInt32) :
    (mallocParticle c num).Raises NoMemory memoryError := by
  have hmalloc : (if c.allMemalign then mallocAligned c [] num.toNat
      else mallocSliced c num).Raises NoMemory memoryError := by
    split_ifs
    · exact raises_mallocAligned [] num.toNat
    · exact raises_mallocSliced num
  unfold mallocParticle
  by_cases hnum : num = 0
  · rw [if_pos hnum]
    exact trivial
  · rw [if_neg hnum]
    apply raises_bind hmalloc
    intro r
    split
    split_ifs
    · exact raises_bind (raises_perform fun _ => id) fun _ => trivial
    · exact trivial

theorem raises_enqueueAll (ps : List QueParticle) :
    (enqueueAll ps).Raises NoMemory memoryError := by
  induction ps with
  | nil => exact trivial
  | cons p ps ih =>
    apply raises_bind (raises_perform fun _ => id)
    intro ok
    split_ifs
    · exact raises_bind ih fun _ => trivial
    · exact trivial

/-- Nor does `init_dataPool`. -/
theorem raises_initDataPool (num : UInt32) :
    (initDataPool c num).Raises NoMemory memoryError := by
  apply raises_bind (raises_mallocParticle num)
  intro r
  split
  split_ifs
  · exact raises_bind (raises_enqueueAll _) fun _ => trivial
  · exact trivial

/-- Nor does `P_get_tryBest`. -/
theorem raises_pGetTryBest (p : Var) : (pGetTryBest c p).Raises NoMemory memoryError := by
  apply raises_bind (raises_perform fun _ => id)
  intro data
  cases data with
  | some pD =>
    exact raises_bind (raises_of_reuses (only_assignShared p pD .dataPtoC id)) fun _ => trivial
  | none =>
    apply raises_bind (raises_initDataPool 64)
    intro ok
    split_ifs
    · exact trivial
    · exact raises_bind (raises_of_reuses (c := c) (only_reset p)) fun _ => trivial

/-! ## The call -/

/-- What is left of a call of `P_get_tryBest` throws at every request that fails. -/
theorem running_raises {es : List QEvent} (hk : (system c).run start es = some k)
    {f : Op (Option Bool)} (ht : k.running t = some (.pGetTryBest p, f)) :
    f.Raises NoMemory memoryError := by
  let P : Operation → Op (Option Bool) → Prop :=
    fun op f => (∃ p, op = .pGetTryBest p) → f.Raises NoMemory memoryError
  have hbody : ∀ op, P op ((system c).body op) := by
    rintro op ⟨p, rfl⟩
    exact raises_bind (raises_pGetTryBest p) fun _ => trivial
  have hact : ∀ {op a f} r, P op (.act a f) → P op (f r) := fun r h hop => (h hop r).2
  have hrunning := System.running_of_run hbody hact (by simp [start]) hk
  exact hrunning t _ f ht ⟨p, rfl⟩

/-- The call of `P_get_tryBest(p)` that thread `t` begins in `k₀` asks for memory next, in `k`;
until then the others wait. -/
structure Asks (c : Params) (t : Tid) (p : Var) (k₀ k : Threads) : Prop where
  reached : ∃ es, (system c).run start es = some k₀
  call : ∃ choices : List Choice,
    (system c).run k₀ (.call t (.pGetTryBest p) :: choices.map (.go t)) = some k
  next : ∃ len num f, k.running t = some (.pGetTryBest p, .act (.posixMemalign len num) f)

/-- The request fails, and the call returns false with `p` null and the queue as it was. -/
def Reports (c : Params) (t : Tid) (p : Var) (k₀ k : Threads) : Prop :=
  ∃ (choices : List Choice) (k' : Threads),
    (system c).run k (.go t .none :: choices.map (.go t)) = some k' ∧
    k'.running t = some (.pGetTryBest p, .ret (some false)) ∧
    handleOf p k'.state.handles = none ∧ k'.state.queue = k₀.state.queue ∧
    k'.state.depth = k₀.state.depth ∧ k'.state.memHoster = k₀.state.memHoster

/-- The state that asks is reached by a run. -/
theorem Asks.run (h : Asks c t p k₀ k) : ∃ es, (system c).run start es = some k := by
  obtain ⟨es, hes⟩ := h.reached
  obtain ⟨choices, hcall⟩ := h.call
  exact ⟨_, System.run_append.mpr ⟨k₀, hes, hcall⟩⟩

/-- Where the allocation fails, the call throws. -/
theorem Asks.throws (h : Asks c t p k₀ k) : (system c).next k (.go t .none) =
    some ⟨k.state, Function.update k.running t (some (.pGetTryBest p, .raise memoryError))⟩ := by
  obtain ⟨es, hes⟩ := h.run
  obtain ⟨len, num, f, ht⟩ := h.next
  have hf : f none = .raise memoryError := (running_raises hes ht none).1 rfl
  rw [← hf]
  simp [System.next, ht, system, step]

/-- And it does not answer false. -/
theorem Asks.not_reports (h : Asks c t p k₀ k) : ¬ Reports c t p k₀ k := by
  rintro ⟨choices, k', hrun, hret, -⟩
  obtain ⟨k₁, hnext, hrun⟩ := System.run_cons.mp hrun
  rw [← Option.some.inj (h.throws.symm.trans hnext)] at hrun
  cases choices with
  | nil =>
    rw [← Option.some.inj hrun] at hret
    simp at hret
  | cons choice choices =>
    -- the exception ends the call
    obtain ⟨k₂, hend, hrun⟩ := System.run_cons.mp hrun
    simp only [System.next, Function.update_self, Option.some.injEq] at hend
    rw [← hend] at hrun
    rw [System.run_go_idle (by simp) hrun] at hret
    simp at hret

/-- Whenever a request for memory fails, the call throws and does not return. -/
theorem tryBest_never_reports (h : Asks c t p k₀ k) :
    (system c).next k (.go t .none) =
      some ⟨k.state, Function.update k.running t (some (.pGetTryBest p, .raise memoryError))⟩ ∧
    ¬ Reports c t p k₀ k :=
  ⟨h.throws, h.not_reports⟩

/-- A queue of one frame, in a block of its own. Thread 1 has it. -/
def drained : Threads :=
  ((system ⟨4096, true, false⟩).run start
    ([.call 0 (.construct 1), .go 0 (.base 65536)] ++ List.replicate 5 (.go 0 .none) ++
      [.call 1 (.pGet (.var 0)), .go 1 (.element 0)] ++ List.replicate 3 (.go 1 .none))).get
    (by decide +kernel)

/-- Thread 1 wants another frame. Its first request for memory is granted. -/
def oneGranted : Threads :=
  ((system ⟨4096, true, false⟩).run drained (.call 1 (.pGetTryBest (.var 1)) ::
    [.none, .base 131072, .none, .none].map (.go 1))).get (by decide +kernel)

theorem asks_oneGranted : Asks ⟨4096, true, false⟩ 1 (.var 1) drained oneGranted where
  reached := ⟨_, (Option.some_get _).symm⟩
  call := ⟨_, (Option.some_get _).symm⟩
  next := ⟨4096, 1, _, rfl⟩

theorem tryBest_never_reports_second :
    (system ⟨4096, true, false⟩).next oneGranted (.go 1 .none) =
      some ⟨oneGranted.state, Function.update oneGranted.running 1
        (some (.pGetTryBest (.var 1), .raise memoryError))⟩ ∧
    ¬ Reports ⟨4096, true, false⟩ 1 (.var 1) drained oneGranted :=
  tryBest_never_reports asks_oneGranted

/-- The exception at the second request. -/
theorem tryBest_throws : ¬ ∀ c t p k₀ k, Asks c t p k₀ k → Reports c t p k₀ k := by
  intro hreports
  exact asks_oneGranted.not_reports (hreports _ _ _ _ _ asks_oneGranted)

-- the frame of the first request is counted, hosted and lost
example : drained.state.depth = 2 ∧ oneGranted.state.depth = 3 ∧
    oneGranted.state.memHoster = drained.state.memHoster ++ [(131072, 4096)] := by decide +kernel

end Queue
end S4LibLite
