import S4LibLite.Lib.Custody
import S4LibLite.Queue.SimpleQ
import Mathlib.Data.List.Perm.Basic
import Mathlib.Data.List.Nodup

/-!
# The places of a frame

A frame is in a queue, in a handle made for a queue, or in the local variables of a call. An
action takes at most one frame one place on, round the cycle
`_dataPool`, producer's handle, `_dataPtoC`, consumer's handle, or brings new ones in.

* `moved_dequeue`, `moved_push`, `moved_makeShared` and `moved_takeOut`, one place on;
* `hop_drop`, a variable that lets go of its handle;
* `minted_posixMemalign`, the frames of a new block.
-/

namespace S4LibLite
namespace Queue

open Custody

inductive Place
  | queue (q : QueueId)
  | handle (q : QueueId)
  | held (st : Stage)
deriving DecidableEq, Repr

/-- Where a frame goes from each place. -/
def Place.next : Place → Place
  | .held .fresh => .queue .dataPool
  | .queue q => .held (.taken q)
  | .held (.taken q) => .handle q.other
  | .handle q => .held (.leaving q)
  | .held (.leaving q) => .queue q

/-- How many times a frame is at a place; in a handle for `q` means in a live one. -/
def State.marking (s : State) : Marking Place QueParticle
  | .queue q, p => (s.queue q).countP (fun e => e.particle = p)
  | .handle q, p => s.handles.countP (fun h => h.pHostQ = some q ∧ h.pQdata = some p)
  | .held st, p => s.held.countP (fun x => x.stage = st ∧ x.particle = p)

theorem QueueId.other_other (q : QueueId) : q.other.other = q := by
  cases q <;> rfl

/-! ## Lists -/

section
variable {α : Type} {l : List α} {a : α}

theorem countP_eraseIdx {i : ℕ} (h : l[i]? = some a) (f : α → Bool) :
    (l.eraseIdx i).countP f + (if f a then 1 else 0) = l.countP f := by
  obtain ⟨hi, rfl⟩ := List.getElem?_eq_some_iff.mp h
  rw [← (List.getElem_cons_eraseIdx_perm hi).countP_eq f, List.countP_cons]

theorem countP_erase [DecidableEq α] (h : a ∈ l) (f : α → Bool) :
    (l.erase a).countP f + (if f a then 1 else 0) = l.countP f := by
  rw [(List.perm_cons_erase h).countP_eq f, List.countP_cons]

end

/-! ## One frame goes one place on -/

variable {s : State} {t : Tid} {q : QueueId} {p : QueParticle}

/-- A queue hands out its element `i`. -/
theorem moved_dequeue {i : ℕ} {e : Entry} (he : (s.queue q)[i]? = some e) :
    Moved s.marking { s with
      queue := Function.update s.queue q ((s.queue q).eraseIdx i)
      held := ⟨t, .taken q, e.particle⟩ :: s.held }.marking
      e.particle (.queue q) (.held (.taken q)) := by
  apply Moved.of_counts (by simp)
  intro r y
  have := countP_eraseIdx he (fun e' => e'.particle = y)
  cases r with
  | queue r =>
    -- one element less in `q`, and none elsewhere
    by_cases hr : r = q
    · subst hr
      simpa [State.marking] using this
    · simp [State.marking, hr, Ne.symm hr]
  | handle r => simp [State.marking]
  | held st => simp [State.marking, List.countP_cons]

/-- A frame in the hands of a call is put into a queue. -/
theorem moved_push {st : Stage} {e : Entry} (hp : ⟨t, st, e.particle⟩ ∈ s.held) :
    Moved s.marking { s with
      queue := Function.update s.queue q (s.queue q ++ [e])
      held := s.held.erase ⟨t, st, e.particle⟩ }.marking e.particle (.held st) (.queue q) := by
  apply Moved.of_counts (by simp)
  intro r y
  cases r with
  | queue r =>
    by_cases hr : r = q
    · subst hr
      simp [State.marking, List.countP_append, List.countP_cons]
    · simp [State.marking, hr, Ne.symm hr]
  | handle r => simp [State.marking]
  | held st' =>
    have := countP_erase hp (fun x => x.stage = st' ∧ x.particle = y)
    simpa [State.marking] using this

/-- A frame in the hands of a call gets a handle. -/
theorem moved_makeShared {owners : List Owner} {tok : Bool}
    (hp : ⟨t, .taken q.other, p⟩ ∈ s.held) :
    Moved s.marking { s with
      handles := ⟨owners, some p, some q, tok⟩ :: s.handles
      held := s.held.erase ⟨t, .taken q.other, p⟩ }.marking
      p (.held (.taken q.other)) (.handle q) := by
  apply Moved.of_counts (by simp)
  intro r y
  cases r with
  | queue r => simp [State.marking]
  | handle r => simp [State.marking, List.countP_cons]
  | held st =>
    have := countP_erase hp (fun x => x.stage = st ∧ x.particle = y)
    simpa [State.marking] using this

/-! ## Handles and their owners -/

/-- Some pointer owns the handle; it has its frame and its queue, or neither. -/
structure QueParticleAr.WF (h : QueParticleAr) : Prop where
  owned : h.owners ≠ []
  armed : h.pQdata.isSome = h.pHostQ.isSome

theorem QueParticleAr.WF.leaving {h : QueParticleAr} (hwf : h.WF) :
    (∃ q p, h.pHostQ = some q ∧ h.pQdata = some p ∧ leaving (some h) = [(.leaving q, p)]) ∨
      (h.pHostQ = none ∧ h.pQdata = none ∧ Queue.leaving (some h) = []) := by
  rcases h with ⟨owners, pQdata, pHostQ, tok⟩
  have harmed := hwf.armed
  cases pQdata with
  | none =>
    cases pHostQ with
    | none => exact Or.inr ⟨rfl, rfl, rfl⟩
    | some q => simp at harmed
  | some p =>
    cases pHostQ with
    | none => simp at harmed
    | some q => exact Or.inl ⟨q, p, rfl, rfl, rfl⟩

/-- What `dropOwner` does: nothing, the end of one handle, or one owner less. -/
theorem dropOwner_cases (o : Owner) (hs : List QueParticleAr) :
    dropOwner o hs = (none, hs) ∨
    (∃ l₁ h l₂, hs = l₁ ++ h :: l₂ ∧ (∀ x ∈ h.owners, x = o) ∧
      dropOwner o hs = (some h, l₁ ++ l₂)) ∨
    (∃ l₁ h l₂, hs = l₁ ++ h :: l₂ ∧ h.owners.filter (· ≠ o) ≠ [] ∧
      dropOwner o hs = (none, l₁ ++ { h with owners := h.owners.filter (· ≠ o) } :: l₂)) := by
  induction hs with
  | nil => exact Or.inl rfl
  | cons h hs ih =>
    -- the first handle is the one that `o` owns, or it stays
    by_cases ho : o ∈ h.owners
    · apply Or.inr
      by_cases hlast : h.owners.filter (· ≠ o) = []
      · refine Or.inl ⟨[], h, hs, rfl, ?_, by simp only [dropOwner, if_pos ho, if_pos hlast]; rfl⟩
        simpa using hlast
      · refine Or.inr ⟨[], h, hs, rfl, hlast, ?_⟩
        simp only [dropOwner, if_pos ho, if_neg hlast]
        rfl
    · rcases ih with heq | ⟨l₁, x, l₂, rfl, hx, heq⟩ | ⟨l₁, x, l₂, rfl, hx, heq⟩
      · exact Or.inl (by simp [dropOwner, ho, heq])
      · exact Or.inr (Or.inl ⟨h :: l₁, x, l₂, rfl, hx, by simp [dropOwner, ho, heq]⟩)
      · exact Or.inr (Or.inr ⟨h :: l₁, x, l₂, rfl, hx, by simp [dropOwner, ho, heq]⟩)

/-- The handle that `disarm` finds, an armed one of a producer. -/
theorem disarm_eq_some {v : Var} {hs hs' : List QueParticleAr} (h : disarm v hs = some (p, hs')) :
    ∃ l₁ x l₂, hs = l₁ ++ x :: l₂ ∧ x.pHostQ = some .dataPtoC ∧ x.pQdata = some p ∧
      hs' = l₁ ++ { x with pHostQ := none, pQdata := none } :: l₂ := by
  induction hs generalizing hs' with
  | nil => simp [disarm] at h
  | cons x hs ih =>
    unfold disarm at h
    split at h
    · split at h
      · rename_i hq hp
        simp only [Option.some.injEq, Prod.mk.injEq] at h
        exact ⟨[], x, hs, rfl, hq, h.1 ▸ hp, h.2.symm⟩
      · simp at h
    · split at h
      · rename_i p' hs'' heq
        simp only [Option.some.injEq, Prod.mk.injEq] at h
        rw [← h.1, ← h.2]
        obtain ⟨l₁, y, l₂, hhs, hq, hp, rfl⟩ := ih (h.1 ▸ heq)
        exact ⟨x :: l₁, y, l₂, by rw [hhs]; rfl, hq, h.1 ▸ hp, rfl⟩
      · simp at h

/-- Who owns a handle does not matter to where its frame is. -/
theorem marking_mapHandles (f : QueParticleAr → QueParticleAr)
    (hf : ∀ h, (f h).pHostQ = h.pHostQ ∧ (f h).pQdata = h.pQdata) :
    (s.mapHandles f).marking = s.marking := by
  ext r y
  cases r with
  | queue r => rfl
  | handle r =>
    simp only [State.marking, State.mapHandles, List.countP_map]
    congr 1
    ext h
    simp [hf h]
  | held st => rfl

/-- A frame leaves a handle that dies. -/
theorem moved_leaving {l₁ l₂ : List QueParticleAr} {h : QueParticleAr}
    (hs : s.handles = l₁ ++ h :: l₂) (hq : h.pHostQ = some q) (hp : h.pQdata = some p) :
    Moved s.marking { s with
      handles := l₁ ++ l₂
      held := ⟨t, .leaving q, p⟩ :: s.held }.marking p (.handle q) (.held (.leaving q)) := by
  apply Moved.of_counts (by simp)
  intro r y
  cases r with
  | queue r => simp [State.marking]
  | handle r => simp [State.marking, hs, hq, hp, List.countP_cons]; omega
  | held st => simp [State.marking, List.countP_cons]

/-- A frame leaves a handle that is disarmed. -/
theorem moved_takeOut {l₁ l₂ : List QueParticleAr} {h : QueParticleAr}
    (hs : s.handles = l₁ ++ h :: l₂) (hq : h.pHostQ = some q) (hp : h.pQdata = some p) :
    Moved s.marking { s with
      handles := l₁ ++ { h with pHostQ := none, pQdata := none } :: l₂
      held := ⟨t, .leaving q, p⟩ :: s.held }.marking p (.handle q) (.held (.leaving q)) := by
  apply Moved.of_counts (by simp)
  intro r y
  cases r with
  | queue r => simp [State.marking]
  | handle r => simp [State.marking, hs, hq, hp, List.countP_cons]; omega
  | held st => simp [State.marking, List.countP_cons]

/-- A pointer lets go of its handle: a frame leaves it, or nothing moves. -/
theorem hop_drop (hwf : ∀ h ∈ s.handles, h.WF) (o : Owner) :
    Hop Place.next s.marking (s.drop t o).2.marking := by
  unfold State.drop
  rcases dropOwner_cases o s.handles with heq | ⟨l₁, h, l₂, hs, _, heq⟩ | ⟨l₁, h, l₂, hs, _, heq⟩
  · apply Hop.stay
    rw [heq]
    rfl
  · have hh : h.WF := hwf h (by rw [hs]; simp)
    rw [heq]
    rcases hh.leaving with ⟨q, p, hq, hp, hleaving⟩ | ⟨hq, hp, hleaving⟩
    · apply Hop.move p (.handle q)
      simp only [hleaving]
      exact moved_leaving hs hq hp
    · -- the handle has no frame
      apply Hop.stay
      simp only [hleaving]
      ext r y
      cases r with
      | queue r => rfl
      | handle r => simp [State.marking, hs, hq]
      | held st => rfl
  · -- other pointers own the handle still
    apply Hop.stay
    rw [heq]
    ext r y
    cases r with
    | queue r => rfl
    | handle r => simp [State.marking, hs, List.countP_cons]
    | held st => rfl

/-! ## New frames -/

theorem mem_particles {c : Params} {mem : ℕ × UInt64} {num : UInt32}
    (hp : p ∈ particles c mem num) : p.mem = mem.1 := by
  obtain ⟨n, _, rfl⟩ := List.mem_map.mp hp
  rfl

theorem nodup_particles (c : Params) (mem : ℕ × UInt64) (num : UInt32) :
    (particles c mem num).Nodup := by
  apply List.Nodup.map _ List.nodup_range
  intro n n' h
  exact congrArg QueParticle.slot h

/-- A new block brings in its frames. -/
theorem minted_posixMemalign (c : Params) (t : Tid) (mem : ℕ × UInt64) (num : UInt32)
    (blocks : List Block) (habsent : ∀ p : QueParticle, p.mem = mem.1 → Absent s.marking p) :
    Minted s.marking { s with
      blocks := blocks
      held := (particles c mem num).map (fun p => hold t (.fresh, p)) ++ s.held }.marking
      (particles c mem num) (.held .fresh) := by
  -- the new frames are in the hands of the thread, and nowhere else
  have hcount : ∀ r y, { s with
      blocks := blocks
      held := (particles c mem num).map (fun p => hold t (.fresh, p)) ++ s.held }.marking r y =
      (if r = .held .fresh then (particles c mem num).count y else 0) + s.marking r y := by
    intro r y
    cases r with
    | queue r => simp [State.marking]
    | handle r => simp [State.marking]
    | held st =>
      simp only [State.marking, List.countP_append, List.countP_map, Place.held.injEq]
      congr 1
      split_ifs with hst
      · unfold List.count
        apply List.countP_congr
        simp [hst, hold]
      · apply List.countP_eq_zero.mpr
        simp [hold, Ne.symm hst]
  constructor
  · intro p hp
    exact habsent p (mem_particles hp)
  · intro p hp
    have hp0 := habsent p (mem_particles hp)
    refine ⟨?_, fun r hr => ?_⟩
    · rw [hcount, if_pos rfl, hp0, List.count_eq_one_of_mem (nodup_particles c mem num) hp]
    · rw [hcount, if_neg hr, hp0]
  · intro p hp r
    rw [hcount, List.count_eq_zero_of_not_mem hp, ite_self, Nat.zero_add]

end Queue
end S4LibLite
