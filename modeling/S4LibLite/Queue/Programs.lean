import S4LibLite.Queue.Rules

/-!
# The operations keep to the rules

One lemma for each function of the queue, from what the thread has before to what it has
afterwards.

* `wp_destroyDead`, the destructor gives the frame of its handle back;
* `wp_assignShared`, a frame that was taken is in a handle;
* `wp_initDataPool`, `wp_pSendBulk`, `wp_cGetBulkTimeout`;
* `sound`, of the whole queue.
-/

namespace S4LibLite
namespace Queue

open Interleaving

variable {c : Params} {l l' : Local} {α : Type}

/-! ## Hands -/

/-- Frames that come in one after another. -/
theorem Local.add_add (xs ys : List (Stage × QueParticle)) :
    (l.add xs).add ys = l.add (xs ++ ys) := by
  unfold Local.add
  rw [← Multiset.coe_add, ← add_assoc, add_comm (ys : Multiset (Stage × QueParticle))]

/-- What came in can be taken away again. -/
theorem Local.add_right_cancel {xs : List (Stage × QueParticle)} (h : l.add xs = l'.add xs) :
    l = l' := by
  rcases l with ⟨held, tmp⟩
  rcases l' with ⟨held', tmp'⟩
  obtain ⟨hheld, htmp⟩ := Local.mk.inj h
  exact congrArg₂ Local.mk (add_left_cancel hheld) htmp

/-- One frame in front of others. -/
theorem Local.add_cons (x : Stage × QueParticle) (xs : List (Stage × QueParticle)) :
    (l.add [x]).add xs = l.add (x :: xs) := Local.add_add [x] xs

/-- One frame behind others, whose order does not count. -/
theorem Local.add_singleton (x : Stage × QueParticle) (xs : List (Stage × QueParticle)) :
    (l.add xs).add [x] = l.add (x :: xs) := by
  rw [Local.add_add]
  have hperm : ((xs ++ [x] : List _) : Multiset (Stage × QueParticle)) = x :: xs :=
    Multiset.coe_eq_coe.mpr (List.perm_append_singleton x xs)
  unfold Local.add
  rw [hperm]

/-- Frames that are not in the pool yet. -/
abbrev freshOf (ps : List QueParticle) : List (Stage × QueParticle) := ps.map fun p => (.fresh, p)

/-- Fresh frames do not end the idleness of a thread. -/
theorem idle_add_fresh (h : (rules c).idle l) (ps : List QueParticle) :
    (rules c).idle (l.add (freshOf ps)) := by
  refine ⟨fun x hx => ?_, h.2⟩
  rcases Multiset.mem_add.mp hx with hx | hx
  · obtain ⟨p, _, rfl⟩ := List.mem_map.mp (Multiset.mem_coe.mp hx)
    rfl
  · exact h.1 x hx

/-! ## Handles -/

/-- The frame that leaves a dead handle is given away by its destructor. -/
theorem wp_destroyDead {Q : Unit → Local → Prop} {dead : Option QueParticleAr}
    (hwf : ∀ h, dead = some h → h.WF) (hQ : Q () l) :
    (rules c).wp Q (destroyDead dead) (l.add (leaving dead)) := by
  cases dead with
  | none => exact (Local.add_nil l).symm ▸ hQ
  | some h =>
    unfold destroyDead QueParticleAr.destroy
    rcases (hwf h rfl).leaving with ⟨q, p, hq, hp, hleaving⟩ | ⟨hq, _, hleaving⟩
    · -- `pHostQ->enqueue(pQdata)`
      rw [hleaving]
      simp only [hq]
      apply wp_perform_bind
      · exact ⟨p, hp, by simp [Local.add]⟩
      · intro r l' hgives
        rw [hp] at hgives
        have hl := Local.add_right_cancel hgives.2
        exact hl ▸ hQ
    · rw [hleaving, Local.add_nil]
      simp only [hq]
      exact hQ

/-- A variable without its handle owns nothing more. -/
theorem wp_reset {Q : Unit → Local → Prop} (p : Var) (hQ : Q () l) :
    (rules c).wp Q (reset p) l := by
  apply wp_perform_bind trivial
  rintro dead l' ⟨hwf, rfl⟩
  exact wp_destroyDead hwf hQ

theorem wp_copy {Q : Unit → Local → Prop} (p q : Var) (hQ : Q () l) :
    (rules c).wp Q (copy p q) l := by
  apply wp_perform_bind trivial
  rintro dead l' ⟨hwf, rfl⟩
  exact wp_destroyDead hwf hQ

/-- A frame taken from a queue goes into a handle that knows the other queue. -/
theorem wp_assignShared {Q : Unit → Local → Prop} (p : Var) (pD : QueParticle) {pQ q : QueueId}
    (tok : Bool) (hq : pQ.other = q) (htmp : l.tmp = false) (hQ : Q () l) :
    (rules c).wp Q (assignShared p pD pQ tok) (l.add [(.taken q, pD)]) := by
  subst hq
  apply wp_perform_bind
  · exact ⟨by simp [Local.add], htmp⟩
  · rintro _ l₁ ⟨hl₁, _⟩
    have hl := Local.add_right_cancel hl₁
    apply wp_perform_bind trivial
    rintro dead l₂ ⟨hwf, rfl⟩
    rw [← hl]
    exact wp_destroyDead hwf hQ

/-! ## Frames -/

/-- A block gives the frames that fit in it. -/
theorem wp_charArray {Q : ℕ × UInt64 → Local → Prop} {len : UInt64} {num : UInt32}
    (hlen : len = c.pageSize * num.toUInt64) (hsingle : c.allMemalign = true → num = 1)
    (hidle : (rules c).idle l) (hQ : ∀ mem, Q mem (l.add (freshOf (particles c mem num)))) :
    (rules c).wp Q (charArray len num) l := by
  refine wp_perform_bind ⟨hlen, hsingle⟩ ?_
  rintro mem l' rfl
  cases mem with
  -- the exception leaves the thread as it was
  | none => exact (Local.add_nil l).symm ▸ hidle
  | some mem =>
    have hQ := hQ mem
    rw [freshOf, ← List.flatMap_singleton (fun mem => (particles c mem num).map _)] at hQ
    exact hQ

/-- `malloc_particle` leaves the thread with the frames it returns. -/
def Malloced (c : Params) (r : Bool × List QueParticle) (l : Local) : Prop :=
  (rules c).idle l ∧ (freshOf r.2 : Multiset (Stage × QueParticle)) ≤ l.held

theorem particles_one (mem : ℕ × UInt64) : particles c mem 1 = [particle c mem 0] := rfl

/-- One block after another, each for one frame. -/
theorem wp_mallocAligned (ps : List QueParticle) (n : ℕ) (h : Malloced c (true, ps) l) :
    (rules c).wp (Malloced c) (mallocAligned c ps n) l := by
  induction n generalizing ps l with
  | zero => exact h
  | succ n ih =>
    apply wp_bind
    apply wp_charArray (by simp) (fun _ => rfl) h.1
    intro mem
    rw [particles_one]
    have hidle := idle_add_fresh h.1 [particle c mem 0]
    split_ifs
    · -- the new frame is not returned, and never gets into the pool
      exact ⟨hidle, h.2.trans (Multiset.le_add_left _ _)⟩
    · apply wp_perform_bind trivial
      rintro _ l₁ rfl
      apply wp_perform_bind trivial
      rintro _ l₂ rfl
      apply ih
      refine ⟨hidle, ?_⟩
      show (freshOf (ps ++ [particle c mem 0]) : Multiset (Stage × QueParticle)) ≤ _
      rw [freshOf, List.map_append, ← Multiset.coe_add, add_comm]
      exact add_le_add_right h.2 _

theorem wp_mallocSliced (num : UInt32) (hc : ¬ c.allMemalign = true) (hidle : (rules c).idle l) :
    (rules c).wp (Malloced c) (mallocSliced c num) l := by
  apply wp_bind
  apply wp_charArray rfl (fun h => absurd h hc) hidle
  intro mem
  have hidle' := idle_add_fresh hidle (particles c mem num)
  split_ifs
  · exact ⟨hidle', Multiset.zero_le _⟩
  · apply wp_perform_bind trivial
    rintro _ l₁ rfl
    apply wp_perform_bind trivial
    rintro _ l₂ rfl
    exact ⟨hidle', Multiset.le_add_right _ _⟩

/-- `malloc_particle` answers whether it has made the frames, and with them. -/
theorem wp_mallocParticle (num : UInt32) (hidle : (rules c).idle l) :
    (rules c).wp (Malloced c) (mallocParticle c num) l := by
  unfold mallocParticle
  by_cases hnum : num = 0
  · rw [if_pos hnum]
    exact ⟨hidle, Multiset.zero_le _⟩
  · rw [if_neg hnum]
    apply wp_bind
    have hmalloc : (rules c).wp (Malloced c)
        (if c.allMemalign then mallocAligned c [] num.toNat else mallocSliced c num) l := by
      split_ifs with hc
      · exact wp_mallocAligned [] num.toNat ⟨hidle, Multiset.zero_le _⟩
      · exact wp_mallocSliced num hc hidle
    apply wp_mono hmalloc
    rintro ⟨ok, ps⟩ l₁ h₁
    cases ok with
    | false => exact h₁
    | true =>
      apply wp_perform_bind trivial
      rintro _ l₂ rfl
      exact h₁

/-- The frames that are put into the pool are in the hands of the thread until then. -/
theorem wp_enqueueAll (ps : List QueParticle) (h : Malloced c (true, ps) l) :
    (rules c).wp (fun _ => (rules c).idle) (enqueueAll ps) l := by
  induction ps generalizing l with
  | nil => exact h.1
  | cons p ps ih =>
    have hle : (.fresh, p) ::ₘ (freshOf ps : Multiset (Stage × QueParticle)) ≤ l.held := h.2
    apply wp_perform_bind
    · exact Multiset.mem_of_le hle (Multiset.mem_cons_self _ _)
    · rintro ok l₁ ⟨rfl, hl⟩
      have hheld : l.held = (.fresh, p) ::ₘ l₁.held := congrArg Local.held hl
      -- one frame less is held, and the rest is as new as before
      have hidle : (rules c).idle l₁ := by
        refine ⟨fun x hx => h.1.1 x ?_, ?_⟩
        · rw [hheld]
          exact Multiset.mem_cons_of_mem hx
        · have htmp := h.1.2
          rw [hl] at htmp
          exact htmp
      rw [hheld, Multiset.cons_le_cons_iff] at hle
      apply wp_bind
      apply wp_mono (ih ⟨hidle, hle⟩)
      intro _ l₂ h₂
      exact h₂

/-- What `init_dataPool` allocates, it enqueues. -/
theorem wp_initDataPool (num : UInt32) (hidle : (rules c).idle l) :
    (rules c).wp (fun _ => (rules c).idle) (initDataPool c num) l := by
  apply wp_bind
  apply wp_mono (wp_mallocParticle num hidle)
  rintro ⟨ok, ps⟩ l₁ h₁
  cases ok with
  | false => exact h₁.1
  | true =>
    apply wp_bind
    apply wp_mono (wp_enqueueAll ps h₁)
    intro _ l₂ h₂
    exact h₂

/-- After the constructor a thread holds nothing. -/
theorem wp_construct (initDepth : UInt32) (hidle : (rules c).idle l) :
    (rules c).wp (fun _ => (rules c).idle) (construct c initDepth) l := by
  apply wp_bind
  apply wp_mono (wp_initDataPool initDepth hidle)
  intro ok l₁ h₁
  split_ifs <;> exact h₁

/-! ## The operations -/

/-- What `dequeue` waits for goes into the handle. -/
theorem wp_take {q pQ : QueueId} (p : Var) (tok : Bool) (hq : pQ.other = q)
    (hidle : (rules c).idle l) :
    (rules c).wp (fun _ => (rules c).idle) (take q p pQ tok) l := by
  apply wp_perform_bind trivial
  rintro data l₁ rfl
  cases data with
  | none => exact (Local.add_nil l).symm ▸ hidle
  | some pD => exact wp_assignShared p pD tok hq hidle.2 hidle

theorem wp_takeTry {q pQ : QueueId} (p : Var) (tok : Bool) (hq : pQ.other = q)
    (hidle : (rules c).idle l) :
    (rules c).wp (fun _ => (rules c).idle) (takeTry q p pQ tok) l := by
  apply wp_perform_bind trivial
  rintro data l₁ rfl
  cases data with
  | none =>
    apply wp_bind
    apply wp_reset
    exact (Local.add_nil l).symm ▸ hidle
  | some pD =>
    apply wp_bind
    exact wp_assignShared p pD tok hq hidle.2 hidle

/-- `P_get_tryBest` ends with nothing in hand, also where it has grown the pool. -/
theorem wp_pGetTryBest (p : Var) (hidle : (rules c).idle l) :
    (rules c).wp (fun _ => (rules c).idle) (pGetTryBest c p) l := by
  apply wp_perform_bind trivial
  rintro data l₁ rfl
  cases data with
  | none =>
    apply wp_bind
    apply wp_mono (wp_initDataPool 64 ((Local.add_nil l).symm ▸ hidle))
    intro ok l₂ h₂
    split_ifs
    · -- the call starts over
      exact h₂
    · apply wp_bind
      exact wp_reset p h₂
  | some pD =>
    apply wp_bind
    exact wp_assignShared p pD c.spmc rfl hidle.2 hidle

abbrev leavingPtoC (ps : List QueParticle) : List (Stage × QueParticle) :=
  ps.map fun p => (.leaving .dataPtoC, p)

/-- The frames that are taken out stay with the thread. -/
theorem wp_takeOutAll {Q : List QueParticle → Local → Prop} (pv : ℕ) (is : List ℕ)
    (hQ : ∀ ps, Q ps (l.add (leavingPtoC ps))) : (rules c).wp Q (takeOutAll pv is) l := by
  induction is generalizing l Q with
  | nil => exact Local.add_nil l ▸ hQ []
  | cons i is ih =>
    apply wp_perform_bind trivial
    rintro p l₁ rfl
    apply wp_bind
    apply ih
    intro ps
    rw [Local.add_cons]
    exact hQ (p :: ps)

/-- The frames that were taken out are enqueued, all of them. -/
theorem wp_enqueueBulk {Q : Unit → Local → Prop} (ps : List QueParticle) (hQ : Q () l) :
    (rules c).wp Q (enqueueBulk .dataPtoC ps) (l.add (leavingPtoC ps)) := by
  have hloop : (rules c).wp (fun _ l' => l' = l.add (leavingPtoC []))
      (enqueueBulk .dataPtoC ps) (l.add (leavingPtoC ps)) := by
    apply wp_forEach (I := fun ps l' => l' = l.add (leavingPtoC ps)) _ rfl
    rintro p ps l₁ hl₁
    rw [hl₁]
    apply wp_perform_bind
    · exact ⟨p, rfl, by simp [Local.add, leavingPtoC]⟩
    · rintro _ l₂ ⟨_, hl₂⟩
      rw [leavingPtoC, List.map_cons, ← Local.add_singleton] at hl₂
      exact (Local.add_right_cancel hl₂).symm
  apply wp_mono hloop
  intro _ l₁ hl₁
  rw [hl₁, leavingPtoC, List.map_nil, Local.add_nil]
  exact hQ

/-- The handles of the elements that go away give their frames back. -/
theorem wp_resize {Q : Unit → Local → Prop} (pv n : ℕ) (hQ : Q () l) :
    (rules c).wp Q (resize pv n) l := by
  apply wp_perform_bind trivial
  rintro size l rfl
  apply wp_bind
  have hloop : (rules c).wp (fun _ l' => l' = l)
      (Prog.forEach (fun i => reset (.elem pv i)) ((List.range size).drop n)) l := by
    apply wp_forEach (I := fun _ l' => l' = l) _ rfl
    intro i is l₁ hl₁
    rw [hl₁]
    exact wp_reset _ rfl
  apply wp_mono hloop
  intro _ l₁ hl₁
  rw [hl₁]
  apply wp_perform_bind trivial
  rintro _ _ rfl
  exact hQ

theorem wp_pSendBulk (pv : ℕ) (hidle : (rules c).idle l) :
    (rules c).wp (fun _ => (rules c).idle) (pSendBulk pv) l := by
  apply wp_perform_bind trivial
  rintro size _ rfl
  apply wp_bind
  apply wp_takeOutAll
  intro ps
  apply wp_bind
  apply wp_enqueueBulk
  exact wp_resize pv 0 hidle

/-- The frames that a bulk gives stay with the thread. -/
theorem wp_dequeueBulk {Q : List QueParticle → Local → Prop} (q : QueueId) (n : ℕ)
    (hQ : ∀ ps, Q ps (l.add (ps.map fun p => (.taken q, p)))) :
    (rules c).wp Q (dequeueBulk q n) l := by
  induction n generalizing l Q with
  | zero => exact Local.add_nil l ▸ hQ []
  | succ n ih =>
    apply wp_perform_bind trivial
    rintro p l₁ rfl
    cases p with
    | none => exact hQ []
    | some p =>
      apply wp_bind
      apply ih
      intro ps
      show Q (p :: ps) ((l.add [(.taken q, p)]).add _)
      rw [Local.add_cons]
      exact hQ (p :: ps)

/-- Every frame of a bulk ends in a handle. -/
theorem wp_cGetBulkTimeout (pv maxNb : ℕ) (hidle : (rules c).idle l) :
    (rules c).wp (fun _ => (rules c).idle) (cGetBulkTimeout pv maxNb) l := by
  apply wp_bind
  apply wp_dequeueBulk
  intro ps
  apply wp_bind
  apply wp_resize
  by_cases hlen : ps.length ≠ 0
  · rw [if_pos hlen]
    apply wp_bind
    have hloop : (rules c).wp (fun _ l' => l' = l.add [])
        (Prog.forEach (fun x => assignShared (.elem pv x.2) x.1 .dataPool false) ps.zipIdx)
        (l.add (ps.map fun p => (.taken .dataPtoC, p))) := by
      -- the frames that have no handle yet are in the hands of the thread
      apply wp_forEach (I := fun xs l' => l' = l.add (xs.map fun x => (.taken .dataPtoC, x.1)))
      · intro x xs l₁ hl₁
        rw [hl₁, List.map_cons, ← Local.add_singleton]
        exact wp_assignShared _ _ _ rfl hidle.2 rfl
      · have hfst := List.zipIdx_map_fst 0 ps
        rw [← hfst, List.map_map, hfst]
        rfl
    apply wp_mono hloop
    intro _ l₁ hl₁
    rw [hl₁, Local.add_nil]
    exact hidle
  · rw [if_neg hlen]
    have hnil : ps = [] := by simpa using hlen
    rw [hnil, List.map_nil, Local.add_nil]
    exact hidle

theorem wp_pushBack {Q : Unit → Local → Prop} (pv : ℕ) (p : Var) (hQ : Q () l) :
    (rules c).wp Q (pushBack pv p) l := by
  apply wp_perform_bind trivial
  rintro size _ rfl
  apply wp_bind
  apply wp_copy
  apply wp_perform_bind trivial
  rintro _ _ rfl
  exact hQ

/-- Every operation starts and ends with nothing in hand but frames that are not in use. -/
theorem wp_body (op : Operation) (hidle : (rules c).idle l) :
    (rules c).wp (fun _ => (rules c).idle) (body c op) l := by
  cases op with
  | construct initDepth => exact wp_bind (wp_construct initDepth hidle)
  | pGet p => exact wp_bind (wp_take p c.spmc rfl hidle)
  | pGetTimeout p => exact wp_bind (wp_takeTry p c.spmc rfl hidle)
  | pGetTryBest p => exact wp_bind (wp_pGetTryBest p hidle)
  | pSend p => exact wp_bind (wp_reset p hidle)
  | pSendBulk pv => exact wp_bind (wp_pSendBulk pv hidle)
  | cRecv p => exact wp_bind (wp_take p false rfl hidle)
  | cRecvTry p => exact wp_bind (wp_takeTry p false rfl hidle)
  | cRecvTimeout p => exact wp_bind (wp_takeTry p false rfl hidle)
  | cGetBulkTimeout pv maxNb => exact wp_bind (wp_cGetBulkTimeout pv maxNb hidle)
  | cReturn p => exact wp_bind (wp_reset p hidle)
  | copy p q => exact wp_bind (wp_copy p q hidle)
  | release p => exact wp_bind (wp_reset p hidle)
  | pushBack pv p => exact wp_bind (wp_pushBack pv p hidle)

/-- **The programs keep to the rules**: every operation starts and ends with nothing in hand. -/
theorem sound (c : Params) : Sound (system c) (rules c) own (Inv c) where
  step hi hneeds h :=
    have hok := step_ok hi hneeds h
    ⟨hok.inv, hok.gives, hok.frame⟩
  body op _ hidle := wp_body op hidle

end Queue
end S4LibLite
