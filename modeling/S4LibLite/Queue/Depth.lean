import S4LibLite.Lib.Ledger
import S4LibLite.Lib.Solo
import S4LibLite.Queue.Actions
import S4LibLite.Queue.SimpleQTheorems

/-!
# The depth and the frames

`malloc_particle` adds the new frames to `_depth` where it makes them, and once more at its
end.

* `step_counts`, an action makes frames or leaves them as many as they were;
* `debt_body`, a call adds two to the depth for each frame it makes;
* `depth_never_frames`, so at rest the depth is not the number of the frames.
-/

namespace S4LibLite
namespace Queue

open Custody Interleaving

variable {c : Params} {s s' : State} {t : Tid} {a : Action} {choice : Choice}

/-! ## The counters -/

def State.getDepth (s : State) : UInt32 := s.depth

/-- Where no call is in progress, the sizes are exact. -/
def State.sizeApproxPtoC (s : State) : ℕ := (s.queue .dataPtoC).length

def State.sizeApproxCtoP (s : State) : ℕ := (s.queue .dataPool).length

/-- The frames in live handles. -/
def State.inHandles (s : State) : ℕ := s.handles.countP fun h => h.pQdata.isSome

/-- The frames that exist in the queue. -/
def State.frames (s : State) : ℕ := s.sizeApproxPtoC + s.sizeApproxCtoP + s.inHandles

/-- With those in the local variables of calls. -/
def State.total (s : State) : ℕ := s.frames + s.held.length

/-! ## The frames that there are -/

/-- The frames that an action makes. -/
def minted : (a : Action) → Answer a → ℕ
  | .posixMemalign _ num, some _ => num.toNat
  | _, _ => 0

/-- What an action adds to `_depth`. -/
def added : Action → UInt32
  | .addDepth n => n
  | _ => 0

/-- A frame goes from the hands of a thread into a queue, or the other way. -/
theorem total_of_queue {q : QueueId} {es : List Entry}
    (hqueue : s'.queue = Function.update s.queue q es) (hhandles : s'.handles = s.handles)
    (hheld : s'.held.length + es.length = s.held.length + (s.queue q).length) :
    s'.total = s.total := by
  unfold State.total State.frames State.sizeApproxPtoC State.sizeApproxCtoP State.inHandles
  rw [hqueue, hhandles]
  cases q with
  | dataPtoC => simp; omega
  | dataPool => simp; omega

/-- A variable that lets go of its handle. -/
theorem total_drop (hwf : ∀ h ∈ s.handles, h.WF) (o : Owner) (f : QueParticleAr → QueParticleAr)
    (hf : ∀ h, (f h).pQdata = h.pQdata) :
    ((s.drop t o).2.mapHandles f).total = s.total := by
  have hmap : ∀ hs : List QueParticleAr, (hs.map f).countP (fun h => h.pQdata.isSome) =
      hs.countP fun h => h.pQdata.isSome := by
    intro hs
    rw [List.countP_map]
    congr 1
    ext h
    exact congrArg Option.isSome (hf h)
  unfold State.total State.frames State.sizeApproxPtoC State.sizeApproxCtoP State.inHandles
    State.mapHandles State.drop
  simp only [hmap]
  -- the variable has no handle, is its last owner, or is one of several
  rcases dropOwner_cases o s.handles with heq | ⟨l₁, h, l₂, hs, _, heq⟩ | ⟨l₁, h, l₂, hs, _, heq⟩
  · rw [heq]
    simp [leaving]
  · have hh : h.WF := hwf h (by rw [hs]; simp)
    rw [heq, hs]
    rcases hh.leaving with ⟨q, p, _, hp, hleaving⟩ | ⟨_, hp, hleaving⟩
    · simp [hleaving, hp]
      omega
    · simp [hleaving, hp]
  · rw [heq, hs]
    simp [leaving, List.countP_cons]

/-- A frame that goes out of the hands of a thread is one less. -/
theorem length_erase {st : Stage} {p : QueParticle} (hp : (st, p) ∈ (own s t).held) :
    (s.held.erase ⟨t, st, p⟩).length + 1 = s.held.length := by
  have hmem : (⟨t, st, p⟩ : Held) ∈ s.held := mem_heldBy.mp hp
  have hpos := List.length_pos_of_mem hmem
  rw [List.length_erase_of_mem hmem]
  omega

/-- What an action does to the frames there are and to `_depth`. -/
theorem step_counts {r : Answer a} (hi : Inv c s) (hneeds : (rules c).needs (own s t) a)
    (h : step c t a choice s = some (r, s')) :
    s'.total = s.total + minted a r ∧ s'.depth = s.depth + added a := by
  have hdepth : s.depth = s.depth + 0 := (UInt32.add_zero s.depth).symm
  cases a with
  | dequeue q =>
    rcases step_dequeue_cases h with ⟨i, e, _, he, rfl, rfl⟩ | ⟨_, rfl, rfl⟩
    · have hlt := (List.getElem?_eq_some_iff.mp he).1
      refine ⟨total_of_queue rfl rfl ?_, hdepth⟩
      rw [List.length_eraseIdx_of_lt hlt, List.length_cons]
      omega
    · exact ⟨rfl, hdepth⟩
  | enqueue q tok d =>
    -- the frame leaves the hands of the thread
    obtain ⟨p, rfl, rfl, rfl⟩ := step_enqueue_eq h
    obtain ⟨p', hp', hmem⟩ := hneeds
    have hlen := length_erase (Option.some.inj hp' ▸ hmem)
    refine ⟨total_of_queue rfl rfl ?_, hdepth⟩
    rw [List.length_append, List.length_singleton]
    show (s.held.erase ⟨t, .leaving q, p⟩).length + _ = _
    omega
  | enqueueNew p =>
    obtain ⟨rfl, rfl⟩ := Prod.mk.inj (Option.some.inj h)
    have hlen := length_erase hneeds
    refine ⟨total_of_queue rfl rfl ?_, hdepth⟩
    rw [List.length_append, List.length_singleton]
    show (s.held.erase ⟨t, .fresh, p⟩).length + _ = _
    omega
  | makeShared p q tok =>
    obtain ⟨rfl, rfl⟩ := Prod.mk.inj (Option.some.inj h)
    have hlen := length_erase hneeds.1
    refine ⟨?_, hdepth⟩
    show State.total _ = s.total
    simp only [State.total, State.frames, State.sizeApproxPtoC, State.sizeApproxCtoP,
      State.inHandles, List.countP_cons, Option.isSome_some, if_pos]
    omega
  | moveTmp v =>
    obtain ⟨rfl, rfl⟩ := Prod.mk.inj (Option.some.inj h)
    exact ⟨total_drop hi.wf (.var v) _ fun _ => rfl, hdepth⟩
  | copy v w =>
    rcases step_copy_cases h with ⟨rfl, rfl⟩ | ⟨rfl, rfl⟩
    · exact ⟨rfl, hdepth⟩
    · exact ⟨total_drop hi.wf (.var v) _ fun x => (addOwner_data _ _ x).2, hdepth⟩
  | reset v =>
    obtain ⟨rfl, rfl⟩ := Prod.mk.inj (Option.some.inj h)
    have hdrop := total_drop (t := t) hi.wf (.var v) id fun _ => rfl
    rw [State.mapHandles, List.map_id] at hdrop
    exact ⟨hdrop, hdepth⟩
  | takeOut v =>
    obtain ⟨hs, heq, rfl⟩ := step_takeOut_eq h
    obtain ⟨l₁, x, l₂, hhandles, _, hp, rfl⟩ := disarm_eq_some heq
    refine ⟨?_, hdepth⟩
    show State.total _ = s.total
    simp [State.total, State.frames, State.sizeApproxPtoC, State.sizeApproxCtoP,
      State.inHandles, hhandles, hp]
    omega
  | posixMemalign len num =>
    -- the frames of a granted block are new
    rcases step_posixMemalign_cases h with ⟨base, _, _, rfl, rfl⟩ | ⟨_, rfl, rfl⟩
    · refine ⟨?_, hdepth⟩
      show State.total _ = s.total + num.toNat
      simp [State.total, State.frames, State.sizeApproxPtoC, State.sizeApproxCtoP,
        State.inHandles, particles]
      omega
    · exact ⟨rfl, hdepth⟩
  | size pv | setSize pv n | hostMem mem len =>
    obtain ⟨_, rfl⟩ := Prod.mk.inj (Option.some.inj h)
    exact ⟨rfl, hdepth⟩
  | addDepth n =>
    obtain ⟨_, rfl⟩ := Prod.mk.inj (Option.some.inj h)
    exact ⟨rfl, rfl⟩

/-! ## What a call owes -/

/-- The frames of a thread that are not in the pool yet. -/
def Local.fresh (l : Local) : ℕ := l.held.countP fun x => x.1 = .fresh

/-- The frames that an action puts into the pool for the first time. -/
def spent : Action → ℕ
  | .enqueueNew _ => 1
  | _ => 0

/-- What a call has still to add to `_depth`, and how many of its frames are not in the pool
yet. -/
structure Debt where
  owed : ℕ
  fresh : ℕ

/-- Two are owed for each new frame. A request for memory is granted. -/
def debtRules : Rules Action Answer Debt where
  needs d
    | .enqueueNew _ => 1 ≤ d.fresh
    | .addDepth n => n.toNat ≤ d.owed
    | _ => True
  gives d
    | .enqueueNew _, ok, d' => ok = true ∧ d' = ⟨d.owed, d.fresh - 1⟩
    | .addDepth n, _, d' => d' = ⟨d.owed - n.toNat, d.fresh⟩
    | .posixMemalign _ num, r, d' => (∃ mem, r = some mem ∧ mem.2 ≠ 0) ∧
        d' = ⟨d.owed + 2 * num.toNat, d.fresh + num.toNat⟩
    | _, _, d' => d' = d
  idle d := d = ⟨0, 0⟩

variable {d : Debt}

/-- A block owes its frames to the depth twice. -/
theorem debt_charArray {Q : ℕ × UInt64 → Debt → Prop} {len : UInt64} {num : UInt32}
    (hQ : ∀ mem : ℕ × UInt64, mem.2 ≠ 0 →
      Q mem ⟨d.owed + 2 * num.toNat, d.fresh + num.toNat⟩) :
    debtRules.wp Q (charArray len num) d := by
  apply wp_perform_bind trivial
  rintro r d' ⟨⟨mem, rfl, hmem⟩, rfl⟩
  exact hQ mem hmem

/-- Each frame is counted once in the loop, and owed once more. -/
theorem debt_mallocAligned (ps : List QueParticle) (n : ℕ) :
    debtRules.wp (fun r d => r.1 = true ∧ r.2.length = ps.length + n ∧
      d = ⟨r.2.length, r.2.length⟩) (mallocAligned c ps n) ⟨ps.length, ps.length⟩ := by
  induction n generalizing ps with
  | zero => exact ⟨rfl, rfl, rfl⟩
  | succ n ih =>
    apply wp_bind
    apply debt_charArray
    intro mem hmem
    rw [if_neg hmem]
    apply wp_perform_bind trivial
    rintro _ d₁ rfl
    apply wp_perform_bind (show 1 ≤ ps.length + 2 * 1 by omega)
    rintro _ d₂ rfl
    have hloop := ih (ps ++ [particle c mem 0])
    rw [List.length_append, List.length_singleton] at hloop
    apply wp_mono hloop
    rintro r d ⟨hok, hlen, hd⟩
    exact ⟨hok, by omega, hd⟩

/-- One block for all frames pays once. -/
theorem debt_mallocSliced (num : UInt32) :
    debtRules.wp (fun r d => r.1 = true ∧ r.2.length = num.toNat ∧
      d = ⟨r.2.length, r.2.length⟩) (mallocSliced c num) ⟨0, 0⟩ := by
  apply wp_bind
  apply debt_charArray
  intro mem hmem
  rw [if_neg hmem]
  apply wp_perform_bind trivial
  rintro _ d₁ rfl
  apply wp_perform_bind (show num.toNat ≤ 0 + 2 * num.toNat by omega)
  rintro _ d₂ rfl
  have hlen : (particles c mem num).length = num.toNat := by simp [particles]
  refine ⟨rfl, hlen, ?_⟩
  rw [hlen]
  show Debt.mk (0 + 2 * num.toNat - num.toNat) (0 + num.toNat) = _
  rw [show 0 + 2 * num.toNat - num.toNat = num.toNat by omega, Nat.zero_add]

/-- Nothing is owed any more, and the frames are to go into the pool. -/
theorem debt_mallocParticle (num : UInt32) :
    debtRules.wp (fun r d => r.1 = true ∧ d = ⟨0, r.2.length⟩) (mallocParticle c num)
      ⟨0, 0⟩ := by
  have hmalloc : debtRules.wp (fun r d => r.1 = true ∧ r.2.length = num.toNat ∧
      d = ⟨r.2.length, r.2.length⟩) (if c.allMemalign then mallocAligned c [] num.toNat
        else mallocSliced c num) ⟨0, 0⟩ := by
    split_ifs
    · simpa using debt_mallocAligned [] num.toNat
    · exact debt_mallocSliced num
  unfold mallocParticle
  by_cases hnum : num = 0
  · rw [if_pos hnum]
    exact ⟨rfl, rfl⟩
  · rw [if_neg hnum]
    apply wp_bind
    apply wp_mono hmalloc
    rintro ⟨ok, ps⟩ d ⟨rfl, hlen, rfl⟩
    -- the addition at the end settles the debt
    apply wp_perform_bind hlen.ge
    rintro _ d rfl
    refine ⟨rfl, ?_⟩
    show Debt.mk (ps.length - num.toNat) ps.length = ⟨0, ps.length⟩
    congr 1
    exact Nat.sub_eq_zero_of_le hlen.le

/-- Every frame that is enqueued is counted. -/
theorem debt_enqueueAll (ps : List QueParticle) :
    debtRules.wp (fun _ => debtRules.idle) (enqueueAll ps) ⟨0, ps.length⟩ := by
  induction ps with
  | nil => rfl
  | cons p ps ih =>
    apply wp_perform_bind (show 1 ≤ ps.length + 1 by omega)
    rintro ok d ⟨rfl, rfl⟩
    apply wp_bind
    apply wp_mono ih
    exact fun _ _ hidle => hidle

/-- `init_dataPool` leaves no debt. -/
theorem debt_initDataPool (num : UInt32) :
    debtRules.wp (fun _ => debtRules.idle) (initDataPool c num) ⟨0, 0⟩ := by
  apply wp_bind
  apply wp_mono (debt_mallocParticle num)
  rintro ⟨ok, ps⟩ d ⟨rfl, rfl⟩
  apply wp_bind
  apply wp_mono (debt_enqueueAll ps)
  exact fun _ _ hidle => hidle

/-- Actions on the frames there are leave the debt as it is. -/
theorem debt_of_reuses {α : Type} {p : Op α} (hp : p.Only (Action.Reuses c))
    (hidle : debtRules.idle d) : debtRules.wp (fun _ => debtRules.idle) p d := by
  apply wp_of_only (fun _ h => h) _ hp hidle
  intro a d ha hidle
  cases a with
  | enqueueNew p => exact ha.elim
  | addDepth n => exact ha.elim
  | posixMemalign len num => exact ha.elim
  | _ =>
    refine ⟨trivial, ?_⟩
    rintro r d' rfl
    exact hidle

/-- No operation does. -/
theorem debt_body (op : Operation) (hidle : debtRules.idle d) :
    debtRules.wp (fun _ => debtRules.idle) (body c op) d := by
  have hd : d = ⟨0, 0⟩ := hidle
  -- only the constructor and a pool that is empty make frames
  by_cases hop : op.Reuses
  · exact debt_of_reuses (only_reuses hop) hidle
  · cases op with
    | construct initDepth =>
      rw [hd]
      apply wp_bind
      apply wp_bind
      apply wp_mono (debt_initDataPool initDepth)
      intro ok d₁ h₁
      split_ifs <;> exact h₁
    | pGetTryBest p =>
      rw [hd]
      apply wp_bind
      apply wp_perform_bind trivial
      rintro data d₁ rfl
      cases data with
      | some pD =>
        apply wp_bind
        exact debt_of_reuses (only_assignShared p pD _ id) rfl
      | none =>
        apply wp_bind
        apply wp_mono (debt_initDataPool 64)
        intro ok d₁ h₁
        split_ifs
        · exact h₁
        · apply wp_bind
          exact debt_of_reuses (c := c) (only_reset p) h₁
    | _ => exact absurd trivial hop

/-! ## The accounts -/

/-- Every request for memory is granted. -/
def granted : Action → Choice → Bool
  | .posixMemalign .., .base mem => mem != 0
  | .posixMemalign .., _ => false
  | _, _ => true

def Granted (_ : State) (_ : Tid) (a : Action) (choice : Choice) : Prop :=
  granted a choice = true

instance (s t a choice) : Decidable (Granted s t a choice) :=
  inferInstanceAs (Decidable (granted a choice = true))

theorem fresh_add (l : Local) (xs : List (Stage × QueParticle)) :
    (l.add xs).fresh = xs.countP (fun x => x.1 = .fresh) + l.fresh := by
  unfold Local.fresh Local.add
  rw [Multiset.countP_add, Multiset.coe_countP]

/-- What leaves a handle is not fresh. -/
theorem fresh_leaving (dead : Option QueParticleAr) :
    (leaving dead).countP (fun x => x.1 = .fresh) = 0 := by
  rcases dead with _ | ⟨owners, _ | p, _ | q, tok⟩ <;> simp [leaving]

theorem countP_freshOf (ps : List QueParticle) :
    (freshOf ps).countP (fun x => x.1 = .fresh) = ps.length := by
  rw [List.countP_eq_length.mpr (by simp), List.length_map]

/-- The new frames of a thread come from the allocator and go into the pool. -/
theorem fresh_gives {l l' : Local} {r : Answer a} (h : (rules c).gives l a r l') :
    l'.fresh + spent a = l.fresh + minted a r := by
  have hheld : ∀ (l : Local) b, (⟨l.held, b⟩ : Local).fresh = l.fresh := fun _ _ => rfl
  cases a with
  | dequeue q =>
    rw [h, fresh_add]
    cases r <;> simp [spent, minted]
  | enqueue q tok d =>
    rw [h.2, fresh_add]
    cases d <;> simp [spent, minted]
  | enqueueNew p =>
    rw [h.2, fresh_add]
    simp [spent, minted, Nat.add_comm]
  | makeShared p q tok =>
    rw [h.1, fresh_add, hheld]
    simp [spent, minted]
    rfl
  | moveTmp v =>
    rw [h.2, fresh_add, hheld, fresh_leaving]
    simp [spent, minted]
  | copy v w | reset v =>
    rw [h.2, fresh_add, fresh_leaving]
    simp [spent, minted]
  | takeOut v =>
    rw [h, fresh_add]
    simp [spent, minted]
  | posixMemalign len num =>
    rw [h, fresh_add]
    cases r with
    | none => simp [spent, minted]
    | some mem =>
      rw [Option.toList_some, List.flatMap_singleton, countP_freshOf]
      simp [spent, minted, particles, Nat.add_comm]
  | size pv | setSize pv n | hostMem mem len | addDepth n =>
    rw [h]
    rfl

/-- An action of a call goes by the debt of the call. -/
theorem step_debt {r : Answer a} (hgranted : Granted s t a choice)
    (hneeds : debtRules.needs d a) (h : step c t a choice s = some (r, s')) :
    ∃ d', debtRules.gives d a r d' ∧ d'.fresh + spent a = d.fresh + minted a r ∧
      d'.owed + (added a).toNat = d.owed + 2 * minted a r := by
  cases a with
  | addDepth n => exact ⟨_, rfl, rfl, Nat.sub_add_cancel hneeds⟩
  | enqueueNew p =>
    exact ⟨_, ⟨(Prod.mk.inj (Option.some.inj h)).1.symm, rfl⟩, Nat.sub_add_cancel hneeds, rfl⟩
  | posixMemalign len num =>
    rcases step_posixMemalign_cases h with ⟨base, rfl, _, rfl, _⟩ | ⟨hchoice, _, _⟩
    · have hbase : base ≠ 0 := by simpa [Granted, granted] using hgranted
      exact ⟨_, ⟨⟨_, rfl, hbase⟩, rfl⟩, rfl, rfl⟩
    · cases choice with
      | base base => exact absurd rfl (hchoice base)
      | none | element i => simp [Granted, granted] at hgranted
  | _ => exact ⟨d, rfl, rfl, rfl⟩

/-- The accounts agree with the state: the depth and what is owed make two for each frame. -/
structure Balanced (c : Params) (s : State) (acc : Tid → Local × Debt) : Prop where
  inv : Inv c s
  own : ∀ t, (acc t).1 = own s t
  fresh : ∀ t, (acc t).2.fresh = (acc t).1.fresh
  depth : ∃ x, Total (fun t => (acc t).2.owed) x ∧
    (s.depth.toNat + x) % 2 ^ 32 = 2 * s.total % 2 ^ 32

/-- **The counts are kept** in every interleaving of granted allocations. -/
theorem audited (c : Params) :
    Audited (system c) ((rules c).prod debtRules) Granted (Balanced c) where
  step := by
    intro s acc t a choice r s' hb hgranted hneeds h
    have hown := hb.own t
    have hneeds' : (rules c).needs (own s t) a := hown ▸ hneeds.1
    have hok := step_ok hb.inv hneeds' h
    obtain ⟨d', hgives, hfresh, howed⟩ := step_debt hgranted hneeds.2 h
    obtain ⟨htotal, hdepth⟩ := step_counts hb.inv hneeds' h
    have hlocal := fresh_gives hok.gives
    refine ⟨(own s' t, d'), ⟨hown ▸ hok.gives, hgives⟩, hok.inv, ?_, ?_, ?_⟩
    · intro u
      by_cases hu : u = t
      · rw [hu, Function.update_self]
      · rw [Function.update_of_ne hu, hok.frame u hu]
        exact hb.own u
    · intro u
      by_cases hu : u = t
      · have hbefore := hb.fresh t
        rw [hown] at hbefore
        rw [hu, Function.update_self]
        show d'.fresh = (own s' t).fresh
        omega
      · rw [Function.update_of_ne hu]
        exact hb.fresh u
    · obtain ⟨x, hx, hbalance⟩ := hb.depth
      obtain ⟨y, hxy, hy⟩ := hx.update t d'.owed
      -- only the thread that acts changes its debt
      have hacc : (fun u => (Function.update acc t (own s' t, d') u).2.owed) =
          Function.update (fun u => (acc u).2.owed) t d'.owed := by
        ext u
        by_cases hu : u = t
        · rw [hu, Function.update_self, Function.update_self]
        · rw [Function.update_of_ne hu, Function.update_of_ne hu]
      refine ⟨y, hacc ▸ hy, ?_⟩
      rw [hdepth, UInt32.toNat_add, htotal]
      omega
  body op l hidle := wp_prod (wp_body op hidle.1) (debt_body op hidle.2)

/-! ## At rest -/

variable {k k₁ : Threads}

/-- They hold before the constructor. -/
theorem kept_start (c : Params) : Kept ((rules c).prod debtRules) (Balanced c) start := by
  refine ⟨fun t => (own start.state t, ⟨0, 0⟩), ?_, fun t => ⟨(good_start c).ready t, rfl⟩⟩
  exact ⟨inv_init c, fun _ => rfl, fun _ => rfl, 0, total_zero, rfl⟩

/-- Where no call is in progress, the depth is twice the number of the frames. -/
theorem depth_at_rest (hk : Kept ((rules c).prod debtRules) (Balanced c) k)
    (hidle : ∀ t, k.running t = none) :
    k.state.depth.toNat = 2 * k.state.frames % 2 ^ 32 := by
  obtain ⟨acc, hb, hready⟩ := hk
  have hacc : ∀ t, (rules c).idle (acc t).1 ∧ (acc t).2 = ⟨0, 0⟩ := by
    intro t
    have := hready t
    rw [hidle t] at this
    exact this
  -- what a thread at rest held would be new frames, and it has none
  have hheld : k.state.held = [] := by
    apply List.eq_nil_iff_forall_not_mem.mpr
    intro x hx
    have hmem : (x.stage, x.particle) ∈ (acc x.thread).1.held := by
      rw [hb.own]
      exact mem_heldBy.mpr hx
    have hfresh := hb.fresh x.thread
    rw [(hacc x.thread).2] at hfresh
    have hnone := Multiset.countP_eq_zero.mp hfresh.symm
    exact hnone _ hmem ((hacc x.thread).1.1 _ hmem)
  obtain ⟨x, hx, hbalance⟩ := hb.depth
  have hzero : x = 0 := hx.eq_zero fun t => congrArg Debt.owed (hacc t).2
  have hlt := k.state.depth.toNat_lt
  rw [hzero, State.total, hheld, List.length_nil] at hbalance
  omega

/-! ## After the constructor -/

theorem direct_charArray (len : UInt64) (num : UInt32) : (charArray len num).Direct := by
  apply direct_bind (direct_perform _)
  intro mem
  cases mem <;> exact trivial

theorem direct_mallocAligned (ps : List QueParticle) (n : ℕ) : (mallocAligned c ps n).Direct := by
  induction n generalizing ps with
  | zero => exact trivial
  | succ n ih =>
    apply direct_bind (direct_charArray _ _)
    intro mem
    split_ifs
    · exact trivial
    · apply direct_bind (direct_perform _)
      intro _
      apply direct_bind (direct_perform _)
      intro _
      exact ih _

theorem direct_mallocSliced (num : UInt32) : (mallocSliced c num).Direct := by
  apply direct_bind (direct_charArray _ _)
  intro mem
  split_ifs
  · exact trivial
  · apply direct_bind (direct_perform _)
    intro _
    exact direct_bind (direct_perform _) fun _ => trivial

theorem direct_mallocParticle (num : UInt32) : (mallocParticle c num).Direct := by
  have hmalloc : (if c.allMemalign then mallocAligned c [] num.toNat
      else mallocSliced c num).Direct := by
    split_ifs
    · exact direct_mallocAligned [] num.toNat
    · exact direct_mallocSliced num
  unfold mallocParticle
  by_cases hnum : num = 0
  · rw [if_pos hnum]
    exact trivial
  · rw [if_neg hnum]
    apply direct_bind hmalloc
    intro r
    split
    split_ifs
    · exact direct_bind (direct_perform _) fun _ => trivial
    · exact trivial

theorem direct_enqueueAll (ps : List QueParticle) : (enqueueAll ps).Direct := by
  induction ps with
  | nil => exact trivial
  | cons p ps ih =>
    apply direct_bind (direct_perform _)
    intro ok
    split_ifs
    · exact direct_bind ih fun _ => trivial
    · exact trivial

/-- The constructor does not wait. -/
theorem direct_construct (n : UInt32) : (construct c n).Direct := by
  have hpool : (initDataPool c n).Direct := by
    apply direct_bind (direct_mallocParticle n)
    intro r
    split
    split_ifs
    · exact direct_bind (direct_enqueueAll _) fun _ => trivial
    · exact trivial
  apply direct_bind hpool
  intro ok
  split_ifs <;> exact trivial

/-- The pool grows by what is enqueued. -/
theorem returns_enqueueAll {ps : List QueParticle} {i : ℕ}
    (h : (enqueueAll ps).Returns (step c t) s i s') :
    s'.sizeApproxCtoP = s.sizeApproxCtoP + i := by
  induction ps generalizing s i with
  | nil =>
    obtain ⟨rfl, rfl⟩ := h
    rfl
  | cons p ps ih =>
    obtain ⟨ok, s₁, hnew, hrest⟩ := returns_bind.mp h
    obtain ⟨choice, hstep⟩ := returns_perform.mp hnew
    obtain ⟨rfl, rfl⟩ := Prod.mk.inj (Option.some.inj hstep)
    obtain ⟨j, s₂, hall, hj, rfl⟩ := returns_bind.mp hrest
    rw [ih hall, ← hj]
    simp [State.sizeApproxCtoP]
    omega

/-- A constructor that returns has put something into the pool. -/
theorem returns_construct {n : UInt32} (h : (construct c n).Returns (step c t) s () s') :
    1 ≤ s'.sizeApproxCtoP := by
  obtain ⟨ok, s₁, hpool, hret⟩ := returns_bind.mp h
  obtain ⟨⟨made, ps⟩, s₂, _, hrest⟩ := returns_bind.mp hpool
  cases ok with
  | false => exact hret.elim
  | true =>
    cases made with
    | false => exact absurd hrest.1 (by simp)
    | true =>
      obtain ⟨i, s₃, hall, hi, rfl⟩ := returns_bind.mp hrest
      have hne : i ≠ 0 := by simpa using hi
      rw [← hret.2, returns_enqueueAll hall]
      omega

/-- Thread `t` constructs a queue while the others wait. -/
def constructs (t : Tid) (n : UInt32) (choices : List Choice) : List QEvent :=
  .call t (.construct n) :: choices.map (.go t)

/-- A constructed queue has a frame in its pool. -/
theorem pool_constructed {n : UInt32} {choices : List Choice} {x : Option Bool}
    (hnew : (system c).run start (constructs t n choices) = some k₁)
    (hret : k₁.running t = some (.construct n, .ret x)) : 1 ≤ k₁.state.sizeApproxCtoP := by
  obtain ⟨k₀, hcall, hrun⟩ := System.run_cons.mp hnew
  rw [← Option.some.inj hcall] at hrun
  have hd : (body c (.construct n)).Direct := direct_bind (direct_construct n) fun _ => trivial
  obtain ⟨s, hbody, hk₁⟩ := System.run_go_iff hd (Function.update_self ..) |>.mp
    ⟨choices, hrun, hret⟩
  obtain ⟨_, s₁, hconstruct, _, hs⟩ := returns_bind.mp hbody
  rw [hk₁, ← hs]
  exact returns_construct hconstruct

/-- What was in the pool once is in the queue where no call is in progress. -/
theorem frames_at_rest (hg : Good (rules c) own (Inv c) k₁) {es : List QEvent}
    (hrun : (system c).run k₁ es = some k) (hpool : 1 ≤ k₁.state.sizeApproxCtoP)
    (hidle : ∀ t, k.running t = none) : 1 ≤ k.state.frames := by
  obtain ⟨e, he⟩ := List.exists_mem_of_length_pos hpool
  obtain ⟨pl, hpl, ha⟩ := run_alone hg hrun (by simp) (alone_of_pool hg.inv he)
  have hin := (inUse_of_alone ((sound c).run hg hrun) hpl ha).at_rest hidle
  have hone := ha.1
  unfold State.frames State.sizeApproxPtoC State.sizeApproxCtoP State.inHandles
  -- the frame is in the pool, on its way to the consumers, or in a handle
  rcases hin with rfl | rfl | ⟨q, rfl⟩
  · have hle := (k.state.queue .dataPool).countP_le_length (p := fun x => x.particle = e.particle)
    rw [show (k.state.queue .dataPool).countP (fun x => x.particle = e.particle) = 1 from hone]
      at hle
    omega
  · have hle := (k.state.queue .dataPtoC).countP_le_length (p := fun x => x.particle = e.particle)
    rw [show (k.state.queue .dataPtoC).countP (fun x => x.particle = e.particle) = 1 from hone]
      at hle
    omega
  · have hle : k.state.handles.countP (fun h => h.pHostQ = some q ∧ h.pQdata = some e.particle) ≤
        k.state.handles.countP fun h => h.pQdata.isSome := by
      apply List.countP_mono_left
      intro h _ hh
      simp only [decide_eq_true_eq] at hh
      rw [hh.2]
      rfl
    rw [show k.state.handles.countP (fun h => h.pHostQ = some q ∧ h.pQdata = some e.particle) = 1
      from hone] at hle
    omega

/-! ## Every history -/

/-- A history of a queue, up to a moment where no call is in progress: thread `t` constructs it,
the constructor returns, and the events `es` follow. Every request for memory is granted. -/
structure History (c : Params) (t : Tid) (n : UInt32) (choices : List Choice) (es : List QEvent)
    (k₁ k : Threads) : Prop where
  new : (system c).run start (constructs t n choices) = some k₁
  returned : k₁.running t = some (.construct n, .ret none)
  run : (system c).run k₁ es = some k
  granted : (system c).Meets Granted start (constructs t n choices ++ es)
  rest : ∀ u, k.running u = none

/-- In every history the depth is twice the number of the frames in `_dataPool`, in `_dataPtoC`
and in live handles, and so it is not that number. -/
theorem depth_never_frames {n : UInt32} {choices : List Choice} {es : List QEvent}
    (h : History c t n choices es k₁ k) :
    k.state.getDepth.toNat = 2 * k.state.frames % 2 ^ 32 ∧
      k.state.getDepth.toNat ≠ k.state.frames := by
  have hrun := System.run_append.mpr ⟨k₁, h.new, h.run⟩
  have hdepth := depth_at_rest ((audited c).run (kept_start c) h.granted hrun) h.rest
  have hframes := frames_at_rest ((sound c).run (good_start c) h.new) h.run
    (pool_constructed h.new h.returned) h.rest
  refine ⟨hdepth, ?_⟩
  show k.state.depth.toNat ≠ k.state.frames
  omega

/-- A constructor of one frame. -/
def oneFrame : List Choice := [.base 65536, .none, .none, .none, .none]

/-- Thread 1 takes the frame, and wants another one: the pool grows. -/
def growing : List QEvent :=
  ([.go 0 .none, .call 1 (.pGet (.var 0)), .go 1 (.element 0), .go 1 .none, .go 1 .none,
    .go 1 .none, .call 1 (.pGetTryBest (.var 1)), .go 1 .none, .go 1 (.base 131072)] :
      List QEvent) ++ List.replicate 68 (.go 1 .none) ++
  ([.go 1 (.element 0), .go 1 .none, .go 1 .none, .go 1 .none] : List QEvent)

def constructed : Threads :=
  ((system ⟨4096, false, false⟩).run start (constructs 0 1 oneFrame)).get (by decide +kernel)

def grown : Threads :=
  ((system ⟨4096, false, false⟩).run constructed growing).get (by decide +kernel)

theorem history_grown :
    History ⟨4096, false, false⟩ 0 1 oneFrame growing constructed grown where
  new := (Option.some_get _).symm
  returned := rfl
  run := (Option.some_get _).symm
  granted := by decide +kernel
  rest := by
    have hthreads : ∀ e ∈ constructs 0 1 oneFrame ++ growing, e.thread = 0 ∨ e.thread = 1 := by
      decide +kernel
    have hrun : (system ⟨4096, false, false⟩).run start (constructs 0 1 oneFrame ++ growing) =
        some grown :=
      System.run_append.mpr ⟨constructed, (Option.some_get _).symm, (Option.some_get _).symm⟩
    intro u
    by_cases h0 : u = 0
    · rw [h0]
      exact Option.isNone_iff_eq_none.mp (by decide +kernel)
    · by_cases h1 : u = 1
      · rw [h1]
        exact Option.isNone_iff_eq_none.mp (by decide +kernel)
      · apply System.run_others _ hrun
        intro e he hu
        rcases hthreads e he with h | h
        · exact h0 (hu.symm.trans h)
        · exact h1 (hu.symm.trans h)

theorem depth_never_frames_grown : grown.state.getDepth.toNat = 2 * grown.state.frames % 2 ^ 32 ∧
    grown.state.getDepth.toNat ≠ grown.state.frames :=
  depth_never_frames history_grown

/-- A depth of 130, and 65 frames. -/
theorem depth_not_frames : ¬ ∀ (c : Params) (t : Tid) (n : UInt32) (choices : List Choice)
    (es : List QEvent) (k₁ k : Threads), 1 ≤ n → History c t n choices es k₁ k →
      k.state.getDepth.toNat = k.state.frames := by
  intro hdepth
  have h := hdepth _ _ _ _ _ _ _ (by decide) history_grown
  revert h
  decide +kernel

end Queue
end S4LibLite
