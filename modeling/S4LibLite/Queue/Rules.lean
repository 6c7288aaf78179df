import S4LibLite.Queue.Places
import Mathlib.Algebra.Order.Group.Multiset

/-!
# The rules of the queue's actions

What a thread has of its own are the frames in the local variables of its call, and whether
it has a handle without a variable yet. Each action keeps the invariant of the queue, gives
the thread what the rules say and leaves the other threads what they have.

* `spec_dequeue`, ..., `spec_posixMemalign`, one for each action;
* `step_ok`, of any action.
-/

namespace S4LibLite
namespace Queue

open Custody Interleaving

/-! ## What belongs to a thread -/

/-- The frames in the hands of a thread, and whether its `tmp` owns a handle. -/
structure Local where
  held : Multiset (Stage × QueParticle)
  tmp : Bool

def Local.add (l : Local) (xs : List (Stage × QueParticle)) : Local := ⟨xs + l.held, l.tmp⟩

def heldBy (t : Tid) (l : List Held) : Multiset (Stage × QueParticle) :=
  l.filterMap fun x => if x.thread = t then some (x.stage, x.particle) else none

def tmpOwns (t : Tid) (hs : List QueParticleAr) : Bool :=
  hs.any fun h => decide (.tmp t ∈ h.owners)

def own (s : State) (t : Tid) : Local := ⟨heldBy t s.held, tmpOwns t s.handles⟩

/-- The rules of the actions. -/
def rules (c : Params) : Rules Action Answer Local where
  needs l
    | .enqueue q _ d => ∃ p, d = some p ∧ (.leaving q, p) ∈ l.held
    | .enqueueNew p => (.fresh, p) ∈ l.held
    | .makeShared p q _ => (.taken q.other, p) ∈ l.held ∧ l.tmp = false
    | .posixMemalign len num => len = c.pageSize * num.toUInt64 ∧ (c.allMemalign = true → num = 1)
    | _ => True
  gives l
    | .dequeue q, r, l' => l' = l.add (r.toList.map fun p => (.taken q, p))
    | .enqueue q _ d, r, l' => r = true ∧ l = l'.add (d.toList.map fun p => (.leaving q, p))
    | .enqueueNew p, r, l' => r = true ∧ l = l'.add [(.fresh, p)]
    | .makeShared p q _, _, l' => l = (⟨l'.held, false⟩ : Local).add [(.taken q.other, p)] ∧
        l'.tmp = true
    | .moveTmp _, dead, l' => (∀ h, dead = some h → h.WF) ∧
        l' = (⟨l.held, false⟩ : Local).add (leaving dead)
    | .copy .., dead, l' => (∀ h, dead = some h → h.WF) ∧ l' = l.add (leaving dead)
    | .reset _, dead, l' => (∀ h, dead = some h → h.WF) ∧ l' = l.add (leaving dead)
    | .takeOut _, p, l' => l' = l.add [(.leaving .dataPtoC, p)]
    | .posixMemalign _ num, r, l' =>
        l' = l.add (r.toList.flatMap fun mem => (particles c mem num).map fun p => (.fresh, p))
    | _, _, l' => l' = l
  idle l := (∀ x ∈ l.held, x.1 = .fresh) ∧ l.tmp = false

/-! ## The invariant -/

/-- Two blocks have no byte in common. -/
def Block.Apart (b b' : Block) : Prop :=
  b.base.toNat + b.len.toNat ≤ b'.base.toNat ∨ b'.base.toNat + b'.len.toNat ≤ b.base.toNat

/-- No frame is twice anywhere, each is cut from a block there is, and the allocator has kept
the blocks apart. -/
structure Inv (c : Params) (s : State) : Prop where
  tidy : Tidy s.marking
  cut : ∀ p, ¬ Absent s.marking p → ∃ b, s.blocks[p.mem]? = some b ∧ p.slot < b.num.toNat ∧
    p = particle c (p.mem, b.base) p.slot
  wf : ∀ h ∈ s.handles, h.WF
  len : ∀ b ∈ s.blocks, b.len = c.pageSize * b.num.toUInt64
  single : c.allMemalign = true → ∀ b ∈ s.blocks, b.num = 1
  inside : ∀ b ∈ s.blocks, b.base.toNat + b.len.toNat ≤ 2 ^ 64
  apart : s.blocks.Pairwise Block.Apart

/-- The action went by the rules. -/
structure StepOk (c : Params) (s s' : State) (t : Tid) (a : Action) (r : Answer a) : Prop where
  advance : Advance Place.next (.held .fresh) s.marking s'.marking
  inv : Inv c s'
  gives : (rules c).gives (own s t) a r (own s' t)
  frame : ∀ u, u ≠ t → own s' u = own s u

variable {c : Params} {s s' : State} {t u : Tid} {l : List Held} {x : Stage × QueParticle}

/-- An action that allocates nothing. -/
theorem Inv.hop (hi : Inv c s) (h : Hop Place.next s.marking s'.marking)
    (hblocks : s'.blocks = s.blocks) (hwf : ∀ h ∈ s'.handles, h.WF) : Inv c s' where
  tidy := by
    have hadvance : Advance Place.next (.held .fresh) s.marking s'.marking := .hop h
    exact hadvance.tidy hi.tidy
  cut p hp := by
    rw [hblocks]
    exact hi.cut p fun habsent => hp (h.absent habsent)
  wf := hwf
  len := hblocks ▸ hi.len
  single := hblocks ▸ hi.single
  inside := hblocks ▸ hi.inside
  apart := hblocks ▸ hi.apart

/-- No frame is cut from a block that there is not. -/
theorem Inv.absent (hi : Inv c s) {p : QueParticle} (hp : p.mem = s.blocks.length) :
    Absent s.marking p := by
  by_contra hne
  obtain ⟨b, hb, _⟩ := hi.cut p hne
  rw [hp] at hb
  simp at hb

/-! ## Hands -/

/-- What comes into the hands of `t` is held by it. -/
theorem heldBy_cons_self : heldBy t (hold t x :: l) = x ::ₘ heldBy t l := by
  simp [heldBy, hold]

theorem heldBy_cons_of_ne (hu : u ≠ t) : heldBy u (hold t x :: l) = heldBy u l := by
  simp [heldBy, hold, hu.symm]

/-- The same for several frames. -/
theorem heldBy_append_self (xs : List (Stage × QueParticle)) :
    heldBy t (xs.map (hold t) ++ l) = xs + heldBy t l := by
  induction xs with
  | nil => simp
  | cons x xs ih =>
    rw [List.map_cons, List.cons_append, heldBy_cons_self, ih]
    rfl

/-- Another thread holds what it held. -/
theorem heldBy_append_of_ne (hu : u ≠ t) (xs : List (Stage × QueParticle)) :
    heldBy u (xs.map (hold t) ++ l) = heldBy u l := by
  induction xs with
  | nil => rfl
  | cons x xs ih => rw [List.map_cons, List.cons_append, heldBy_cons_of_ne hu, ih]

theorem mem_heldBy : x ∈ heldBy t l ↔ hold t x ∈ l := by
  unfold heldBy hold
  rw [Multiset.mem_coe, List.mem_filterMap]
  constructor
  · rintro ⟨⟨u, st, p⟩, hy, hyx⟩
    split_ifs at hyx with hu
    rw [← Option.some.inj hyx, ← hu]
    exact hy
  · intro hx
    exact ⟨_, hx, by simp⟩

theorem heldBy_perm {l l' : List Held} (h : l.Perm l') : heldBy t l = heldBy t l' :=
  Multiset.coe_eq_coe.mpr (h.filterMap _)

/-- What goes out of the hands of `t` was held by it. -/
theorem heldBy_erase_self (hx : x ∈ heldBy t l) :
    heldBy t l = x ::ₘ heldBy t (l.erase (hold t x)) := by
  rw [heldBy_perm (List.perm_cons_erase (mem_heldBy.mp hx)), heldBy_cons_self]

/-- Another thread still holds what it held. -/
theorem heldBy_erase_of_ne (hu : u ≠ t) (hx : x ∈ heldBy t l) :
    heldBy u (l.erase (hold t x)) = heldBy u l := by
  rw [heldBy_perm (List.perm_cons_erase (mem_heldBy.mp hx)), heldBy_cons_of_ne hu]

/-- Frames come into the hands of thread `t`. -/
theorem own_hold (xs : List (Stage × QueParticle)) (hheld : s'.held = xs.map (hold t) ++ s.held)
    (htmp : tmpOwns t s'.handles = tmpOwns t s.handles) : own s' t = (own s t).add xs := by
  unfold own Local.add
  rw [hheld, htmp, heldBy_append_self]

/-- What thread `t` takes changes nothing for another. -/
theorem own_hold_of_ne (xs : List (Stage × QueParticle)) (hu : u ≠ t)
    (hheld : s'.held = xs.map (hold t) ++ s.held)
    (htmp : tmpOwns u s'.handles = tmpOwns u s.handles) : own s' u = own s u := by
  unfold own
  rw [hheld, htmp, heldBy_append_of_ne hu]

/-- A frame goes out of the hands of thread `t`. -/
theorem own_unhold (hx : x ∈ (own s t).held) (hheld : s'.held = s.held.erase (hold t x))
    (htmp : tmpOwns t s'.handles = tmpOwns t s.handles) : own s t = (own s' t).add [x] := by
  unfold own Local.add
  rw [hheld, htmp, heldBy_erase_self hx]
  rfl

/-- What thread `t` gives changes nothing for another. -/
theorem own_unhold_of_ne (hu : u ≠ t) (hx : x ∈ (own s t).held)
    (hheld : s'.held = s.held.erase (hold t x))
    (htmp : tmpOwns u s'.handles = tmpOwns u s.handles) : own s' u = own s u := by
  unfold own
  rw [hheld, htmp, heldBy_erase_of_ne hu hx]

/-! ## Owners -/

theorem tmpOwns_append (hs hs' : List QueParticleAr) :
    tmpOwns t (hs ++ hs') = (tmpOwns t hs || tmpOwns t hs') := List.any_append

theorem tmpOwns_cons (h : QueParticleAr) (hs : List QueParticleAr) :
    tmpOwns t (h :: hs) = (decide (.tmp t ∈ h.owners) || tmpOwns t hs) := List.any_cons

/-- A variable that lets go of its handle is no thread's `tmp`. -/
theorem tmpOwns_dropOwner (v : Var) (hs : List QueParticleAr) :
    tmpOwns t (dropOwner (.var v) hs).2 = tmpOwns t hs := by
  rcases dropOwner_cases (.var v) hs with heq | ⟨l₁, h, l₂, rfl, hv, heq⟩ | ⟨l₁, h, l₂, rfl, _, heq⟩
  · rw [heq]
  · have htmp : Owner.tmp t ∉ h.owners := fun ht => by simpa using hv _ ht
    rw [heq, tmpOwns_append, tmpOwns_append, tmpOwns_cons, decide_eq_false htmp, Bool.false_or]
  · rw [heq, tmpOwns_append, tmpOwns_append, tmpOwns_cons, tmpOwns_cons]
    simp

/-- Handles stay well formed when an owner lets go, the dying one too. -/
theorem wf_dropOwner {hs : List QueParticleAr} (hwf : ∀ h ∈ hs, h.WF) (o : Owner) :
    (∀ h ∈ (dropOwner o hs).2, h.WF) ∧ ∀ h, (dropOwner o hs).1 = some h → h.WF := by
  rcases dropOwner_cases o hs with heq | ⟨l₁, h, l₂, rfl, _, heq⟩ | ⟨l₁, h, l₂, rfl, hne, heq⟩
  · rw [heq]
    exact ⟨hwf, fun h hh => by simp at hh⟩
  · rw [heq]
    refine ⟨fun x hx => hwf x ?_, fun x hx => hwf x ?_⟩
    · simp only [List.mem_append, List.mem_cons] at hx ⊢
      tauto
    · rw [← Option.some.inj hx]
      simp
  · rw [heq]
    refine ⟨fun x hx => ?_, fun x hx => by simp at hx⟩
    simp only [List.mem_append, List.mem_cons] at hx hwf
    rcases hx with hx | rfl | hx
    · exact hwf x (Or.inl hx)
    · exact ⟨hne, (hwf h (Or.inr (Or.inl rfl))).armed⟩
    · exact hwf x (Or.inr (Or.inr hx))

/-- A second owner leaves a handle well formed. -/
theorem wf_addOwner (o o' : Owner) {h : QueParticleAr} (hwf : h.WF) : (addOwner o o' h).WF := by
  unfold addOwner
  split_ifs
  · exact ⟨by simp, hwf.armed⟩
  · exact hwf

theorem wf_renameOwner (o o' : Owner) {h : QueParticleAr} (hwf : h.WF) :
    (renameOwner o o' h).WF := ⟨by simpa [renameOwner] using hwf.owned, hwf.armed⟩

/-- An owner more changes neither the queue nor the frame of a handle. -/
theorem addOwner_data (o o' : Owner) (h : QueParticleAr) :
    (addOwner o o' h).pHostQ = h.pHostQ ∧ (addOwner o o' h).pQdata = h.pQdata := by
  unfold addOwner
  split_ifs <;> exact ⟨rfl, rfl⟩

/-- A variable that becomes an owner is no thread's `tmp`. -/
theorem tmpOwns_addOwner (o : Owner) (v : Var) (hs : List QueParticleAr) :
    tmpOwns t (hs.map (addOwner o (.var v))) = tmpOwns t hs := by
  unfold tmpOwns
  rw [List.any_map]
  congr 1
  ext h
  unfold Function.comp addOwner
  split_ifs <;> simp

/-- A `tmp` that has been moved to a variable owns nothing. -/
theorem tmpOwns_renameOwner_self (v : Var) (hs : List QueParticleAr) :
    tmpOwns t (hs.map (renameOwner (.tmp t) (.var v))) = false := by
  unfold tmpOwns
  rw [List.any_map, List.any_eq_false]
  intro h _
  simp only [Function.comp, renameOwner, decide_eq_true_eq, List.mem_map, not_exists, not_and]
  intro o _
  split_ifs with ho
  · simp
  · exact ho

theorem tmpOwns_renameOwner_of_ne (hu : u ≠ t) (v : Var) (hs : List QueParticleAr) :
    tmpOwns u (hs.map (renameOwner (.tmp t) (.var v))) = tmpOwns u hs := by
  unfold tmpOwns
  rw [List.any_map]
  congr 1
  ext h
  simp only [Function.comp, renameOwner, List.mem_map, decide_eq_decide]
  constructor
  · rintro ⟨o, ho, heq⟩
    split_ifs at heq with hot
    exact heq ▸ ho
  · intro ho
    refine ⟨_, ho, if_neg ?_⟩
    intro heq
    exact hu (Owner.tmp.inj heq)

theorem Local.add_nil (l : Local) : l.add [] = l := congrArg (Local.mk · _) (Multiset.zero_add _)

/-- What a dying handle leaves comes to the thread whose owner let go. -/
theorem own_drop (v : Var) :
    own (s.drop t (.var v)).2 t = (own s t).add (leaving (s.drop t (.var v)).1) :=
  own_hold _ rfl (tmpOwns_dropOwner v s.handles)

/-- It does not come to another thread. -/
theorem own_drop_of_ne (hu : u ≠ t) (v : Var) : own (s.drop t (.var v)).2 u = own s u :=
  own_hold_of_ne (leaving (s.drop t (.var v)).1) hu rfl (tmpOwns_dropOwner v s.handles)

/-! ## The actions -/

/-- At most one frame goes to its next place, and the rules are kept. -/
theorem StepOk.of_hop {a : Action} {r : Answer a} (hi : Inv c s)
    (h : Hop Place.next s.marking s'.marking) (hblocks : s'.blocks = s.blocks)
    (hwf : ∀ h ∈ s'.handles, h.WF) (hgives : (rules c).gives (own s t) a r (own s' t))
    (hframe : ∀ u, u ≠ t → own s' u = own s u) : StepOk c s s' t a r :=
  ⟨.hop h, hi.hop h hblocks hwf, hgives, hframe⟩

/-- An action that neither the frames nor the handles notice. -/
theorem StepOk.of_same {a : Action} {r : Answer a} (hi : Inv c s) (hqueue : s'.queue = s.queue)
    (hhandles : s'.handles = s.handles) (hheld : s'.held = s.held)
    (hblocks : s'.blocks = s.blocks) (hgives : (rules c).gives (own s t) a r (own s t)) :
    StepOk c s s' t a r := by
  have hown : ∀ u, own s' u = own s u := by
    intro u
    unfold own
    rw [hhandles, hheld]
  apply StepOk.of_hop hi _ hblocks (hhandles ▸ hi.wf) (hown t ▸ hgives) fun u _ => hown u
  apply Hop.stay
  ext r y
  cases r <;> simp only [State.marking, hqueue, hhandles, hheld]

variable {choice : Choice} {q : QueueId} {v : Var}

/-- The element that is handed out comes into the hands of the thread. -/
theorem spec_dequeue {r : Option QueParticle} (hi : Inv c s)
    (h : step c t (.dequeue q) choice s = some (r, s')) : StepOk c s s' t (.dequeue q) r := by
  rcases step_dequeue_cases h with ⟨i, e, _, he, rfl, rfl⟩ | ⟨_, rfl, rfl⟩
  · apply StepOk.of_hop hi (.move _ _ (moved_dequeue he)) rfl hi.wf
    · exact own_hold [(.taken q, e.particle)] rfl rfl
    · intro u hu
      exact own_hold_of_ne [(.taken q, e.particle)] hu rfl rfl
  · exact StepOk.of_same hi rfl rfl rfl rfl (Local.add_nil _).symm

/-- The frame that leaves a handle goes into the queue. -/
theorem spec_enqueue {tok : Bool} {d : Option QueParticle} {r : Bool} (hi : Inv c s)
    (hneeds : (rules c).needs (own s t) (.enqueue q tok d))
    (h : step c t (.enqueue q tok d) choice s = some (r, s')) :
    StepOk c s s' t (.enqueue q tok d) r := by
  obtain ⟨p, rfl, hp⟩ := hneeds
  obtain ⟨rfl, rfl⟩ := Prod.mk.inj (Option.some.inj h)
  have hmoved := moved_push (q := q) (e := ⟨if tok then .token else .thread t, p⟩)
    (mem_heldBy.mp hp)
  apply StepOk.of_hop hi (.move _ _ hmoved) rfl hi.wf
  · exact ⟨rfl, own_unhold hp rfl rfl⟩
  · intro u hu
    exact own_unhold_of_ne hu hp rfl rfl

theorem spec_enqueueNew {p : QueParticle} {r : Bool} (hi : Inv c s)
    (hneeds : (rules c).needs (own s t) (.enqueueNew p))
    (h : step c t (.enqueueNew p) choice s = some (r, s')) :
    StepOk c s s' t (.enqueueNew p) r := by
  obtain ⟨rfl, rfl⟩ := Prod.mk.inj (Option.some.inj h)
  have hmoved := moved_push (q := .dataPool) (e := ⟨.thread t, p⟩) (mem_heldBy.mp hneeds)
  apply StepOk.of_hop hi (.move _ _ hmoved) rfl hi.wf
  · exact ⟨rfl, own_unhold hneeds rfl rfl⟩
  · intro u hu
    exact own_unhold_of_ne hu hneeds rfl rfl

/-- The frame that was taken goes into the handle that `tmp` owns. -/
theorem spec_makeShared {p : QueParticle} {tok : Bool} (hi : Inv c s)
    (hneeds : (rules c).needs (own s t) (.makeShared p q tok))
    (h : step c t (.makeShared p q tok) choice s = some ((), s')) :
    StepOk c s s' t (.makeShared p q tok) () := by
  obtain ⟨_, rfl⟩ := Prod.mk.inj (Option.some.inj h)
  have hnext : Place.next (.held (.taken q.other)) = .handle q :=
    congrArg Place.handle q.other_other
  refine StepOk.of_hop hi ?_ rfl ?_ ?_ ?_
  · -- a handle for `q` is made of a frame from the other queue
    apply Hop.move p (.held (.taken q.other))
    rw [hnext]
    exact moved_makeShared (mem_heldBy.mp hneeds.1)
  · intro h hh
    rcases List.mem_cons.mp hh with rfl | hh
    · exact ⟨List.cons_ne_nil _ _, rfl⟩
    · exact hi.wf h hh
  · refine ⟨?_, by simp [own, tmpOwns_cons]⟩
    unfold own Local.add
    rw [heldBy_erase_self hneeds.1, ← hneeds.2]
    rfl
  · intro u hu
    refine own_unhold_of_ne hu hneeds.1 rfl ?_
    simp [tmpOwns_cons, hu]

/-- What the three actions on a variable have in common. -/
theorem spec_drop (hi : Inv c s) (v : Var) {f : QueParticleAr → QueParticleAr}
    (hf : ∀ h, (f h).pHostQ = h.pHostQ ∧ (f h).pQdata = h.pQdata) (hwf : ∀ h, h.WF → (f h).WF)
    {a : Action} {r : Answer a}
    (hs' : s' = (s.drop t (.var v)).2.mapHandles f)
    (hgives : (rules c).gives (own s t) a r (own s' t))
    (htmp : ∀ u, u ≠ t → ∀ hs, tmpOwns u (hs.map f) = tmpOwns u hs) : StepOk c s s' t a r := by
  subst hs'
  refine StepOk.of_hop hi ?_ rfl ?_ hgives ?_
  · rw [marking_mapHandles f hf]
    exact hop_drop hi.wf (.var v)
  · intro h hh
    obtain ⟨h', hh', rfl⟩ := List.mem_map.mp hh
    exact hwf h' ((wf_dropOwner hi.wf (.var v)).1 h' hh')
  · intro u hu
    calc own ((s.drop t (.var v)).2.mapHandles f) u
        = own (s.drop t (.var v)).2 u := congrArg (Local.mk _) (htmp u hu _)
      _ = own s u := own_drop_of_ne hu v

theorem spec_moveTmp {dead : Option QueParticleAr} (hi : Inv c s)
    (h : step c t (.moveTmp v) choice s = some (dead, s')) :
    StepOk c s s' t (.moveTmp v) dead := by
  obtain ⟨rfl, rfl⟩ := Prod.mk.inj (Option.some.inj h)
  refine spec_drop (f := renameOwner (.tmp t) (.var v)) hi v (fun h => ⟨rfl, rfl⟩)
    (fun h => wf_renameOwner _ _) rfl ?_ ?_
  · refine ⟨(wf_dropOwner hi.wf (.var v)).2, ?_⟩
    have hheld := congrArg Local.held (own_drop (s := s) (t := t) v)
    have htmp := tmpOwns_renameOwner_self (t := t) v (s.drop t (.var v)).2.handles
    exact congrArg₂ Local.mk hheld htmp
  · intro u hu hs
    exact tmpOwns_renameOwner_of_ne hu v hs

theorem spec_copy {w : Var} {dead : Option QueParticleAr} (hi : Inv c s)
    (h : step c t (.copy v w) choice s = some (dead, s')) :
    StepOk c s s' t (.copy v w) dead := by
  rcases step_copy_cases h with ⟨rfl, rfl⟩ | ⟨rfl, rfl⟩
  · apply StepOk.of_same hi rfl rfl rfl rfl
    exact ⟨fun h hh => by simp at hh, (Local.add_nil _).symm⟩
  · refine spec_drop (f := addOwner (.var w) (.var v)) hi v (addOwner_data _ _)
      (fun h => wf_addOwner _ _) rfl ?_ ?_
    · refine ⟨(wf_dropOwner hi.wf (.var v)).2, ?_⟩
      rw [← own_drop]
      exact congrArg (Local.mk _) (tmpOwns_addOwner _ v _)
    · intro u _ hs
      exact tmpOwns_addOwner _ v hs

theorem spec_reset {dead : Option QueParticleAr} (hi : Inv c s)
    (h : step c t (.reset v) choice s = some (dead, s')) :
    StepOk c s s' t (.reset v) dead := by
  obtain ⟨rfl, rfl⟩ := Prod.mk.inj (Option.some.inj h)
  refine spec_drop (f := id) hi v (fun h => ⟨rfl, rfl⟩) (fun h hwf => hwf) ?_ ?_ ?_
  · simp [State.drop, State.mapHandles]
  · exact ⟨(wf_dropOwner hi.wf (.var v)).2, own_drop v⟩
  · intro u _ hs
    rw [List.map_id]

/-- The frame of a handle comes into the hands of the thread. -/
theorem spec_takeOut {p : QueParticle} (hi : Inv c s)
    (h : step c t (.takeOut v) choice s = some (p, s')) : StepOk c s s' t (.takeOut v) p := by
  obtain ⟨hs, heq, rfl⟩ := step_takeOut_eq h
  obtain ⟨l₁, x, l₂, hhandles, hq, hp, rfl⟩ := disarm_eq_some heq
  have htmp : ∀ u, tmpOwns u (l₁ ++ { x with pHostQ := none, pQdata := none } :: l₂) =
      tmpOwns u s.handles := by
    intro u
    rw [hhandles, tmpOwns_append, tmpOwns_append, tmpOwns_cons, tmpOwns_cons]
  refine StepOk.of_hop hi (.move _ _ (moved_takeOut hhandles hq hp)) rfl ?_ ?_ ?_
  · intro h hh
    have hwf := hi.wf
    rw [hhandles] at hwf
    simp only [List.mem_append, List.mem_cons] at hh hwf
    rcases hh with hh | rfl | hh
    · exact hwf h (Or.inl hh)
    · exact ⟨(hwf x (Or.inr (Or.inl rfl))).owned, rfl⟩
    · exact hwf h (Or.inr (Or.inr hh))
  · exact own_hold [(.leaving .dataPtoC, _)] rfl (htmp t)
  · intro u hu
    exact own_hold_of_ne [(.leaving .dataPtoC, _)] hu rfl (htmp u)

/-- The bounds the allocator keeps. -/
theorem allocOk_iff {base len : UInt64} : allocOk s base len = true ↔
    base.toNat % 4096 = 0 ∧ base.toNat + len.toNat ≤ 2 ^ 64 ∧ (base ≠ 0 ∨ len = 0) ∧
      ∀ b ∈ s.blocks, b.Apart ⟨base, len, 0⟩ := by
  simp [allocOk, Block.Apart, UInt64.size, and_assoc, or_comm]

/-- A frame of a block is the one of its slot. -/
theorem particle_of_mem {mem : ℕ × UInt64} {num : UInt32} {p : QueParticle}
    (hp : p ∈ particles c mem num) : p.slot < num.toNat ∧ p = particle c mem p.slot := by
  obtain ⟨n, hn, rfl⟩ := List.mem_map.mp hp
  exact ⟨List.mem_range.mp hn, rfl⟩

/-- A new block, apart from the others, and its frames. -/
theorem Inv.allocate (hi : Inv c s) {b : Block} (hlen : b.len = c.pageSize * b.num.toUInt64)
    (hsingle : c.allMemalign = true → b.num = 1)
    (hinside : b.base.toNat + b.len.toNat ≤ 2 ^ 64) (hapart : ∀ b' ∈ s.blocks, b'.Apart b)
    (hblocks : s'.blocks = s.blocks ++ [b]) (hhandles : s'.handles = s.handles)
    (hmint : Minted s.marking s'.marking (particles c (s.blocks.length, b.base) b.num)
      (.held .fresh)) : Inv c s' where
  tidy := by
    have hadvance : Advance Place.next (.held .fresh) s.marking s'.marking := .mint _ hmint
    exact hadvance.tidy hi.tidy
  cut p hp := by
    rw [hblocks]
    by_cases hnew : p ∈ particles c (s.blocks.length, b.base) b.num
    · obtain ⟨hslot, hparticle⟩ := particle_of_mem hnew
      have hmem : p.mem = s.blocks.length := mem_particles hnew
      exact ⟨b, by rw [hmem]; simp, hslot, by rw [hmem]; exact hparticle⟩
    · -- a frame that is not new was there before
      have hold : ¬ Absent s.marking p := by
        intro habsent
        apply hp
        intro r
        rw [hmint.rest p hnew, habsent r]
      obtain ⟨b', hb', hp'⟩ := hi.cut p hold
      refine ⟨b', ?_, hp'⟩
      rw [List.getElem?_append_left (List.getElem?_eq_some_iff.mp hb').1, hb']
  wf := hhandles ▸ hi.wf
  len := hblocks ▸ List.forall_mem_append.mpr ⟨hi.len, by simpa using hlen⟩
  single hc := hblocks ▸ List.forall_mem_append.mpr ⟨hi.single hc, by simpa using hsingle hc⟩
  inside := hblocks ▸ List.forall_mem_append.mpr ⟨hi.inside, by simpa using hinside⟩
  apart := by
    rw [hblocks, List.pairwise_append]
    refine ⟨hi.apart, List.pairwise_singleton _ _, fun b' hb' b'' hb'' => ?_⟩
    rw [List.mem_singleton.mp hb'']
    exact hapart b' hb'

/-- The frames of a new block are fresh. -/
theorem spec_posixMemalign {len : UInt64} {num : UInt32} {r : Option (ℕ × UInt64)}
    (hi : Inv c s) (hneeds : (rules c).needs (own s t) (.posixMemalign len num))
    (h : step c t (.posixMemalign len num) choice s = some (r, s')) :
    StepOk c s s' t (.posixMemalign len num) r := by
  rcases step_posixMemalign_cases h with ⟨base, _, halloc, rfl, rfl⟩ | ⟨_, rfl, rfl⟩
  · obtain ⟨_, hinside, _, hapart⟩ := allocOk_iff.mp halloc
    have hmint := minted_posixMemalign c t (s.blocks.length, base) num
      (s.blocks ++ [⟨base, len, num⟩]) fun p hp => hi.absent hp
    have hheld : (particles c (s.blocks.length, base) num).map (fun p => hold t (.fresh, p)) ++
        s.held = ((particles c (s.blocks.length, base) num).map fun p => (.fresh, p)).map
          (hold t) ++ s.held := by
      rw [List.map_map]
      rfl
    refine ⟨.mint _ hmint, ?_, ?_, fun u hu => own_hold_of_ne _ hu hheld rfl⟩
    · exact hi.allocate (b := ⟨base, len, num⟩) hneeds.1 hneeds.2 hinside hapart rfl rfl hmint
    · show own _ t = (own s t).add (List.flatMap _ [(s.blocks.length, base)])
      rw [List.flatMap_singleton]
      exact own_hold _ hheld rfl
  · exact StepOk.of_same hi rfl rfl rfl rfl (Local.add_nil _).symm

/-- An action that keeps to the rules. -/
theorem step_ok {a : Action} {r : Answer a} (hi : Inv c s) (hneeds : (rules c).needs (own s t) a)
    (h : step c t a choice s = some (r, s')) : StepOk c s s' t a r := by
  cases a with
  | dequeue q => exact spec_dequeue hi h
  | enqueue q tok d => exact spec_enqueue hi hneeds h
  | enqueueNew p => exact spec_enqueueNew hi hneeds h
  | makeShared p q tok => exact spec_makeShared hi hneeds h
  | moveTmp v => exact spec_moveTmp hi h
  | copy v w => exact spec_copy hi h
  | reset v => exact spec_reset hi h
  | takeOut v => exact spec_takeOut hi h
  | posixMemalign len num => exact spec_posixMemalign hi hneeds h
  | size pv | setSize pv n | hostMem mem len | addDepth n =>
    obtain ⟨_, rfl⟩ := Prod.mk.inj (Option.some.inj h)
    exact StepOk.of_same hi rfl rfl rfl rfl rfl

end Queue
end S4LibLite
