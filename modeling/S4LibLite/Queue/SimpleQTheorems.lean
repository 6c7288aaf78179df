import S4LibLite.Queue.Programs

/-!
# Where the frames are, in every run

* `disjointBuffers`, live handles show disjoint pages, unless the size of a block wrapped;
* `frames_owned`, a frame that was ever in `_dataPool` is in one place, and goes round the
  cycle;
* `frames_overlap`, a size that wrapped.
-/

namespace S4LibLite
namespace Queue

open Custody Interleaving

variable {c : Params}

/-! ## Buffers -/

/-- The addresses of the page a frame shows to the owner of its handle. -/
def QueParticle.Exposes (c : Params) (p : QueParticle) (a : ℕ) : Prop :=
  ∃ i, i < c.pageSize.toNat ∧ a = (p.pBuffer.toNat + i) % 2 ^ 64

/-- No two live handles show a common byte. -/
def DisjointBuffers (c : Params) (s : State) : Prop :=
  s.handles.Pairwise fun h h' => ∀ p p', h.pQdata = some p → h'.pQdata = some p' →
    ∀ a, p.Exposes c a → ¬ p'.Exposes c a

/-- Every frame has a block of its own, or `_page_size * num` wrapped for no block so far. -/
def NoWrap (c : Params) (s : State) : Prop :=
  c.allMemalign = true ∨ ∀ b ∈ s.blocks, c.pageSize.toNat * b.num.toNat < 2 ^ 64

theorem NoWrap.lt {s : State} (hwrap : NoWrap c s) (hi : Inv c s) :
    ∀ b ∈ s.blocks, c.pageSize.toNat * b.num.toNat < 2 ^ 64 := by
  intro b hb
  rcases hwrap with hc | hwrap
  · rw [hi.single hc b hb]
    have := c.pageSize.toNat_lt
    simpa using this
  · exact hwrap b hb

theorem toNat_len {b : Block} (hlen : b.len = c.pageSize * b.num.toUInt64)
    (hwrap : c.pageSize.toNat * b.num.toNat < 2 ^ 64) :
    b.len.toNat = c.pageSize.toNat * b.num.toNat := by
  rw [hlen, UInt64.toNat_mul, UInt32.toNat_toUInt64, Nat.mod_eq_of_lt hwrap]

/-- The bytes of a frame, within its block. -/
theorem exposes_iff {b : Block} (hinside : b.base.toNat + b.len.toNat ≤ 2 ^ 64)
    (hlen : b.len = c.pageSize * b.num.toUInt64)
    (hwrap : c.pageSize.toNat * b.num.toNat < 2 ^ 64) {mem n a : ℕ} (hn : n < b.num.toNat)
    (ha : (particle c (mem, b.base) n).Exposes c a) :
    ∃ i, i < c.pageSize.toNat ∧ a = b.base.toNat + n * c.pageSize.toNat + i ∧
      n * c.pageSize.toNat + i < b.len.toNat := by
  obtain ⟨i, hi, rfl⟩ := ha
  rw [toNat_len hlen hwrap] at hinside ⊢
  -- the frame ends inside its block
  have hlast : n * c.pageSize.toNat + c.pageSize.toNat ≤ c.pageSize.toNat * b.num.toNat := by
    rw [Nat.mul_comm c.pageSize.toNat, ← Nat.succ_mul]
    exact Nat.mul_le_mul_right _ hn
  have hbase : (particle c (mem, b.base) n).pBuffer.toNat =
      b.base.toNat + n * c.pageSize.toNat := by
    have hslot : (UInt64.ofNat n).toNat = n := by
      apply UInt64.toNat_ofNat_of_lt'
      have := b.num.toNat_lt
      exact Nat.lt_trans hn (Nat.lt_trans this (by decide))
    show (b.base + UInt64.ofNat n * c.pageSize).toNat = _
    rw [UInt64.toNat_add, UInt64.toNat_mul, hslot,
      Nat.mod_eq_of_lt (a := n * c.pageSize.toNat) (by omega), Nat.mod_eq_of_lt (by omega)]
  refine ⟨i, hi, ?_, by omega⟩
  rw [hbase, Nat.mod_eq_of_lt (by omega)]

theorem slice_inj {size n n' i i' : ℕ} (h : n * size + i = n' * size + i') (hi : i < size)
    (hi' : i' < size) : n = n' := by
  have hdiv : ∀ {m j : ℕ}, j < size → (m * size + j) / size = m := by
    intro m j hj
    rw [Nat.mul_comm, Nat.mul_add_div (by omega), Nat.div_eq_of_lt hj, Nat.add_zero]
  calc n = (n * size + i) / size := (hdiv hi).symm
    _ = (n' * size + i') / size := by rw [h]
    _ = n' := hdiv hi'

/-- Frames cut from the blocks show no common byte. -/
theorem disjoint_particles {s : State} (hi : Inv c s) (hwrap : NoWrap c s) {p p' : QueParticle}
    (hp : ¬ Absent s.marking p) (hp' : ¬ Absent s.marking p') (hne : p ≠ p') {a : ℕ}
    (ha : p.Exposes c a) : ¬ p'.Exposes c a := by
  intro ha'
  obtain ⟨b, hb, hslot, heq⟩ := hi.cut p hp
  obtain ⟨b', hb', hslot', heq'⟩ := hi.cut p' hp'
  obtain ⟨hmem, rfl⟩ := List.getElem?_eq_some_iff.mp hb
  obtain ⟨hmem', rfl⟩ := List.getElem?_eq_some_iff.mp hb'
  rw [heq] at ha
  rw [heq'] at ha'
  have hin : ∀ {n : ℕ} (hn : n < s.blocks.length), s.blocks[n] ∈ s.blocks :=
    fun hn => List.getElem_mem hn
  obtain ⟨i, hil, ha, hlast⟩ := exposes_iff (hi.inside _ (hin hmem)) (hi.len _ (hin hmem))
    (hwrap.lt hi _ (hin hmem)) hslot ha
  obtain ⟨i', hil', ha', hlast'⟩ := exposes_iff (hi.inside _ (hin hmem')) (hi.len _ (hin hmem'))
    (hwrap.lt hi _ (hin hmem')) hslot' ha'
  have hblocks := List.pairwise_iff_getElem.mp hi.apart
  rcases Nat.lt_trichotomy p.mem p'.mem with hlt | hmems | hlt
  · -- two blocks, which the allocator keeps apart
    have := hblocks _ _ hmem hmem' hlt
    unfold Block.Apart at this
    omega
  · -- two slices of one block
    have hslots : p.slot ≠ p'.slot := by
      intro hslots
      apply hne
      rw [heq, heq']
      simp only [hmems, hslots]
    apply hslots
    apply slice_inj _ hil hil'
    simp only [hmems] at ha
    omega
  · have := hblocks _ _ hmem' hmem hlt
    unfold Block.Apart at this
    omega

/-- A handle that has a frame is one of those the marking counts. -/
theorem marking_of_handle {s : State} (hi : Inv c s) {h : QueParticleAr} {p : QueParticle}
    (hh : h ∈ s.handles) (hp : h.pQdata = some p) :
    ∃ q, h.pHostQ = some q ∧ s.marking (.handle q) p ≠ 0 := by
  have harmed := (hi.wf h hh).armed
  rw [hp] at harmed
  obtain ⟨q, hq⟩ := Option.isSome_iff_exists.mp harmed.symm
  refine ⟨q, hq, ?_⟩
  apply Nat.pos_iff_ne_zero.mp
  rw [State.marking, List.countP_pos_iff]
  exact ⟨h, hh, by simp [hq, hp]⟩

/-- Two live handles do not hold the same frame. -/
theorem handles_differ {s : State} (hi : Inv c s) :
    s.handles.Pairwise fun h h' => ∀ p p', h.pQdata = some p → h'.pQdata = some p' → p ≠ p' := by
  rw [List.pairwise_iff_forall_sublist]
  rintro h h' hsub p p' hp hp' rfl
  obtain ⟨q, hq, hne⟩ := marking_of_handle hi (hsub.subset (by simp)) hp
  obtain ⟨q', hq', hne'⟩ := marking_of_handle hi (hsub.subset (by simp)) hp'
  rcases hi.tidy p with habsent | ⟨pl, halone⟩
  · exact hne (habsent _)
  · have hpl := halone.eq_of_ne_zero hne
    have hpl' := halone.eq_of_ne_zero hne'
    -- the two handles are for one queue, and that place has the frame once
    rw [← hpl] at halone hpl'
    have hone : s.handles.countP (fun h => h.pHostQ = some q ∧ h.pQdata = some p) = 1 := halone.1
    have hle := hsub.countP_le (p := fun h => h.pHostQ = some q ∧ h.pQdata = some p)
    rw [hone] at hle
    simp [hq, hq', hp, hp', Place.handle.inj hpl'] at hle

/-- Frames of one block are cut one behind the other, and blocks are apart. -/
theorem disjointBuffers {s : State} (hi : Inv c s) (hwrap : NoWrap c s) : DisjointBuffers c s := by
  apply (handles_differ hi).imp_of_mem
  intro h h' hh hh' hdiffer p p' hp hp' a
  obtain ⟨q, _, hq⟩ := marking_of_handle hi hh hp
  obtain ⟨q', _, hq'⟩ := marking_of_handle hi hh' hp'
  apply disjoint_particles hi hwrap
  · exact fun habsent => hq (habsent _)
  · exact fun habsent => hq' (habsent _)
  · exact hdiffer p p' hp hp'

/-! ## Runs -/

/-- The places of a frame in use: a queue, a live handle, or the local variables of one call
in progress. -/
def InUse (k : Threads) (p : QueParticle) : Place → Prop
  | .queue _ => True
  | .handle _ => True
  | .held st => st ≠ .fresh ∧ ∃ t, ⟨t, st, p⟩ ∈ k.state.held ∧ k.running t ≠ none

theorem inv_init (c : Params) : Inv c .init where
  tidy _ := Or.inl fun r => by cases r <;> rfl
  cut p hp := absurd (fun r => by cases r <;> rfl) hp
  wf := by simp [State.init]
  len := by simp [State.init]
  single := by simp [State.init]
  inside := by simp [State.init]
  apart := List.Pairwise.nil

theorem good_start (c : Params) : Good (rules c) own (Inv c) start :=
  ⟨inv_init c, fun _ => ⟨by simp [own, heldBy, start, State.init], rfl⟩⟩

variable {k k' : Threads}

/-- One event takes a frame at most one place on. -/
theorem next_alone (hg : Good (rules c) own (Inv c) k) {e : QEvent}
    (h : (system c).next k e = some k') {p : QueParticle} {pl : Place}
    (ha : Alone k.state.marking p pl) :
    ∃ pl', (pl' = pl ∨ pl' = pl.next) ∧ Alone k'.state.marking p pl' := by
  rcases hg.step_cases h with hsame | ⟨t, a, choice, r, hneeds, hstep⟩
  · exact ⟨pl, Or.inl rfl, by rwa [hsame]⟩
  · exact (step_ok hg.inv hneeds hstep).advance.alone ha

/-- Only a new block makes frames fresh. -/
theorem Place.next_ne_fresh (pl : Place) : pl.next ≠ .held .fresh := by
  cases pl with
  | queue q => simp [Place.next]
  | handle q => simp [Place.next]
  | held st => cases st <;> simp [Place.next]

/-- A frame in use stays in use, in one place. -/
theorem run_alone (hg : Good (rules c) own (Inv c) k) {es : List QEvent}
    (h : (system c).run k es = some k') {p : QueParticle} {pl : Place} (hpl : pl ≠ .held .fresh)
    (ha : Alone k.state.marking p pl) :
    ∃ pl', pl' ≠ .held .fresh ∧ Alone k'.state.marking p pl' := by
  have hrun := System.run_invariant (P := fun k => Good (rules c) own (Inv c) k ∧
    ∃ pl', pl' ≠ .held .fresh ∧ Alone k.state.marking p pl') ?_ ⟨hg, pl, hpl, ha⟩ h
  · exact hrun.2
  · rintro k e k₁ ⟨hg, pl, hpl, ha⟩ hnext
    obtain ⟨pl₁, hpl₁, ha₁⟩ := next_alone hg hnext ha
    refine ⟨(sound c).next hg hnext, pl₁, ?_, ha₁⟩
    rcases hpl₁ with rfl | rfl
    · exact hpl
    · exact pl.next_ne_fresh

/-- A frame in use that is in the hands of a thread belongs to a call in progress. -/
theorem inUse_of_alone (hg : Good (rules c) own (Inv c) k) {p : QueParticle} {pl : Place}
    (hpl : pl ≠ .held .fresh) (ha : Alone k.state.marking p pl) : InUse k p pl := by
  cases pl with
  | queue q => trivial
  | handle q => trivial
  | held st =>
    have hst : st ≠ .fresh := fun h => hpl (congrArg Place.held h)
    have hpos : 0 < k.state.held.countP (fun x => x.stage = st ∧ x.particle = p) := by
      rw [show k.state.held.countP (fun x => x.stage = st ∧ x.particle = p) = 1 from ha.1]
      exact Nat.one_pos
    obtain ⟨⟨t, st', p'⟩, hx, heq⟩ := List.countP_pos_iff.mp hpos
    simp only [decide_eq_true_eq] at heq
    obtain ⟨rfl, rfl⟩ := heq
    refine ⟨hst, t, hx, fun hidle => hst ?_⟩
    -- between calls a thread has nothing in hand but fresh frames
    have hready := hg.ready t
    rw [hidle] at hready
    exact hready.1 _ (mem_heldBy (x := (st', p')).mpr hx)

/-- Where no call is in progress, a frame in use is in a queue or in a live handle. -/
theorem InUse.at_rest {p : QueParticle} {pl : Place} (h : InUse k p pl)
    (hidle : ∀ t, k.running t = none) :
    pl = .queue .dataPool ∨ pl = .queue .dataPtoC ∨ ∃ q, pl = .handle q := by
  cases pl with
  | queue q =>
    cases q with
    | dataPool => exact Or.inl rfl
    | dataPtoC => exact Or.inr (Or.inl rfl)
  | handle q => exact Or.inr (Or.inr ⟨q, rfl⟩)
  | held st =>
    obtain ⟨-, t, -, hrun⟩ := h
    exact absurd (hidle t) hrun

/-- What is in the pool is nowhere else. -/
theorem alone_of_pool {s : State} (hi : Inv c s) {x : Entry} (hx : x ∈ s.queue .dataPool) :
    Alone s.marking x.particle (.queue .dataPool) := by
  have hne : s.marking (.queue .dataPool) x.particle ≠ 0 := by
    simp only [State.marking, ne_eq, List.countP_eq_zero, decide_eq_true_eq, not_forall]
    exact ⟨x, hx, fun h => h rfl⟩
  rcases hi.tidy x.particle with habsent | ⟨pl, ha⟩
  · exact absurd (habsent _) hne
  · rw [ha.eq_of_ne_zero hne]
    exact ha

/-- A pointer that exists: a variable, or the temporary of a call in progress. -/
def Exists (k : Threads) : Owner → Prop
  | .var _ => True
  | .tmp t => k.running t ≠ none

/-- A handle that lives has an owner that exists. -/
theorem owner_exists (hg : Good (rules c) own (Inv c) k) {h : QueParticleAr}
    (hh : h ∈ k.state.handles) : ∃ o ∈ h.owners, Exists k o := by
  obtain ⟨o, ho⟩ := List.exists_mem_of_ne_nil _ (hg.inv.wf h hh).owned
  refine ⟨o, ho, ?_⟩
  cases o with
  | var v => trivial
  | tmp t =>
    intro hidle
    have hready := hg.ready t
    rw [hidle] at hready
    have htmp : tmpOwns t k.state.handles = true := by
      unfold tmpOwns
      rw [List.any_eq_true]
      exact ⟨h, hh, decide_eq_true ho⟩
    exact Bool.false_ne_true (hready.2.symm.trans htmp)

/-- In every interleaving of the threads' operations, at every moment:

* a frame that was in `_dataPool` before is in one place, in a queue, in one live handle or in
  the local variables of a call in progress, and where no call is in progress in one of the
  first three;
* an event leaves it there or takes it one place on: from the handle of a producer it goes into
  `_dataPtoC` only, from that of a consumer into `_dataPool` only;
* some pointer owns each live handle;
* where no block's size wrapped, two live handles show no common byte. -/
theorem frames_owned {es es' : List QEvent} (hk : (system c).run start es = some k)
    (hk' : (system c).run k es' = some k') :
    (∀ x ∈ k.state.queue .dataPool,
      ∃ pl, Alone k'.state.marking x.particle pl ∧ InUse k' x.particle pl ∧
        ((∀ t, k'.running t = none) →
          pl = .queue .dataPool ∨ pl = .queue .dataPtoC ∨ ∃ q, pl = .handle q)) ∧
    (∀ p pl, Alone k'.state.marking p pl → ∀ e k'', (system c).next k' e = some k'' →
      Alone k''.state.marking p pl ∨ Alone k''.state.marking p pl.next) ∧
    (∀ h ∈ k'.state.handles, ∃ o ∈ h.owners, Exists k' o) ∧
    (NoWrap c k'.state → DisjointBuffers c k'.state) := by
  have hg := (sound c).run (good_start c) hk
  have hg' := (sound c).run hg hk'
  refine ⟨fun x hx => ?_, fun p pl ha e k'' hnext => ?_, fun h hh => owner_exists hg' hh,
    disjointBuffers hg'.inv⟩
  · have ha := alone_of_pool hg.inv hx
    obtain ⟨pl', hpl', ha'⟩ := run_alone hg hk' (by simp) ha
    have huse := inUse_of_alone hg' hpl' ha'
    exact ⟨pl', ha', huse, huse.at_rest⟩
  · obtain ⟨pl', rfl | rfl, ha'⟩ := next_alone hg' hnext ha
    · exact Or.inl ha'
    · exact Or.inr ha'

/-- Thread 0 makes a queue of `n` frames, in one block. -/
def constructSliced (n : UInt32) : List QEvent :=
  [.call 0 (.construct n), .go 0 (.base 65536)] ++ List.replicate (n.toNat + 4) (.go 0 .none)

/-- Threads 1 and 2 each take the element `i` of what the pool has then. -/
def twoGets (i : ℕ) : List QEvent :=
  [.call 1 (.pGet (.var 0)), .call 2 (.pGet (.var 1)), .go 1 (.element 0), .go 2 (.element i),
    .go 2 .none, .go 1 .none, .go 1 .none, .go 2 .none, .go 1 .none, .go 2 .none]

theorem frames_owned_two : ∃ k k' : Threads,
    (system ⟨4096, false, false⟩).run start (constructSliced 2) = some k ∧
    (system ⟨4096, false, false⟩).run k (twoGets 0) = some k' ∧
    k'.state.handles.length = 2 ∧
    (∀ x ∈ k.state.queue .dataPool,
      ∃ pl, Alone k'.state.marking x.particle pl ∧ InUse k' x.particle pl ∧
        ((∀ t, k'.running t = none) →
          pl = .queue .dataPool ∨ pl = .queue .dataPtoC ∨ ∃ q, pl = .handle q)) ∧
    DisjointBuffers ⟨4096, false, false⟩ k'.state := by
  refine ⟨_, _, rfl, rfl, rfl, ?_⟩
  have h := @frames_owned ⟨4096, false, false⟩ _ _ (constructSliced 2) (twoGets 0) rfl rfl
  exact ⟨h.1, h.2.2.2 (Or.inr (by decide))⟩

/-- Four pages of `2 ^ 63` bytes make a block of none: the frames 0 and 2 are one page. -/
theorem frames_overlap : ∃ k : Threads,
    (system ⟨9223372036854775808, false, false⟩).run start (constructSliced 4 ++ twoGets 1) =
      some k ∧ ¬ DisjointBuffers ⟨9223372036854775808, false, false⟩ k.state := by
  refine ⟨_, rfl, fun hdisjoint => ?_⟩
  have hpair := (List.pairwise_cons.mp hdisjoint).1 _ (List.mem_singleton_self _)
  exact hpair _ _ rfl rfl 65536 ⟨0, by decide, rfl⟩ ⟨0, by decide, rfl⟩

end Queue
end S4LibLite
