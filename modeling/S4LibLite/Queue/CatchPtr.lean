import S4LibLite.Lib.Occupancy

/-!
# Counted references (`catch_ptr.h`, `sharedCharArray_ptr.h`)

`SharedImpl` counts the references to an object in an `unsigned int` and deletes the object when the
count comes to zero; `Ptr` takes a reference where it is made and gives it back where it ends. An
assignment makes a temporary `Ptr` and swaps with it, so that the old reference goes last.

Objects are known by their addresses, and an address is not used twice. Touching an object that is
not there is a fault, and the functions return `none`.

* `addRef`, `release` and the members of `Ptr`, over the objects;
* `Op` and `step`, what a program does with its pointers;
* `Inv`, the count of every object is the number of its references;
* `run_of_legal`, no run of legal operations is a fault; `live_iff`, an object that has been
  referred to lives as long as it is.
-/

namespace S4LibLite.CatchPtr

open Occupancy

/-! ## Objects -/

/-- What is at an address. -/
inductive Cell
  | unallocated
  | live (rc : ℕ)
  | deleted
deriving DecidableEq

def Cell.isLive : Cell → Bool
  | live _ => true
  | _ => false

abbrev Heap : Type := ℕ → Cell

/-- `SharedImpl::addRef`. -/
def addRef (p : ℕ) (h : Heap) : Option Heap :=
  match h p with
  | .live rc => some (Function.update h p (.live ((rc + 1) % 2 ^ 32)))
  | _ => none

/-- `SharedImpl::release`. -/
def release (p : ℕ) (h : Heap) : Option Heap :=
  match h p with
  | .live rc =>
    let rc := (rc + (2 ^ 32 - 1)) % 2 ^ 32
    some (Function.update h p (if rc = 0 then .deleted else .live rc))
  | _ => none

/-! ## Pointers -/

/-- A `Ptr` by its `m_p`. -/
abbrev Ptr : Type := Option ℕ

namespace Ptr

/-- `Ptr(T* p)`. -/
def construct (p : Ptr) (h : Heap) : Option (Ptr × Heap) :=
  match p with
  | none => some (none, h)
  | some p => (addRef p h).map fun h => (some p, h)

/-- `Ptr(Ptr const& other)`. -/
def copy (other : Ptr) (h : Heap) : Option (Ptr × Heap) := construct other h

/-- `~Ptr`. -/
def destroy (x : Ptr) (h : Heap) : Option Heap :=
  match x with
  | none => some h
  | some p => release p h

/-- `reset`. -/
def reset (x : Ptr) (h : Heap) : Option (Ptr × Heap) := (destroy x h).map fun h => (none, h)

/-- `operator = (T* p)`: the temporary takes what `x` had, and is destroyed. -/
def assignRaw (x : Ptr) (p : Ptr) (h : Heap) : Option (Ptr × Heap) :=
  (construct p h).bind fun temp => (destroy x temp.2).map fun h => (temp.1, h)

/-- `operator = (Ptr const& other)`. -/
def assign (x other : Ptr) (h : Heap) : Option (Ptr × Heap) :=
  (copy other h).bind fun temp => (destroy x temp.2).map fun h => (temp.1, h)

end Ptr

/-! ## Programs -/

variable {V : Type}

/-- The objects and the pointers a program has; a variable that is out of scope is `none`. `held`
counts the references that were taken by a call to `addRef`. -/
structure State (V : Type) where
  heap : Heap
  vars : V → Option Ptr
  held : ℕ → ℕ

/-- Nothing yet. -/
def State.init : State V := ⟨fun _ => .unallocated, fun _ => none, fun _ => 0⟩

/-- What a program does with an object or a pointer. -/
inductive Op (V : Type)
  | new (p : ℕ)
  | construct (x : V) (p : Ptr)
  | copy (x y : V)
  | destroy (x : V)
  | reset (x : V)
  | assignRaw (x : V) (p : Ptr)
  | assign (x y : V)
  | swap (x y : V)
  | addRef (p : ℕ)
  | release (p : ℕ)

variable [DecidableEq V]

namespace State

/-- The variable `x` has become `v`. -/
def set (s : State V) (x : V) (v : Option Ptr) (h : Heap) : State V :=
  { s with heap := h, vars := Function.update s.vars x v }

/-- One operation; `none` where it touches what is not there. -/
def step (s : State V) : Op V → Option (State V)
  | .new p => some { s with heap := Function.update s.heap p (.live 0) }
  | .construct x p => (Ptr.construct p s.heap).map fun r => s.set x (some r.1) r.2
  | .copy x y =>
    (s.vars y).bind fun other => (Ptr.copy other s.heap).map fun r => s.set x (some r.1) r.2
  | .destroy x => (s.vars x).bind fun old => (Ptr.destroy old s.heap).map fun h => s.set x none h
  | .reset x =>
    (s.vars x).bind fun old => (Ptr.reset old s.heap).map fun r => s.set x (some r.1) r.2
  | .assignRaw x p =>
    (s.vars x).bind fun old => (Ptr.assignRaw old p s.heap).map fun r => s.set x (some r.1) r.2
  | .assign x y =>
    (s.vars x).bind fun old => (s.vars y).bind fun other =>
      (Ptr.assign old other s.heap).map fun r => s.set x (some r.1) r.2
  | .swap x y =>
    (s.vars x).bind fun a => (s.vars y).map fun b => (s.set x (some b) s.heap).set y (some a) s.heap
  | .addRef p =>
    (CatchPtr.addRef p s.heap).map fun h =>
      { s with heap := h, held := Function.update s.held p (s.held p + 1) }
  | .release p =>
    (CatchPtr.release p s.heap).map fun h =>
      { s with heap := h, held := Function.update s.held p (s.held p - 1) }

def run (s : State V) : List (Op V) → Option (State V)
  | [] => some s
  | op :: ops => (s.step op).bind fun s => s.run ops

variable [Fintype V]

/-- The references to an object. -/
def refs (s : State V) (p : ℕ) : ℕ := occupancy s.vars (some (some p)) + s.held p

/-- Another reference can be taken: the object is there, and the count does not come round. -/
def Referable (s : State V) (p : Ptr) : Prop :=
  ∀ a ∈ p, (s.heap a).isLive = true ∧ s.refs a + 1 < 2 ^ 32

/-- What a program must see to: new variables are new, others in scope; a bare pointer points to an
object; only a reference that was taken by a call is given back by one. -/
def Ok (s : State V) : Op V → Prop
  | .new p => s.heap p = .unallocated
  | .construct x p => s.vars x = none ∧ s.Referable p
  | .copy x y => s.vars x = none ∧ ∃ other ∈ s.vars y, s.Referable other
  | .destroy x => s.vars x ≠ none
  | .reset x => s.vars x ≠ none
  | .assignRaw x p => s.vars x ≠ none ∧ s.Referable p
  | .assign x y => s.vars x ≠ none ∧ ∃ other ∈ s.vars y, s.Referable other
  | .swap x y => s.vars x ≠ none ∧ s.vars y ≠ none
  | .addRef p => s.Referable (some p)
  | .release p => 0 < s.held p

instance (s : State V) (p : Ptr) : Decidable (s.Referable p) :=
  inferInstanceAs (Decidable (∀ a ∈ p, _))

instance (s : State V) : ∀ op, Decidable (s.Ok op)
  | .new _ => inferInstanceAs (Decidable (_ = _))
  | .construct _ _ => inferInstanceAs (Decidable (_ ∧ _))
  | .copy _ _ => inferInstanceAs (Decidable (_ ∧ _))
  | .destroy _ => inferInstanceAs (Decidable (_ ≠ _))
  | .reset _ => inferInstanceAs (Decidable (_ ≠ _))
  | .assignRaw _ _ => inferInstanceAs (Decidable (_ ∧ _))
  | .assign _ _ => inferInstanceAs (Decidable (_ ∧ _))
  | .swap _ _ => inferInstanceAs (Decidable (_ ∧ _))
  | .addRef _ => inferInstanceAs (Decidable (State.Referable ..))
  | .release _ => inferInstanceAs (Decidable (_ < _))

/-- Every operation is legal in the state it is performed in. -/
def Legal (s : State V) : List (Op V) → Prop
  | [] => True
  | op :: ops => s.Ok op ∧ ∀ s' ∈ s.step op, s'.Legal ops

instance : ∀ (s : State V) (ops : List (Op V)), Decidable (s.Legal ops)
  | _, [] => .isTrue trivial
  | s, op :: ops =>
    have : ∀ s' : State V, Decidable (s'.Legal ops) := fun s' => instDecidableLegal s' ops
    inferInstanceAs (Decidable (s.Ok op ∧ ∀ s' ∈ s.step op, s'.Legal ops))

end State

/-! ## References -/

/-- Every object's count is the number of its references, and what is referred to is there. -/
structure Balanced (h : Heap) (refs : ℕ → ℕ) : Prop where
  count : ∀ p rc, h p = .live rc → rc = refs p
  live : ∀ p, 0 < refs p → (h p).isLive = true
  lt : ∀ p, refs p < 2 ^ 32

/-- The object is referred to, or has been deleted. -/
def Owned (h : Heap) (refs : ℕ → ℕ) (p : ℕ) : Prop := 0 < refs p ∨ h p = .deleted

/-- What every operation keeps. -/
structure Keeps (h : Heap) (refs : ℕ → ℕ) (h' : Heap) (refs' : ℕ → ℕ) : Prop where
  balanced : Balanced h' refs'
  owned : ∀ p, Owned h refs p → Owned h' refs' p

/-- The reference a pointer is. -/
def credit (q : Ptr) (p : ℕ) : ℕ := if q = some p then 1 else 0

section Counting

variable {h h' h'' : Heap} {refs refs' refs'' : ℕ → ℕ}

theorem Keeps.trans (h₁ : Keeps h refs h' refs') (h₂ : Keeps h' refs' h'' refs'') :
    Keeps h refs h'' refs'' :=
  ⟨h₂.balanced, fun p hp => h₂.owned p (h₁.owned p hp)⟩

theorem Cell.isLive_iff {c : Cell} : c.isLive = true ↔ ∃ rc, c = .live rc := by
  cases c <;> simp [isLive]

/-- An object with another count. -/
theorem Balanced.update (hb : Balanced h refs) {a : ℕ} {c : Cell} {n : ℕ}
    (hcount : ∀ rc, c = .live rc → rc = n) (hlive : 0 < n → c.isLive = true) (hn : n < 2 ^ 32) :
    Balanced (Function.update h a c) (Function.update refs a n) := by
  constructor
  · intro p rc hp
    by_cases hpa : p = a
    · subst hpa
      rw [Function.update_self] at hp ⊢
      exact hcount rc hp
    · rw [Function.update_of_ne hpa] at hp ⊢
      exact hb.count p rc hp
  · intro p hp
    by_cases hpa : p = a
    · subst hpa
      rw [Function.update_self] at hp ⊢
      exact hlive hp
    · rw [Function.update_of_ne hpa] at hp ⊢
      exact hb.live p hp
  · intro p
    by_cases hpa : p = a
    · subst hpa
      rwa [Function.update_self]
    · rw [Function.update_of_ne hpa]
      exact hb.lt p

theorem owned_update {a p : ℕ} {c : Cell} {n : ℕ} (ha : Owned h refs a → 0 < n ∨ c = .deleted)
    (hp : Owned h refs p) : Owned (Function.update h a c) (Function.update refs a n) p := by
  by_cases hpa : p = a
  · subst hpa
    rw [Owned, Function.update_self, Function.update_self]
    exact ha hp
  · rw [Owned, Function.update_of_ne hpa, Function.update_of_ne hpa]
    exact hp

/-- A reference more is counted, where the object lives. -/
theorem Balanced.addRef (hb : Balanced h refs) {a : ℕ} (hlive : (h a).isLive = true)
    (hroom : refs a + 1 < 2 ^ 32) : ∃ h', CatchPtr.addRef a h = some h'
      ∧ Keeps h refs h' (Function.update refs a (refs a + 1)) := by
  obtain ⟨rc, hrc⟩ := Cell.isLive_iff.mp hlive
  have hcount := hb.count a rc hrc
  refine ⟨_, by rw [CatchPtr.addRef, hrc], ?_, fun p => owned_update fun _ => Or.inl (by omega)⟩
  rw [hcount, Nat.mod_eq_of_lt hroom]
  exact hb.update (fun rc h => (Cell.live.inj h).symm) (fun _ => rfl) hroom

/-- A reference less, and the last one deletes the object. -/
theorem Balanced.release (hb : Balanced h refs) {a : ℕ} (hpos : 0 < refs a) :
    ∃ h', CatchPtr.release a h = some h'
      ∧ Keeps h refs h' (Function.update refs a (refs a - 1)) := by
  obtain ⟨rc, hrc⟩ := Cell.isLive_iff.mp (hb.live a hpos)
  have hcount := hb.count a rc hrc
  have hlt := hb.lt a
  have hless : (rc + (2 ^ 32 - 1)) % 2 ^ 32 = refs a - 1 := by omega
  refine ⟨_, by rw [CatchPtr.release, hrc], ?_, ?_⟩
  · rw [hless]
    refine hb.update ?_ ?_ (by omega)
    · intro rc' h
      split at h
      · exact absurd h (by simp)
      · exact (Cell.live.inj h).symm
    · intro h
      rw [if_neg (by omega)]
      rfl
  · rw [hless]
    -- the last reference takes the object with it
    refine fun p => owned_update fun _ => ?_
    by_cases hlast : refs a - 1 = 0
    · exact Or.inr (if_pos hlast)
    · exact Or.inl (by omega)

theorem update_succ (refs : ℕ → ℕ) (a : ℕ) :
    Function.update refs a (refs a + 1) = fun p => refs p + credit (some a) p := by
  funext p
  by_cases hpa : p = a
  · subst hpa
    rw [Function.update_self, credit, if_pos rfl]
  · rw [Function.update_of_ne hpa, credit, if_neg fun h => hpa (Option.some.inj h).symm,
      Nat.add_zero]

/-- A new pointer takes a reference. -/
theorem Balanced.construct (hb : Balanced h refs) {q : Ptr}
    (hq : ∀ a ∈ q, (h a).isLive = true ∧ refs a + 1 < 2 ^ 32) :
    ∃ h', Ptr.construct q h = some (q, h')
      ∧ Keeps h refs h' (fun p => refs p + credit q p) := by
  cases q with
  | none => exact ⟨h, rfl, hb, fun p hp => hp⟩
  | some a =>
    obtain ⟨h', hadd, hkeeps⟩ := hb.addRef (hq a rfl).1 (hq a rfl).2
    rw [update_succ] at hkeeps
    exact ⟨h', by rw [Ptr.construct, hadd]; rfl, hkeeps⟩

/-- A pointer that ends gives its reference back. -/
theorem Balanced.destroy {q : Ptr} (hb : Balanced h (fun p => refs p + credit q p)) :
    ∃ h', Ptr.destroy q h = some h' ∧ Keeps h (fun p => refs p + credit q p) h' refs := by
  cases q with
  | none => exact ⟨h, rfl, hb, fun p hp => hp⟩
  | some a =>
    have hone : credit (some a) a = 1 := if_pos rfl
    obtain ⟨h', hrelease, hkeeps⟩ := hb.release (a := a) (by omega)
    have hrefs : Function.update (fun p => refs p + credit (some a) p) a
        (refs a + credit (some a) a - 1) = refs := by
      funext p
      by_cases hpa : p = a
      · subst hpa
        rw [Function.update_self]
        omega
      · rw [Function.update_of_ne hpa, credit, if_neg fun h => hpa (Option.some.inj h).symm,
          Nat.add_zero]
    rw [hrefs] at hkeeps
    exact ⟨h', hrelease, hkeeps⟩

end Counting

/-! ## Operations -/

variable [Fintype V]

namespace State

/-- The reference a variable is. -/
def creditOf (v : Option Ptr) (p : ℕ) : ℕ := if v = some (some p) then 1 else 0

theorem creditOf_some (q : Ptr) : creditOf (some q) = credit q := by
  funext p
  rw [creditOf, credit, if_congr (Option.some_inj) rfl rfl]

/-- Every reference is counted, and what is counted is there. -/
def Inv (s : State V) : Prop := Balanced s.heap s.refs

/-- The references of the other variables. -/
theorem refs_set (s : State V) (x : V) (v : Option Ptr) (h : Heap) (p : ℕ) :
    (s.set x v h).refs p + creditOf (s.vars x) p = s.refs p + creditOf v p := by
  have hocc := occupancy_update s.vars x v (some (some p))
  rw [refs, refs, set, creditOf, creditOf]
  dsimp only
  omega

/-- What one operation leaves. -/
structure Moved (s s' : State V) : Prop where
  inv : s'.Inv
  owned : ∀ p, Owned s.heap s.refs p → Owned s'.heap s'.refs p

variable {s : State V} {x y : V} {q : Ptr}

omit [DecidableEq V] in
theorem moved_of_keeps {s' : State V} {refs' : ℕ → ℕ} (h : Keeps s.heap s.refs s'.heap refs')
    (hrefs : s'.refs = refs') : Moved s s' := by
  subst hrefs
  exact ⟨h.balanced, h.owned⟩

/-- A variable comes into scope with a reference of its own. -/
theorem moved_construct (hi : s.Inv) (hx : s.vars x = none) (hq : s.Referable q) :
    ∃ h, Ptr.construct q s.heap = some (q, h) ∧ Moved s (s.set x (some q) h) := by
  obtain ⟨h, hconstruct, hkeeps⟩ := Balanced.construct hi hq
  refine ⟨h, hconstruct, moved_of_keeps hkeeps ?_⟩
  funext p
  have hset := s.refs_set x (some q) h p
  rw [hx, creditOf_some, creditOf, if_neg (by simp), Nat.add_zero] at hset
  exact hset

/-- A variable gives its reference back and goes out of scope, or points nowhere. -/
theorem moved_destroy (hi : s.Inv) (hx : s.vars x = some q) {v : Option Ptr}
    (hv : v = none ∨ v = some none) :
    ∃ h, Ptr.destroy q s.heap = some h ∧ Moved s (s.set x v h) := by
  have hnone : creditOf v = fun _ => 0 := by
    funext p
    rcases hv with rfl | rfl <;> simp [creditOf]
  have hrefs : s.refs = fun p => (s.set x v s.heap).refs p + credit q p := by
    funext p
    have hset := s.refs_set x v s.heap p
    rw [hx, creditOf_some, hnone] at hset
    exact hset.symm
  have hb : Balanced s.heap (fun p => (s.set x v s.heap).refs p + credit q p) := hrefs ▸ hi
  obtain ⟨h, hdestroy, hkeeps⟩ := hb.destroy
  rw [← hrefs] at hkeeps
  exact ⟨h, hdestroy, moved_of_keeps hkeeps rfl⟩

/-- A variable takes a new reference before it gives the old one back. -/
theorem moved_assign {old : Ptr} (hi : s.Inv) (hx : s.vars x = some old) (hq : s.Referable q) :
    ∃ h, Ptr.assignRaw old q s.heap = some (q, h) ∧ Moved s (s.set x (some q) h) := by
  obtain ⟨h, hconstruct, hkeeps⟩ := Balanced.construct hi hq
  have hrefs : (fun p => s.refs p + credit q p)
      = fun p => (s.set x (some q) h).refs p + credit old p := by
    funext p
    have hset := s.refs_set x (some q) h p
    rw [hx, creditOf_some, creditOf_some] at hset
    exact hset.symm
  rw [hrefs] at hkeeps
  obtain ⟨h', hdestroy, hkeeps'⟩ := hkeeps.balanced.destroy
  refine ⟨h', ?_, moved_of_keeps (hkeeps.trans hkeeps') rfl⟩
  rw [Ptr.assignRaw, hconstruct, Option.bind_some, hdestroy]
  rfl

/-- Two pointers change their objects. -/
theorem moved_swap (hi : s.Inv) {a b : Ptr} (hx : s.vars x = some a) (hy : s.vars y = some b) :
    Moved s ((s.set x (some b) s.heap).set y (some a) s.heap) := by
  have hvar : (s.set x (some b) s.heap).vars y = some b := by
    rw [set]
    dsimp only
    by_cases hyx : y = x
    · subst hyx
      exact Function.update_self ..
    · rw [Function.update_of_ne hyx, hy]
  refine @moved_of_keeps _ _ _ _ s.refs ⟨hi, fun p hp => hp⟩ ?_
  funext p
  have hfirst := s.refs_set x (some b) s.heap p
  have hsecond := (s.set x (some b) s.heap).refs_set y (some a) s.heap p
  rw [hx] at hfirst
  rw [hvar] at hsecond
  omega

omit [DecidableEq V] in
/-- A new object, that nothing refers to. -/
theorem moved_new (hi : s.Inv) {p : ℕ} (hp : s.heap p = .unallocated) :
    Moved s { s with heap := Function.update s.heap p (.live 0) } := by
  have hzero : s.refs p = 0 := by
    by_contra hne
    have hlive := hi.live p (Nat.pos_of_ne_zero hne)
    rw [hp] at hlive
    exact Bool.noConfusion hlive
  have hb := hi.update (a := p) (c := .live 0) (n := 0) (fun rc h => (Cell.live.inj h).symm)
    (fun h => absurd h (lt_irrefl 0)) (Nat.two_pow_pos 32)
  have howned : ∀ a, Owned s.heap s.refs a →
      Owned (Function.update s.heap p (.live 0)) (Function.update s.refs p 0) a := by
    refine fun a => owned_update fun h => ?_
    rcases h with h | h
    · omega
    · rw [hp] at h
      exact absurd h (by decide)
  have hsame : Function.update s.refs p 0 = s.refs := by rw [← hzero, Function.update_eq_self]
  rw [hsame] at hb howned
  exact moved_of_keeps ⟨hb, howned⟩ rfl

omit [DecidableEq V] in
/-- References that calls take and give back. -/
theorem moved_held {p n refs' : ℕ} {h : Heap}
    (hkeeps : Keeps s.heap s.refs h (Function.update s.refs p refs'))
    (hn : refs' = occupancy s.vars (some (some p)) + n) :
    Moved s { s with heap := h, held := Function.update s.held p n } := by
  subst hn
  refine moved_of_keeps hkeeps ?_
  funext a
  rw [refs]
  dsimp only
  by_cases hap : a = p
  · subst hap
    rw [Function.update_self, Function.update_self]
  · rw [Function.update_of_ne hap, Function.update_of_ne hap, refs]

/-- **One operation**: a legal one is no fault, and keeps the counts. -/
theorem step_of_ok (hi : s.Inv) {op : Op V} (hok : s.Ok op) :
    ∃ s', s.step op = some s' ∧ Moved s s' := by
  cases op with
  | new p => exact ⟨_, rfl, moved_new hi hok⟩
  | construct x p =>
    obtain ⟨h, hconstruct, hmoved⟩ := moved_construct hi hok.1 hok.2
    exact ⟨_, by rw [step, hconstruct]; rfl, hmoved⟩
  | copy x y =>
    obtain ⟨hx, other, hy, hother⟩ := hok
    obtain ⟨h, hconstruct, hmoved⟩ := moved_construct hi hx hother
    exact ⟨_, by rw [step, hy, Option.bind_some, Ptr.copy, hconstruct]; rfl, hmoved⟩
  | destroy x =>
    obtain ⟨old, hx⟩ := Option.ne_none_iff_exists'.mp hok
    obtain ⟨h, hdestroy, hmoved⟩ := moved_destroy hi hx (Or.inl rfl)
    exact ⟨_, by rw [step, hx, Option.bind_some, hdestroy]; rfl, hmoved⟩
  | reset x =>
    obtain ⟨old, hx⟩ := Option.ne_none_iff_exists'.mp hok
    obtain ⟨h, hdestroy, hmoved⟩ := moved_destroy hi hx (Or.inr rfl)
    exact ⟨_, by rw [step, hx, Option.bind_some, Ptr.reset, hdestroy]; rfl, hmoved⟩
  | assignRaw x p =>
    obtain ⟨old, hx⟩ := Option.ne_none_iff_exists'.mp hok.1
    obtain ⟨h, hassign, hmoved⟩ := moved_assign hi hx hok.2
    exact ⟨_, by rw [step, hx, Option.bind_some, hassign]; rfl, hmoved⟩
  | assign x y =>
    obtain ⟨hx, other, hy, hother⟩ := hok
    obtain ⟨old, hx⟩ := Option.ne_none_iff_exists'.mp hx
    obtain ⟨h, hassign, hmoved⟩ := moved_assign hi hx hother
    refine ⟨_, ?_, hmoved⟩
    rw [step, hx, Option.bind_some, hy, Option.bind_some]
    rw [Ptr.assignRaw] at hassign
    rw [Ptr.assign, Ptr.copy, hassign]
    rfl
  | swap x y =>
    obtain ⟨a, hx⟩ := Option.ne_none_iff_exists'.mp hok.1
    obtain ⟨b, hy⟩ := Option.ne_none_iff_exists'.mp hok.2
    exact ⟨_, by rw [step, hx, Option.bind_some, hy, Option.map_some], moved_swap hi hx hy⟩
  | addRef p =>
    obtain ⟨h, hadd, hkeeps⟩ := Balanced.addRef hi (hok p rfl).1 (hok p rfl).2
    exact ⟨_, by rw [step, hadd]; rfl, moved_held hkeeps (Nat.add_assoc ..)⟩
  | release p =>
    have hpos : 0 < s.refs p := Nat.lt_of_lt_of_le hok (Nat.le_add_left ..)
    obtain ⟨h, hrelease, hkeeps⟩ := Balanced.release hi hpos
    exact ⟨_, by rw [step, hrelease]; rfl, moved_held hkeeps (Nat.add_sub_assoc hok _)⟩

omit [DecidableEq V] in
theorem inv_init : (State.init : State V).Inv := by
  have hrefs : (State.init : State V).refs = fun _ => 0 := by
    funext p
    simp [refs, init, occupancy]
  rw [Inv, hrefs]
  exact ⟨fun p rc h => absurd h (by simp [init]), fun p h => absurd h (lt_irrefl 0),
    fun p => Nat.two_pow_pos 32⟩

/-- **Any number of legal operations** are no fault. -/
theorem run_of_legal {ops : List (Op V)} (hi : s.Inv) (hlegal : s.Legal ops) :
    ∃ s', s.run ops = some s' ∧ Moved s s' := by
  induction ops generalizing s with
  | nil => exact ⟨s, rfl, hi, fun p hp => hp⟩
  | cons op ops ih =>
    obtain ⟨s₁, hstep, hmoved⟩ := step_of_ok hi hlegal.1
    obtain ⟨s', hrun, hmoved'⟩ := ih hmoved.inv (hlegal.2 s₁ hstep)
    exact ⟨s', by rw [run, hstep, Option.bind_some, hrun], hmoved'.inv, fun p hp =>
      hmoved'.owned p (hmoved.owned p hp)⟩

omit [DecidableEq V] in
/-- An object that has been referred to is there as long as something refers to it, and no
longer. -/
theorem live_iff (hi : s.Inv) {p : ℕ} (howned : Owned s.heap s.refs p) :
    s.heap p = (if 0 < s.refs p then .live (s.refs p) else .deleted) := by
  split
  · rename_i hpos
    obtain ⟨rc, hrc⟩ := Cell.isLive_iff.mp (hi.live p hpos)
    rw [hrc, hi.count p rc hrc]
  · rename_i hzero
    exact howned.resolve_left hzero

/-- A legal sequence in two parts. -/
theorem legal_append {ops₁ ops₂ : List (Op V)} (h : s.Legal (ops₁ ++ ops₂)) :
    s.Legal ops₁ ∧ ∀ s₁ ∈ s.run ops₁, s₁.Legal ops₂ := by
  induction ops₁ generalizing s with
  | nil =>
    refine ⟨trivial, fun s₁ hs₁ => ?_⟩
    rw [run, Option.mem_some_iff] at hs₁
    exact hs₁ ▸ h
  | cons op ops ih =>
    refine ⟨⟨h.1, fun s' hs' => (ih (h.2 s' hs')).1⟩, fun s₁ hs₁ => ?_⟩
    obtain ⟨s', hs', hrun⟩ := Option.bind_eq_some_iff.mp hs₁
    exact (ih (h.2 s' hs')).2 s₁ hrun

/-- **The life of an object**: no legal program touches what is not there, and from the moment it
is referred to, an object is there exactly as long as something refers to it, with their number. -/
theorem lifetime_of_legal {ops₁ ops₂ : List (Op V)} (h : (init : State V).Legal (ops₁ ++ ops₂)) :
    ∃ s₁ s₂, (init : State V).run ops₁ = some s₁ ∧ s₁.run ops₂ = some s₂ ∧ ∀ p, 0 < s₁.refs p →
      s₂.heap p = if 0 < s₂.refs p then .live (s₂.refs p) else .deleted := by
  obtain ⟨hfirst, hrest⟩ := legal_append h
  obtain ⟨s₁, hrun₁, hmoved₁⟩ := run_of_legal inv_init hfirst
  obtain ⟨s₂, hrun₂, hmoved₂⟩ := run_of_legal hmoved₁.inv (hrest s₁ hrun₁)
  exact ⟨s₁, s₂, hrun₁, hrun₂, fun p hp => live_iff hmoved₂.inv (hmoved₂.owned p (Or.inl hp))⟩

/-- A reference that a call takes outlives the pointer, and deletes the object when it is given
back. -/
theorem lifetime_of_held : ∃ s₁ s₂, (init : State (Fin 1)).run
      [.new 0, .construct 0 (some 0), .addRef 0] = some s₁ ∧
    s₁.run [.destroy 0, .release 0] = some s₂ ∧ ∀ p, 0 < s₁.refs p →
      s₂.heap p = if 0 < s₂.refs p then .live (s₂.refs p) else .deleted :=
  lifetime_of_legal (by decide)

end State

end S4LibLite.CatchPtr
