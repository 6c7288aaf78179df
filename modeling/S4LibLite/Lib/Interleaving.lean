import Mathlib.Logic.Function.Basic
import Mathlib.Tactic.SplitIfs

/-!
# Threads that interleave atomic actions

A thread runs a program, a tree of atomic actions, over a state that all threads share. The
rules of an action say what the thread must have before it and what it has afterwards, in
terms of what belongs to this thread alone; they are proved once against the action, and used
on each program by itself.

* `wp_bind`, `wp_mono` and `wp_forEach`, the rules of a program;
* `wp_of_only`, a program whose actions all keep to the rules;
* `Sound.next` and `Sound.run`, programs that keep to the rules keep the invariant, in every
  interleaving;
* `Good.step_cases`, what one event does to the state.
-/

namespace S4LibLite
namespace Interleaving

variable {A : Type} {R : A → Type} {α β L : Type}

/-! ## Programs -/

/-- A program of actions `A`, the action `a` answering an `R a`. -/
inductive Prog (A : Type) (R : A → Type) (α : Type) : Type where
  | ret (x : α)
  /-- An exception, that nothing in the program catches. -/
  | raise (what : String)
  /-- The operation calls itself in tail position, with the arguments it had. -/
  | restart
  | act (a : A) (k : R a → Prog A R α)

namespace Prog

def bind : Prog A R α → (α → Prog A R β) → Prog A R β
  | ret x, f => f x
  | raise what, _ => raise what
  | restart, _ => restart
  | act a k, f => act a fun r => bind (k r) f

instance : Monad (Prog A R) where
  pure := ret
  bind := bind

/-- One action. -/
def perform (a : A) : Prog A R (R a) := act a ret

/-- `f` on each element, in order. -/
def forEach (f : β → Prog A R Unit) : List β → Prog A R Unit
  | [] => pure ()
  | x :: xs => do
    f x
    forEach f xs

/-- Every action the program can perform is one of `P`. -/
def Only (P : A → Prop) : Prog A R α → Prop
  | ret _ => True
  | raise _ => True
  | restart => True
  | act a k => P a ∧ ∀ r, Only P (k r)

theorem Only.mono {P Q : A → Prop} {p : Prog A R α} (h : p.Only P) (hPQ : ∀ a, P a → Q a) :
    p.Only Q := by
  induction p with
  | ret x => exact trivial
  | raise what => exact trivial
  | restart => exact trivial
  | act a k ih => exact ⟨hPQ a h.1, fun r => ih r (h.2 r)⟩

/-- One program after the other. -/
theorem Only.bind {P : A → Prop} {p : Prog A R α} {f : α → Prog A R β} (hp : p.Only P)
    (hf : ∀ x, (f x).Only P) : (p >>= f).Only P := by
  induction p with
  | ret x => exact hf x
  | raise what => exact trivial
  | restart => exact trivial
  | act a k ih => exact ⟨hp.1, fun r => ih r (hp.2 r)⟩

theorem only_perform {P : A → Prop} {a : A} (h : P a) : (perform a : Prog A R (R a)).Only P :=
  ⟨h, fun _ => trivial⟩

/-- A loop does only what its turns do. -/
theorem only_forEach {P : A → Prop} {f : β → Prog A R Unit} (hf : ∀ x, (f x).Only P)
    (xs : List β) : (forEach f xs).Only P := by
  induction xs with
  | nil => exact trivial
  | cons x xs ih => exact (hf x).bind fun _ => ih

end Prog

/-! ## The rules of the actions -/

/-- What an action needs of the thread that performs it, what the thread has afterwards, and
what it has between operations. -/
structure Rules (A : Type) (R : A → Type) (L : Type) where
  needs : L → A → Prop
  gives : L → (a : A) → R a → L → Prop
  idle : L → Prop

/-- What a thread must have for the program to keep to the rules and end in `Q`. -/
def Rules.wp (rules : Rules A R L) (Q : α → L → Prop) : Prog A R α → L → Prop
  | .ret x, l => Q x l
  | .raise _, l => rules.idle l
  | .restart, l => rules.idle l
  | .act a k, l => rules.needs l a ∧ ∀ r l', rules.gives l a r l' → rules.wp Q (k r) l'

section
variable {rules : Rules A R L} {Q : α → L → Prop} {l : L}

/-- Less may be asked of the end. -/
theorem wp_mono {Q' : α → L → Prop} {p : Prog A R α} (h : rules.wp Q p l)
    (hQ : ∀ x l, Q x l → Q' x l) : rules.wp Q' p l := by
  induction p generalizing l with
  | ret x => exact hQ x l h
  | raise what => exact h
  | restart => exact h
  | act a k ih =>
    refine ⟨h.1, fun r l' hgives => ?_⟩
    apply ih
    exact h.2 r l' hgives

/-- One program after the other. -/
theorem wp_bind {p : Prog A R α} {f : α → Prog A R β} {Q : β → L → Prop}
    (h : rules.wp (fun x l => rules.wp Q (f x) l) p l) : rules.wp Q (p >>= f) l := by
  induction p generalizing l with
  | ret x => exact h
  | raise what => exact h
  | restart => exact h
  | act a k ih =>
    refine ⟨h.1, fun r l' hgives => ?_⟩
    apply ih
    exact h.2 r l' hgives

theorem wp_perform_bind {a : A} {f : R a → Prog A R α} (hneeds : rules.needs l a)
    (h : ∀ r l', rules.gives l a r l' → rules.wp Q (f r) l') :
    rules.wp Q (Prog.perform a >>= f) l := ⟨hneeds, h⟩

/-- The rule of a loop, with `I` of the elements that are left as its invariant. -/
theorem wp_forEach {f : β → Prog A R Unit} {I : List β → L → Prop}
    (hstep : ∀ x xs l, I (x :: xs) l → rules.wp (fun _ l' => I xs l') (f x) l) {xs : List β}
    (h : I xs l) : rules.wp (fun _ l' => I [] l') (Prog.forEach f xs) l := by
  induction xs generalizing l with
  | nil => exact h
  | cons x xs ih =>
    unfold Prog.forEach
    apply wp_bind
    apply wp_mono (hstep x xs l h)
    intro _ l' h'
    exact ih h'

/-- A program of actions that keep `I` keeps it. -/
theorem wp_of_only {P : A → Prop} {I : L → Prop} (hidle : ∀ l, I l → rules.idle l)
    (hkeep : ∀ a l, P a → I l → rules.needs l a ∧ ∀ r l', rules.gives l a r l' → I l')
    {p : Prog A R α} (h : p.Only P) (hl : I l) : rules.wp (fun _ => I) p l := by
  induction p generalizing l with
  | ret x => exact hl
  | raise what => exact hidle l hl
  | restart => exact hidle l hl
  | act a k ih =>
    have hkeep := hkeep a l h.1 hl
    exact ⟨hkeep.1, fun r l' hgives => ih r (h.2 r) (hkeep.2 r l' hgives)⟩

end

/-! ## Systems of threads -/

/-- What each operation runs, and what an action of a thread does to the state; where an
action may go several ways, a choice says which. -/
structure System (T A : Type) (R : A → Type) (C S O α : Type) where
  body : O → Prog A R α
  step : T → (a : A) → C → S → Option (R a × S)

/-- The state and what is left of the operation each thread is in. -/
structure Config (T A : Type) (R : A → Type) (S O α : Type) where
  state : S
  running : T → Option (O × Prog A R α)

/-- A thread without an operation calls one, or a thread goes on with its own. -/
inductive Event (T C O : Type)
  | call (t : T) (op : O)
  | go (t : T) (choice : C)

variable {T C S O : Type} [DecidableEq T] (sys : System T A R C S O α)

namespace System

/-- What happens at an event, if it can happen. -/
def next (k : Config T A R S O α) : Event T C O → Option (Config T A R S O α)
  | .call t op =>
    match k.running t with
    | none => some ⟨k.state, Function.update k.running t (some (op, sys.body op))⟩
    | some _ => none
  | .go t choice =>
    match k.running t with
    | none => none
    | some (_, .ret _) => some ⟨k.state, Function.update k.running t none⟩
    | some (_, .raise _) => some ⟨k.state, Function.update k.running t none⟩
    | some (op, .restart) =>
      some ⟨k.state, Function.update k.running t (some (op, sys.body op))⟩
    | some (op, .act a f) =>
      match sys.step t a choice k.state with
      | none => none
      | some (r, s) => some ⟨s, Function.update k.running t (some (op, f r))⟩

/-- A sequence of events, of any threads. -/
def run : Config T A R S O α → List (Event T C O) → Option (Config T A R S O α)
  | k, [] => some k
  | k, e :: es =>
    match sys.next k e with
    | none => none
    | some k' => run k' es

end System

/-- The rules are right about the actions, and each operation keeps to them. -/
structure Sound (rules : Rules A R L) (own : S → T → L) (Inv : S → Prop) : Prop where
  step : ∀ {t a choice s r s'}, Inv s → rules.needs (own s t) a →
    sys.step t a choice s = some (r, s') →
      Inv s' ∧ rules.gives (own s t) a r (own s' t) ∧ ∀ u, u ≠ t → own s' u = own s u
  body : ∀ op l, rules.idle l → rules.wp (fun _ => rules.idle) (sys.body op) l

/-- What a thread must have, between operations and within one. -/
def Rules.Ready (rules : Rules A R L) : Option (O × Prog A R α) → L → Prop
  | none, l => rules.idle l
  | some (_, p), l => rules.wp (fun _ => rules.idle) p l

/-- The invariant holds, and every thread can go on by the rules. -/
structure Good (rules : Rules A R L) (own : S → T → L) (Inv : S → Prop)
    (k : Config T A R S O α) : Prop where
  inv : Inv k.state
  ready : ∀ t, rules.Ready (k.running t) (own k.state t)

section
variable {sys} {rules : Rules A R L} {own : S → T → L} {Inv : S → Prop}
  {k k' : Config T A R S O α}

omit [DecidableEq T] in
theorem Good.wp (hg : Good rules own Inv k) {t : T} {op : O} {p : Prog A R α}
    (ht : k.running t = some (op, p)) : rules.wp (fun _ => rules.idle) p (own k.state t) := by
  have hready := hg.ready t
  rw [ht] at hready
  exact hready

/-- Thread `t` goes on with `x`; the others have what they had. -/
theorem Good.update (hg : Good rules own Inv k) {s : S} {t : T} {x : Option (O × Prog A R α)}
    (hinv : Inv s) (ht : rules.Ready x (own s t))
    (hframe : ∀ u, u ≠ t → own s u = own k.state u) :
    Good rules own Inv ⟨s, Function.update k.running t x⟩ := by
  refine ⟨hinv, fun u => ?_⟩
  show rules.Ready (Function.update k.running t x u) (own s u)
  by_cases hut : u = t
  · rw [hut, Function.update_self]
    exact ht
  · rw [Function.update_of_ne hut, hframe u hut]
    exact hg.ready u

/-- The events that can happen, by what the thread is in. -/
theorem System.next_eq_some {e : Event T C O} (h : sys.next k e = some k') :
    (∃ t op, e = .call t op ∧ k.running t = none ∧
      k' = ⟨k.state, Function.update k.running t (some (op, sys.body op))⟩) ∨
    (∃ t op p choice, e = .go t choice ∧ k.running t = some (op, p) ∧
      ((∃ x, p = .ret x) ∨ ∃ what, p = .raise what) ∧
      k' = ⟨k.state, Function.update k.running t none⟩) ∨
    (∃ t op choice, e = .go t choice ∧ k.running t = some (op, .restart) ∧
      k' = ⟨k.state, Function.update k.running t (some (op, sys.body op))⟩) ∨
    (∃ t op a f choice r s, e = .go t choice ∧ k.running t = some (op, .act a f) ∧
      sys.step t a choice k.state = some (r, s) ∧
      k' = ⟨s, Function.update k.running t (some (op, f r))⟩) := by
  unfold System.next at h
  split at h
  · rename_i t op
    split at h
    · exact Or.inl ⟨t, op, rfl, ‹_›, (Option.some.inj h).symm⟩
    · simp at h
  · rename_i t choice
    apply Or.inr
    split at h
    · simp at h
    · rename_i op x hrun
      exact Or.inl ⟨t, op, _, choice, rfl, hrun, Or.inl ⟨x, rfl⟩, (Option.some.inj h).symm⟩
    · rename_i op what hrun
      exact Or.inl ⟨t, op, _, choice, rfl, hrun, Or.inr ⟨what, rfl⟩, (Option.some.inj h).symm⟩
    · rename_i op hrun
      exact Or.inr (Or.inl ⟨t, op, choice, rfl, hrun, (Option.some.inj h).symm⟩)
    · rename_i op a f hrun
      split at h
      · simp at h
      · rename_i r s hstep
        refine Or.inr (Or.inr ⟨t, op, a, f, choice, r, s, rfl, hrun, hstep, ?_⟩)
        exact (Option.some.inj h).symm

/-- The first event of a run, and the others. -/
theorem System.run_cons {e : Event T C O} {es : List (Event T C O)} :
    sys.run k (e :: es) = some k' ↔ ∃ k₁, sys.next k e = some k₁ ∧ sys.run k₁ es = some k' := by
  rw [run]
  cases sys.next k e with
  | none => simp
  | some k₁ => simp

/-- **Invariant rule.** What every event preserves, a run preserves. -/
theorem System.run_invariant {P : Config T A R S O α → Prop}
    (hnext : ∀ {k e k'}, P k → sys.next k e = some k' → P k') {es : List (Event T C O)}
    (hk : P k) (h : sys.run k es = some k') : P k' := by
  induction es generalizing k with
  | nil =>
    rw [← Option.some.inj h]
    exact hk
  | cons e es ih =>
    obtain ⟨k₁, hnext₁, hrun⟩ := run_cons.mp h
    exact ih (hnext hk hnext₁) hrun

/-- What an event does to the state: nothing, or one action by the rules. -/
theorem Good.step_cases (hg : Good rules own Inv k) {e : Event T C O}
    (h : sys.next k e = some k') :
    k'.state = k.state ∨ ∃ t a choice r, rules.needs (own k.state t) a ∧
      sys.step t a choice k.state = some (r, k'.state) := by
  rcases System.next_eq_some h with ⟨t, op, -, _, rfl⟩ | ⟨t, op, p, _, -, _, _, rfl⟩ |
    ⟨t, op, _, -, _, rfl⟩ | ⟨t, op, a, f, choice, r, s, -, hrun, hstep, rfl⟩
  · exact Or.inl rfl
  · exact Or.inl rfl
  · exact Or.inl rfl
  · exact Or.inr ⟨t, a, choice, r, (hg.wp hrun).1, hstep⟩

/-- One event keeps the invariant and every thread to the rules. -/
theorem Sound.next (hs : Sound sys rules own Inv) (hg : Good rules own Inv k)
    {e : Event T C O} (h : sys.next k e = some k') : Good rules own Inv k' := by
  rcases System.next_eq_some h with ⟨t, op, -, hrun, rfl⟩ | ⟨t, op, p, _, -, hrun, hend, rfl⟩ |
    ⟨t, op, _, -, hrun, rfl⟩ | ⟨t, op, a, f, choice, r, s, -, hrun, hstep, rfl⟩
  · have hidle := hg.ready t
    rw [hrun] at hidle
    exact hg.update hg.inv (hs.body op _ hidle) fun _ _ => rfl
  · have hwp := hg.wp hrun
    apply hg.update hg.inv _ fun _ _ => rfl
    rcases hend with ⟨x, rfl⟩ | ⟨what, rfl⟩
    · exact hwp
    · exact hwp
  · exact hg.update hg.inv (hs.body op _ (hg.wp hrun)) fun _ _ => rfl
  · have hwp := hg.wp hrun
    have hstep' := hs.step hg.inv hwp.1 hstep
    exact hg.update hstep'.1 (hwp.2 r _ hstep'.2.1) hstep'.2.2

/-- Programs that keep to the rules keep the invariant, in every interleaving. -/
theorem Sound.run (hs : Sound sys rules own Inv) {es : List (Event T C O)}
    (hg : Good rules own Inv k) (h : sys.run k es = some k') : Good rules own Inv k' :=
  System.run_invariant (fun hg hnext => hs.next hg hnext) hg h

end

end Interleaving
end S4LibLite
