import S4LibLite.Lib.Interleaving

/-!
# A thread while the others wait

What a call does when no other thread acts until it returns. The choices are left open, so a
program has a set of results.

* `returns_bind`, `returns_perform` and `returns_cons`, the results of a program from those of
  its parts;
* `System.call_iff`, a call in a run of the system is its program by itself.
-/

namespace S4LibLite
namespace Interleaving

variable {A : Type} {R : A → Type} {α β C S T O : Type}

/-! ## Programs -/

/-- From `s` the program can return `x` and leave `s'`. -/
def Prog.Returns (step : (a : A) → C → S → Option (R a × S)) :
    Prog A R α → S → α → S → Prop
  | .ret y, s, x, s' => y = x ∧ s = s'
  | .raise _, _, _, _ => False
  | .restart, _, _, _ => False
  | .act a k, s, x, s' =>
    ∃ choice r s₁, step a choice s = some (r, s₁) ∧ (k r).Returns step s₁ x s'

/-- The program does not start over. -/
def Prog.Direct : Prog A R α → Prop
  | .ret _ => True
  | .raise _ => True
  | .restart => False
  | .act _ k => ∀ r, (k r).Direct

section
variable {step : (a : A) → C → S → Option (R a × S)} {s s' : S}

theorem returns_pure {x y : α} : (pure y : Prog A R α).Returns step s x s' ↔ y = x ∧ s = s' :=
  Iff.rfl

/-- One program after the other. -/
theorem returns_bind {p : Prog A R α} {f : α → Prog A R β} {y : β} :
    (p >>= f).Returns step s y s' ↔
      ∃ x s₁, p.Returns step s x s₁ ∧ (f x).Returns step s₁ y s' := by
  induction p generalizing s with
  | ret x =>
    constructor
    · intro h
      exact ⟨x, s, ⟨rfl, rfl⟩, h⟩
    · rintro ⟨_, _, ⟨hx, hs⟩, h⟩
      rw [← hx, ← hs] at h
      exact h
  | raise what =>
    constructor
    · exact False.elim
    · rintro ⟨_, _, h, _⟩
      exact h.elim
  | restart =>
    constructor
    · exact False.elim
    · rintro ⟨_, _, h, _⟩
      exact h.elim
  | act a k ih =>
    constructor
    · rintro ⟨choice, r, s₁, hstep, h⟩
      obtain ⟨x, s₂, hp, hf⟩ := ih r |>.mp h
      exact ⟨x, s₂, ⟨choice, r, s₁, hstep, hp⟩, hf⟩
    · rintro ⟨x, s₂, ⟨choice, r, s₁, hstep, hp⟩, hf⟩
      exact ⟨choice, r, s₁, hstep, ih r |>.mpr ⟨x, s₂, hp, hf⟩⟩

/-- A first part that has one result. -/
theorem returns_bind_of_iff {p : Prog A R α} {f : α → Prog A R β} {y : β} {x₁ : α} {s₁ : S}
    (h : ∀ x s', p.Returns step s x s' ↔ x = x₁ ∧ s' = s₁) :
    (p >>= f).Returns step s y s' ↔ (f x₁).Returns step s₁ y s' := by
  rw [returns_bind]
  constructor
  · rintro ⟨x, s₂, hp, hf⟩
    obtain ⟨hx, hs⟩ := h x s₂ |>.mp hp
    rw [hx, hs] at hf
    exact hf
  · exact fun hf => ⟨x₁, s₁, (h x₁ s₁).mpr ⟨rfl, rfl⟩, hf⟩

/-- Behind a program with one outcome. -/
theorem returns_seq_of_iff {p : Prog A R Unit} {f : Unit → Prog A R β} {y : β} {s₁ : S}
    (h : ∀ s', p.Returns step s () s' ↔ s' = s₁) :
    (p >>= f).Returns step s y s' ↔ (f ()).Returns step s₁ y s' := by
  apply returns_bind_of_iff
  intro _ s'
  rw [h s', and_iff_right rfl]

/-- An action returns what some choice lets it. -/
theorem returns_perform {a : A} {r : R a} :
    (Prog.perform a).Returns step s r s' ↔ ∃ choice, step a choice s = some (r, s') := by
  constructor
  · rintro ⟨choice, _, _, hstep, hr, hs⟩
    rw [hr, hs] at hstep
    exact ⟨choice, hstep⟩
  · rintro ⟨choice, hstep⟩
    exact ⟨choice, r, s', hstep, rfl, rfl⟩

/-- An action that can only go one way. -/
theorem returns_bind_of_step [Nonempty C] {a : A} {r : R a} {s₁ : S} {f : R a → Prog A R α}
    {x : α} (h : ∀ choice, step a choice s = some (r, s₁)) :
    (Prog.perform a >>= f).Returns step s x s' ↔ (f r).Returns step s₁ x s' := by
  constructor
  · rintro ⟨choice, r', s₁', hstep, hf⟩
    obtain ⟨hr, hs⟩ := Prod.mk.inj (Option.some.inj ((h choice).symm.trans hstep))
    rw [hr, hs]
    exact hf
  · intro hf
    obtain ⟨choice⟩ := ‹Nonempty C›
    exact ⟨choice, r, s₁, h choice, hf⟩

/-- An action that no choice changes. -/
theorem returns_perform_of_step [Nonempty C] {a : A} {r r₁ : R a} {s₁ : S}
    (h : ∀ choice, step a choice s = some (r₁, s₁)) :
    (Prog.perform a).Returns step s r s' ↔ r = r₁ ∧ s' = s₁ := by
  rw [returns_perform]
  simp only [h, exists_const, Option.some.injEq, Prod.mk.injEq, eq_comm]

theorem returns_nil {f : β → Prog A R Unit} :
    (Prog.forEach f []).Returns step s () s' ↔ s = s' :=
  ⟨fun h => h.2, fun h => ⟨rfl, h⟩⟩

/-- The first turn of a loop, and the others. -/
theorem returns_cons {f : β → Prog A R Unit} {x : β} {xs : List β} :
    (Prog.forEach f (x :: xs)).Returns step s () s' ↔
      ∃ s₁, (f x).Returns step s () s₁ ∧ (Prog.forEach f xs).Returns step s₁ () s' := by
  rw [Prog.forEach, returns_bind]
  constructor
  · rintro ⟨_, s₁, hx, hxs⟩
    exact ⟨s₁, hx, hxs⟩
  · rintro ⟨s₁, hx, hxs⟩
    exact ⟨(), s₁, hx, hxs⟩

end

/-- Programs that do not wait, one after the other. -/
theorem direct_bind {p : Prog A R α} {f : α → Prog A R β} (hp : p.Direct)
    (hf : ∀ x, (f x).Direct) : (p >>= f).Direct := by
  induction p with
  | ret x => exact hf x
  | raise what => exact trivial
  | restart => exact hp.elim
  | act a k ih => exact fun r => ih r (hp r)

theorem direct_perform (a : A) : (Prog.perform a : Prog A R (R a)).Direct := fun _ => trivial

/-- A loop of such programs. -/
theorem direct_forEach {f : β → Prog A R Unit} (hf : ∀ x, (f x).Direct) (xs : List β) :
    (Prog.forEach f xs).Direct := by
  induction xs with
  | nil => exact trivial
  | cons x xs ih => exact direct_bind (hf x) fun _ => ih

/-! ## Calls -/

variable [DecidableEq T] (sys : System T A R C S O α)

namespace System

/-- Thread `t` calls `op` in `k`, which returns `x`, and the others wait. -/
def Call (t : T) (op : O) (x : α) (k k' : Config T A R S O α) : Prop :=
  ∃ (choices : List C) (k₁ : Config T A R S O α),
    sys.run k (.call t op :: choices.map (.go t)) = some k₁ ∧
      k₁.running t = some (op, .ret x) ∧ k' = ⟨k₁.state, Function.update k₁.running t none⟩

/-- Thread `t` calls the operations one after the other, and each returns the value beside
it. -/
def Calls (t : T) : List (O × α) → Config T A R S O α → Config T A R S O α → Prop
  | [], k, k' => k = k'
  | (op, x) :: calls, k, k' => ∃ k₁, sys.Call t op x k k₁ ∧ Calls t calls k₁ k'

variable {sys} {k k' k₁ : Config T A R S O α} {t : T} {op : O} {x : α}

/-- A thread that is between calls does not go on. -/
theorem run_go_idle (hk : k.running t = none) {choices : List C}
    (h : sys.run k (choices.map (.go t)) = some k') : k' = k := by
  cases choices with
  | nil => exact (Option.some.inj h).symm
  | cons choice choices => simp [run, next, hk] at h

/-- What is left of a call, when the others wait. -/
theorem run_go_iff {p : Prog A R α} (hp : p.Direct) (hk : k.running t = some (op, p)) :
    (∃ choices : List C, sys.run k (choices.map (.go t)) = some k₁ ∧
      k₁.running t = some (op, .ret x)) ↔
      ∃ s, p.Returns (sys.step t) k.state x s ∧
        k₁ = ⟨s, Function.update k.running t (some (op, .ret x))⟩ := by
  induction p generalizing k with
  | ret y =>
    constructor
    · rintro ⟨choices, hrun, hret⟩
      cases choices with
      | nil =>
        rw [← Option.some.inj hrun, hk] at hret
        have hxy : y = x := Prog.ret.inj (Prod.mk.inj (Option.some.inj hret)).2
        refine ⟨k.state, ⟨hxy, rfl⟩, ?_⟩
        rw [← hxy, ← hk, Function.update_eq_self]
        exact (Option.some.inj hrun).symm
      | cons choice choices =>
        -- the call is over, and the thread would have to go on
        simp only [List.map_cons, run, next, hk] at hrun
        rw [run_go_idle (Function.update_self ..) hrun] at hret
        simp at hret
    · rintro ⟨s, ⟨hxy, hs⟩, hk₁⟩
      have hsame : k₁ = k := by rw [hk₁, ← hs, ← hxy, ← hk, Function.update_eq_self]
      rw [hsame]
      exact ⟨[], rfl, hxy ▸ hk⟩
  | raise what =>
    constructor
    · rintro ⟨choices, hrun, hret⟩
      cases choices with
      | nil =>
        rw [← Option.some.inj hrun, hk] at hret
        simp at hret
      | cons choice choices =>
        simp only [List.map_cons, run, next, hk] at hrun
        rw [run_go_idle (Function.update_self ..) hrun] at hret
        simp at hret
    · rintro ⟨_, h, _⟩
      exact h.elim
  | restart => exact hp.elim
  | act a f ih =>
    constructor
    · rintro ⟨choices, hrun, hret⟩
      cases choices with
      | nil =>
        rw [← Option.some.inj hrun, hk] at hret
        simp at hret
      | cons choice choices =>
        simp only [List.map_cons, run, next, hk] at hrun
        cases hstep : sys.step t a choice k.state with
        | none => simp [hstep] at hrun
        | some rs =>
          simp only [hstep] at hrun
          obtain ⟨s, hs, hk₁⟩ := ih rs.1 (hp rs.1) (Function.update_self ..) |>.mp
            ⟨choices, hrun, hret⟩
          rw [Function.update_idem] at hk₁
          exact ⟨s, ⟨choice, rs.1, rs.2, hstep, hs⟩, hk₁⟩
    · rintro ⟨s, ⟨choice, r, s₁, hstep, hs⟩, hk₁⟩
      obtain ⟨choices, hrun, hret⟩ := ih r (hp r) (Function.update_self ..)
        (k := ⟨s₁, Function.update k.running t (some (op, f r))⟩) |>.mpr
          ⟨s, hs, by rw [Function.update_idem]; exact hk₁⟩
      refine ⟨choice :: choices, ?_, hret⟩
      simp only [List.map_cons, run, next, hk, hstep]
      exact hrun

/-- A call in a run is its program by itself. -/
theorem call_iff (hd : (sys.body op).Direct) : sys.Call t op x k k' ↔
    k.running t = none ∧
      ∃ s, (sys.body op).Returns (sys.step t) k.state x s ∧ k' = ⟨s, k.running⟩ := by
  have hbegin : ∀ {choices : List C} {k₁ : Config T A R S O α}, k.running t = none →
      (sys.run k (.call t op :: choices.map (.go t)) = some k₁ ↔
        sys.run ⟨k.state, Function.update k.running t (some (op, sys.body op))⟩
          (choices.map (.go t)) = some k₁) := by
    intro choices k₁ hk
    simp only [run, next, hk]
  constructor
  · rintro ⟨choices, k₁, hrun, hret, hk'⟩
    -- a thread that is in a call begins no other
    have hk : k.running t = none := by
      cases hk : k.running t with
      | none => rfl
      | some x => simp [run, next, hk] at hrun
    obtain ⟨s, hs, hk₁⟩ := run_go_iff hd (Function.update_self ..) |>.mp
      ⟨choices, (hbegin hk).mp hrun, hret⟩
    refine ⟨hk, s, hs, ?_⟩
    rw [hk', hk₁, Function.update_idem, Function.update_idem, ← hk, Function.update_eq_self]
  · rintro ⟨hk, s, hs, hk'⟩
    obtain ⟨choices, hrun, hret⟩ := run_go_iff hd
      (k := ⟨k.state, Function.update k.running t (some (op, sys.body op))⟩)
      (Function.update_self ..) |>.mpr ⟨s, hs, rfl⟩
    refine ⟨choices, _, (hbegin hk).mpr hrun, hret, ?_⟩
    rw [hk', Function.update_idem, Function.update_idem, ← hk, Function.update_eq_self]

end System

end Interleaving
end S4LibLite
