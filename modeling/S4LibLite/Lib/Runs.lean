import S4LibLite.Lib.Interleaving

/-!
# Along a run

* `System.Meets` and `System.log`, conditions on the actions of a run, and a record of them;
* `System.run_conserves`, what the actions put in comes out in order;
* `System.run_others`, the threads that have no part in a run;
* `System.running_of_run`, what every program in progress is like;
* `raises_bind`, programs that raise an exception at every bad answer.
-/

namespace S4LibLite
namespace Interleaving

variable {A : Type} {R : A → Type} {α β C S T O : Type}

/-! ## Bad answers -/

/-- At a bad answer the program raises `what`. -/
def Prog.Raises (bad : (a : A) → R a → Prop) (what : String) : Prog A R α → Prop
  | .ret _ => True
  | .raise _ => True
  | .restart => True
  | .act a k => ∀ r, (bad a r → k r = .raise what) ∧ (k r).Raises bad what

section
variable {bad : (a : A) → R a → Prop} {what : String}

theorem raises_bind {p : Prog A R α} {f : α → Prog A R β} (hp : p.Raises bad what)
    (hf : ∀ x, (f x).Raises bad what) : (p >>= f).Raises bad what := by
  induction p with
  | ret x => exact hf x
  | raise w => exact trivial
  | restart => exact trivial
  | act a k ih =>
    intro r
    refine ⟨fun hbad => ?_, ih r (hp r).2⟩
    show Prog.bind (k r) f = _
    rw [(hp r).1 hbad]
    rfl

/-- Actions that never answer badly. -/
theorem raises_of_only {P : A → Prop} (hP : ∀ a r, P a → ¬ bad a r) {p : Prog A R α}
    (h : p.Only P) : p.Raises bad what := by
  induction p with
  | ret x => exact trivial
  | raise w => exact trivial
  | restart => exact trivial
  | act a k ih =>
    intro r
    exact ⟨fun hbad => absurd hbad (hP a r h.1), ih r (h.2 r)⟩

end

/-! ## Runs -/

/-- The thread that goes on. -/
def Event.thread : Event T C O → T
  | .call t _ => t
  | .go t _ => t

namespace System

variable [DecidableEq T] (sys : System T A R C S O α)

omit [DecidableEq T] in
/-- The action that an event performs, with its thread and its choice. -/
def acts (k : Config T A R S O α) : Event T C O → Option (T × A × C)
  | .call .. => none
  | .go t choice =>
    match k.running t with
    | some (_, .act a _) => some (t, a, choice)
    | _ => none

/-- Every action of the run meets `ok`, in the state where it is performed. -/
def Meets (ok : S → T → A → C → Prop) : Config T A R S O α → List (Event T C O) → Prop
  | _, [] => True
  | k, e :: es => (∀ x ∈ acts k e, ok k.state x.1 x.2.1 x.2.2) ∧
    ∀ k' ∈ sys.next k e, Meets ok k' es

instance {ok : S → T → A → C → Prop} [∀ s t a choice, Decidable (ok s t a choice)] :
    ∀ k es, Decidable (sys.Meets ok k es)
  | _, [] => .isTrue trivial
  | k, e :: es =>
    have : ∀ k', Decidable (sys.Meets ok k' es) := fun k' => instDecidableMeets k' es
    inferInstanceAs (Decidable ((∀ x ∈ acts k e, ok k.state x.1 x.2.1 x.2.2) ∧
      ∀ k' ∈ sys.next k e, sys.Meets ok k' es))

/-- What the actions of a run put into `f`, in order. -/
def log (f : S → T → A → C → Option β) : Config T A R S O α → List (Event T C O) → List β
  | _, [] => []
  | k, e :: es =>
    ((acts k e).bind fun x => f k.state x.1 x.2.1 x.2.2).toList ++
      ((sys.next k e).map fun k' => log f k' es).getD []

variable {sys} {k k' : Config T A R S O α} {es : List (Event T C O)}

theorem run_append {es' : List (Event T C O)} : sys.run k (es ++ es') = some k' ↔
    ∃ k₁, sys.run k es = some k₁ ∧ sys.run k₁ es' = some k' := by
  induction es generalizing k with
  | nil => simp [run]
  | cons e es ih =>
    rw [List.cons_append, run_cons]
    simp only [run_cons, ih]
    constructor
    · rintro ⟨k₁, hnext, k₂, hrun, hrun'⟩
      exact ⟨k₂, ⟨k₁, hnext, hrun⟩, hrun'⟩
    · rintro ⟨k₂, ⟨k₁, hnext, hrun⟩, hrun'⟩
      exact ⟨k₁, hnext, k₂, hrun, hrun'⟩

/-- An event performs one action, or leaves the state as it was. -/
theorem next_acts {e : Event T C O} (h : sys.next k e = some k') :
    (acts k e = none ∧ k'.state = k.state) ∨ ∃ t a choice r, acts k e = some (t, a, choice) ∧
      sys.step t a choice k.state = some (r, k'.state) := by
  rcases next_eq_some h with ⟨t, op, rfl, _, rfl⟩ | ⟨t, op, p, _, rfl, hrun, hend, rfl⟩ |
    ⟨t, op, _, rfl, hrun, rfl⟩ | ⟨t, op, a, f, choice, r, s, rfl, hrun, hstep, rfl⟩
  · exact Or.inl ⟨rfl, rfl⟩
  · rcases hend with ⟨x, rfl⟩ | ⟨what, rfl⟩
    · exact Or.inl ⟨by simp only [acts, hrun], rfl⟩
    · exact Or.inl ⟨by simp only [acts, hrun], rfl⟩
  · exact Or.inl ⟨by simp only [acts, hrun], rfl⟩
  · exact Or.inr ⟨t, a, choice, r, by simp only [acts, hrun], hstep⟩

theorem Meets.and {ok ok' : S → T → A → C → Prop} (h : sys.Meets ok k es)
    (h' : sys.Meets ok' k es) :
    sys.Meets (fun s t a choice => ok s t a choice ∧ ok' s t a choice) k es := by
  induction es generalizing k with
  | nil => exact trivial
  | cons e es ih =>
    exact ⟨fun x hx => ⟨h.1 x hx, h'.1 x hx⟩, fun k₁ hk₁ => ih (h.2 k₁ hk₁) (h'.2 k₁ hk₁)⟩

/-- A thread without an event stays where it was. -/
theorem run_others {u : T} (hes : ∀ e ∈ es, e.thread ≠ u) (h : sys.run k es = some k') :
    k'.running u = k.running u := by
  induction es generalizing k with
  | nil => rw [← Option.some.inj h]
  | cons e es ih =>
    obtain ⟨he, hes⟩ := List.forall_mem_cons.mp hes
    obtain ⟨k₁, hnext, hrun⟩ := run_cons.mp h
    rw [ih hes hrun]
    rcases next_eq_some hnext with ⟨t, op, rfl, _, rfl⟩ | ⟨t, op, p, _, rfl, _, _, rfl⟩ |
      ⟨t, op, _, rfl, _, rfl⟩ | ⟨t, op, a, f, choice, r, s, rfl, _, _, rfl⟩
    all_goals exact Function.update_of_ne he.symm _ _

/-- Where every action that meets `ok` takes its output from the front of what is inside and
puts its input at the end, so does a run. -/
theorem run_conserves {ok : S → T → A → C → Prop} {I : S → Prop} {inside : S → List β}
    {put got : S → T → A → C → Option β}
    (hstep : ∀ {s t a choice r s'}, I s → ok s t a choice →
      sys.step t a choice s = some (r, s') → I s' ∧
        inside s ++ (put s t a choice).toList = (got s t a choice).toList ++ inside s')
    (hI : I k.state) (hok : sys.Meets ok k es) (h : sys.run k es = some k') :
    inside k.state ++ sys.log put k es = sys.log got k es ++ inside k'.state := by
  induction es generalizing k with
  | nil =>
    rw [← Option.some.inj h]
    simp [log]
  | cons e es ih =>
    obtain ⟨k₁, hnext, hrun⟩ := run_cons.mp h
    rcases next_acts hnext with ⟨hacts, hsame⟩ | ⟨t, a, choice, r, hacts, hact⟩
    · have hrest := ih (by rwa [hsame]) (hok.2 k₁ hnext) hrun
      rw [hsame] at hrest
      simpa [log, hacts, hnext] using hrest
    · obtain ⟨hI₁, hone⟩ := hstep hI (hok.1 _ hacts) hact
      have hrest := ih hI₁ (hok.2 k₁ hnext) hrun
      have hlog : ∀ f : S → T → A → C → Option β,
          sys.log f k (e :: es) = (f k.state t a choice).toList ++ sys.log f k₁ es := by
        intro f
        simp [log, hacts, hnext]
      -- what this action puts in stands behind what is inside already
      calc inside k.state ++ sys.log put k (e :: es)
          = (inside k.state ++ (put k.state t a choice).toList) ++ sys.log put k₁ es := by
            rw [hlog, List.append_assoc]
        _ = (got k.state t a choice).toList ++ (inside k₁.state ++ sys.log put k₁ es) := by
            rw [hone, List.append_assoc]
        _ = sys.log got k (e :: es) ++ inside k'.state := by
            rw [hrest, hlog, List.append_assoc]

/-- One thread goes on with `x`. -/
theorem running_update {P : O → Prog A R α → Prop} {t : T}
    {x : Option (O × Prog A R α)} (hk : ∀ t op p, k.running t = some (op, p) → P op p)
    (hx : ∀ op p, x = some (op, p) → P op p) :
    ∀ u op p, Function.update k.running t x u = some (op, p) → P op p := by
  intro u op p hu
  by_cases hut : u = t
  · rw [hut, Function.update_self] at hu
    exact hx op p hu
  · rw [Function.update_of_ne hut] at hu
    exact hk u op p hu

/-- What every program of an operation is like, at its beginning and after each answer. -/
theorem running_of_run {P : O → Prog A R α → Prop} (hbody : ∀ op, P op (sys.body op))
    (hact : ∀ {op a f} r, P op (.act a f) → P op (f r))
    (hk : ∀ t op p, k.running t = some (op, p) → P op p) (h : sys.run k es = some k') :
    ∀ t op p, k'.running t = some (op, p) → P op p := by
  have hsome : ∀ {op p}, P op p → ∀ op' p', some (op, p) = some (op', p') → P op' p' := by
    intro op p hp op' p' heq
    obtain ⟨rfl, rfl⟩ := Prod.mk.inj (Option.some.inj heq)
    exact hp
  refine run_invariant (P := fun k => ∀ t op p, k.running t = some (op, p) → P op p) ?_ hk h
  intro k e k' hk hnext
  rcases next_eq_some hnext with ⟨t, op, _, _, rfl⟩ | ⟨t, op, p, _, _, _, _, rfl⟩ |
    ⟨t, op, _, _, _, rfl⟩ | ⟨t, op, a, f, choice, r, s, _, hrunning, _, rfl⟩
  · exact running_update hk (hsome (hbody op))
  · exact running_update hk fun op' p' heq => absurd heq (by simp)
  · exact running_update hk (hsome (hbody op))
  · exact running_update hk (hsome (hact r (hk t op _ hrunning)))

end System

end Interleaving
end S4LibLite
