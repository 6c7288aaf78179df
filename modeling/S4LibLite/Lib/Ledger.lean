import S4LibLite.Lib.Runs
import Mathlib.Algebra.BigOperators.Group.Finset.Basic

/-!
# What the state does not show of a thread

What a thread has may be a matter of where it is in its program only, like what it has still to
add to a counter. Its account is then kept beside the state.

* `wp_prod`, a program that keeps to two sets of rules;
* `Audited.next` and `Audited.run`, the threads go on by the rules, and the accounts agree with
  the state;
* `Total.update`, the sum of the accounts when one of them changes.
-/

namespace S4LibLite
namespace Interleaving

variable {A : Type} {R : A → Type} {α C S T O L L' : Type}

/-! ## Two sets of rules -/

/-- Both sets of rules at once. -/
def Rules.prod (rules : Rules A R L) (rules' : Rules A R L') : Rules A R (L × L') where
  needs l a := rules.needs l.1 a ∧ rules'.needs l.2 a
  gives l a r l' := rules.gives l.1 a r l'.1 ∧ rules'.gives l.2 a r l'.2
  idle l := rules.idle l.1 ∧ rules'.idle l.2

/-- Two sets of rules, kept side by side. -/
theorem wp_prod {rules : Rules A R L} {rules' : Rules A R L'} {Q : α → L → Prop}
    {Q' : α → L' → Prop} {p : Prog A R α} {l : L × L'} (h : rules.wp Q p l.1)
    (h' : rules'.wp Q' p l.2) :
    (rules.prod rules').wp (fun x l => Q x l.1 ∧ Q' x l.2) p l := by
  induction p generalizing l with
  | ret x => exact ⟨h, h'⟩
  | raise what => exact ⟨h, h'⟩
  | restart => exact ⟨h, h'⟩
  | act a k ih =>
    refine ⟨⟨h.1, h'.1⟩, fun r l₁ hgives => ?_⟩
    apply ih
    · exact h.2 r l₁.1 hgives.1
    · exact h'.2 r l₁.2 hgives.2

/-! ## Accounts -/

variable [DecidableEq T] (sys : System T A R C S O α)

/-- The actions that meet `ok` go by the rules, and each operation keeps to them. `Inv` says
which accounts agree with the state. -/
structure Audited (rules : Rules A R L) (ok : S → T → A → C → Prop)
    (Inv : S → (T → L) → Prop) : Prop where
  step : ∀ {s : S} {acc : T → L} {t a choice r s'}, Inv s acc → ok s t a choice →
    rules.needs (acc t) a → sys.step t a choice s = some (r, s') →
      ∃ l, rules.gives (acc t) a r l ∧ Inv s' (Function.update acc t l)
  body : ∀ op l, rules.idle l → rules.wp (fun _ => rules.idle) (sys.body op) l

/-- Some accounts agree with the state, and every thread can go on by the rules. -/
def Kept (rules : Rules A R L) (Inv : S → (T → L) → Prop) (k : Config T A R S O α) : Prop :=
  ∃ acc : T → L, Inv k.state acc ∧ ∀ t, rules.Ready (k.running t) (acc t)

section
variable {sys} {rules : Rules A R L} {ok : S → T → A → C → Prop} {Inv : S → (T → L) → Prop}
  {k k' : Config T A R S O α}

/-- Thread `t` goes on with `x` and has `l`. -/
theorem Kept.update {acc : T → L} (hready : ∀ t, rules.Ready (k.running t) (acc t)) {s : S} {t : T}
    {l : L} {x : Option (O × Prog A R α)} (hinv : Inv s (Function.update acc t l))
    (ht : rules.Ready x l) : Kept rules Inv ⟨s, Function.update k.running t x⟩ := by
  refine ⟨_, hinv, fun u => ?_⟩
  show rules.Ready (Function.update k.running t x u) (Function.update acc t l u)
  by_cases hut : u = t
  · rw [hut, Function.update_self, Function.update_self]
    exact ht
  · rw [Function.update_of_ne hut, Function.update_of_ne hut]
    exact hready u

theorem Audited.next (hs : Audited sys rules ok Inv) (hk : Kept rules Inv k)
    {e : Event T C O} (hok : ∀ x ∈ System.acts k e, ok k.state x.1 x.2.1 x.2.2)
    (h : sys.next k e = some k') : Kept rules Inv k' := by
  obtain ⟨acc, hinv, hready⟩ := hk
  have hsame : ∀ t, Inv k.state (Function.update acc t (acc t)) := by
    intro t
    rw [Function.update_eq_self]
    exact hinv
  rcases System.next_eq_some h with ⟨t, op, -, hrun, rfl⟩ | ⟨t, op, p, _, -, hrun, hend, rfl⟩ |
    ⟨t, op, _, -, hrun, rfl⟩ | ⟨t, op, a, f, choice, r, s, rfl, hrun, hstep, rfl⟩
  · -- a call begins where its program may
    have hidle := hready t
    rw [hrun] at hidle
    exact Kept.update hready (hsame t) (hs.body op _ hidle)
  · have hwp := hready t
    rw [hrun] at hwp
    apply Kept.update hready (hsame t)
    rcases hend with ⟨x, rfl⟩ | ⟨what, rfl⟩
    · exact hwp
    · exact hwp
  · have hidle := hready t
    rw [hrun] at hidle
    exact Kept.update hready (hsame t) (hs.body op _ hidle)
  · have hwp := hready t
    rw [hrun] at hwp
    have hacts : System.acts k (.go t choice : Event T C O) = some (t, a, choice) := by
      simp only [System.acts, hrun]
    obtain ⟨l, hgives, hinv'⟩ := hs.step hinv (hok _ hacts) hwp.1 hstep
    exact Kept.update hready hinv' (hwp.2 r l hgives)

/-- The accounts are kept along a run whose actions all meet `ok`. -/
theorem Audited.run (hs : Audited sys rules ok Inv) {es : List (Event T C O)}
    (hk : Kept rules Inv k) (hok : sys.Meets ok k es) (h : sys.run k es = some k') :
    Kept rules Inv k' := by
  induction es generalizing k with
  | nil =>
    rw [← Option.some.inj h]
    exact hk
  | cons e es ih =>
    obtain ⟨k₁, hnext, hrun⟩ := System.run_cons.mp h
    exact ih (hs.next hk hok.1 hnext) (hok.2 k₁ hnext) hrun

end

/-! ## Sums -/

/-- All but finitely many of the accounts are empty, and their sum is `x`. -/
def Total (acc : T → ℕ) (x : ℕ) : Prop :=
  ∃ ts : Finset T, (∀ t, t ∉ ts → acc t = 0) ∧ ∑ t ∈ ts, acc t = x

variable {acc : T → ℕ} {x : ℕ}

omit [DecidableEq T] in
theorem total_zero : Total (fun _ : T => 0) 0 := ⟨∅, fun _ _ => rfl, rfl⟩

omit [DecidableEq T] in
/-- Accounts without anything in them. -/
theorem Total.eq_zero (h : Total acc x) (hacc : ∀ t, acc t = 0) : x = 0 := by
  obtain ⟨ts, _, rfl⟩ := h
  exact Finset.sum_eq_zero fun t _ => hacc t

/-- The account of `t` changes to `n`. -/
theorem Total.update (h : Total acc x) (t : T) (n : ℕ) :
    ∃ y, y + acc t = x + n ∧ Total (Function.update acc t n) y := by
  obtain ⟨ts, hout, rfl⟩ := h
  have hmem : t ∈ insert t ts := Finset.mem_insert_self t ts
  have hinsert : ∑ u ∈ insert t ts, acc u = ∑ u ∈ ts, acc u := by
    apply Finset.sum_insert_of_eq_zero_if_notMem
    exact hout t
  have hother : ∑ u ∈ (insert t ts).erase t, Function.update acc t n u =
      ∑ u ∈ (insert t ts).erase t, acc u := by
    apply Finset.sum_congr rfl
    intro u hu
    exact Function.update_of_ne (Finset.ne_of_mem_erase hu) n acc
  have hold := Finset.add_sum_erase _ acc hmem
  have hnew := Finset.add_sum_erase _ (Function.update acc t n) hmem
  rw [Function.update_self, hother] at hnew
  refine ⟨_, ?_, insert t ts, ?_, rfl⟩
  · omega
  · intro u hu
    rw [Finset.mem_insert, not_or] at hu
    rw [Function.update_of_ne hu.1]
    exact hout u hu.2

end Interleaving
end S4LibLite
