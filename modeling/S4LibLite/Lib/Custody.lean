import Mathlib.Data.Nat.Notation
import Mathlib.Tactic.ByContra

/-!
# Tokens over places

A marking says how many times each token lies at each place. A step leaves the tokens where
they are, takes one token along an edge, or brings in new tokens at the entry.

* `Advance.alone`, a token at one place only is, after a step, at that place or the next one;
* `Advance.tidy`, no step duplicates a token.
-/

namespace S4LibLite
namespace Custody

variable {P T : Type}

/-- How many times a token lies at a place. -/
abbrev Marking (P T : Type) := P → T → ℕ

/-- The token `x` lies once at `p`, and nowhere else. -/
def Alone (m : Marking P T) (x : T) (p : P) : Prop := m p x = 1 ∧ ∀ q, q ≠ p → m q x = 0

/-- The token `x` lies nowhere. -/
def Absent (m : Marking P T) (x : T) : Prop := ∀ p, m p x = 0

/-- No token is duplicated. -/
def Tidy (m : Marking P T) : Prop := ∀ x, Absent m x ∨ ∃ p, Alone m x p

/-- `m'` is `m` after the token `x` went from `p` to `q`. -/
structure Moved (m m' : Marking P T) (x : T) (p q : P) : Prop where
  ne : p ≠ q
  src : m' p x + 1 = m p x
  dst : m' q x = m q x + 1
  other : ∀ r, r ≠ p → r ≠ q → m' r x = m r x
  rest : ∀ y, y ≠ x → ∀ r, m' r y = m r y

/-- `m'` is `m` with the new tokens `xs` at `p`. -/
structure Minted (m m' : Marking P T) (xs : List T) (p : P) : Prop where
  absent : ∀ x ∈ xs, Absent m x
  alone : ∀ x ∈ xs, Alone m' x p
  rest : ∀ x, x ∉ xs → ∀ r, m' r x = m r x

/-- At most one token goes along an edge. -/
inductive Hop (next : P → P) (m m' : Marking P T) : Prop
  | stay (h : m' = m)
  | move (x : T) (p : P) (h : Moved m m' x p (next p))

/-- One step, where `next` are the edges and new tokens come in at `entry`. -/
inductive Advance (next : P → P) (entry : P) (m m' : Marking P T) : Prop
  | hop (h : Hop next m m')
  | mint (xs : List T) (h : Minted m m' xs entry)

variable {m m' : Marking P T} {x y : T} {p q r : P}

/-- A token lies only where it lies. -/
theorem Alone.eq_of_ne_zero (h : Alone m x p) (hq : m q x ≠ 0) : q = p := by
  by_contra hne
  exact hq (h.2 q hne)

theorem Alone.not_absent (h : Alone m x p) : ¬ Absent m x := by
  intro habsent
  have hp := habsent p
  rw [h.1] at hp
  exact Nat.one_ne_zero hp

/-! ## One token along an edge -/

/-- What a move does to the counts, one by one. -/
theorem Moved.of_counts [DecidableEq P] [DecidableEq T] (hne : p ≠ q)
    (h : ∀ r y, m' r y + (if p = r ∧ x = y then 1 else 0) =
      m r y + if q = r ∧ x = y then 1 else 0) : Moved m m' x p q where
  ne := hne
  src := by simpa [hne.symm] using h p x
  dst := by simpa [hne] using h q x
  other r hp hq := by simpa [hp.symm, hq.symm] using h r x
  rest y hy r := by simpa [hy.symm] using h r y

/-- What moves was where it moves from. -/
theorem Moved.alone_src (h : Moved m m' x p q) (ha : Alone m x r) : p = r := by
  apply ha.eq_of_ne_zero
  have := h.src
  omega

/-- What has moved lies where it moved to. -/
theorem Moved.alone_dst (h : Moved m m' x p q) (ha : Alone m x p) : Alone m' x q := by
  have hsrc := h.src
  have hdst := h.dst
  rw [ha.1] at hsrc
  rw [ha.2 q h.ne.symm] at hdst
  refine ⟨hdst, fun r hr => ?_⟩
  by_cases hrp : r = p
  · subst hrp
    omega
  · rw [h.other r hrp hr, ha.2 r hrp]

/-- The other tokens lie where they lay. -/
theorem Moved.alone_of_ne (h : Moved m m' x p q) (hy : y ≠ x) (ha : Alone m y r) :
    Alone m' y r := by
  refine ⟨?_, fun s hs => ?_⟩
  · rw [h.rest y hy, ha.1]
  · rw [h.rest y hy, ha.2 s hs]

/-- A token that lies nowhere does not come by a move. -/
theorem Moved.absent (h : Moved m m' x p q) (ha : Absent m y) : Absent m' y := by
  intro r
  by_cases hy : y = x
  · -- a token that goes somewhere was somewhere
    have hsrc := h.src
    rw [← hy, ha p] at hsrc
    omega
  · rw [h.rest y hy, ha r]

/-! ## One step -/

variable {next : P → P} {entry : P}

/-- After a hop a token lies where it lay or at the next place. -/
theorem Hop.alone (h : Hop next m m') (ha : Alone m x p) :
    ∃ p', (p' = p ∨ p' = next p) ∧ Alone m' x p' := by
  cases h with
  | stay h => exact ⟨p, Or.inl rfl, h ▸ ha⟩
  | move y q h =>
    by_cases hxy : x = y
    · subst hxy
      have hq := h.alone_src ha
      subst hq
      exact ⟨next q, Or.inr rfl, h.alone_dst ha⟩
    · exact ⟨p, Or.inl rfl, h.alone_of_ne hxy ha⟩

theorem Hop.absent (h : Hop next m m') (ha : Absent m x) : Absent m' x := by
  cases h with
  | stay h => exact h ▸ ha
  | move y q h => exact h.absent ha

/-- After a step a token lies where it lay or at the next place. -/
theorem Advance.alone (h : Advance next entry m m') (ha : Alone m x p) :
    ∃ p', (p' = p ∨ p' = next p) ∧ Alone m' x p' := by
  cases h with
  | hop h => exact h.alone ha
  | mint xs h =>
    have hx : x ∉ xs := fun hx => ha.not_absent (h.absent x hx)
    refine ⟨p, Or.inl rfl, ?_, fun q hq => ?_⟩
    · rw [h.rest x hx, ha.1]
    · rw [h.rest x hx, ha.2 q hq]

/-- **No step duplicates a token.** -/
theorem Advance.tidy (h : Advance next entry m m') (ht : Tidy m) : Tidy m' := by
  intro x
  rcases ht x with habsent | ⟨p, ha⟩
  · cases h with
    | hop h => exact Or.inl (h.absent habsent)
    | mint xs h =>
      by_cases hx : x ∈ xs
      · exact Or.inr ⟨entry, h.alone x hx⟩
      · refine Or.inl fun r => ?_
        rw [h.rest x hx, habsent r]
  · apply Or.inr
    rcases h.alone ha with ⟨p', _, ha'⟩
    exact ⟨p', ha'⟩

end Custody
end S4LibLite
