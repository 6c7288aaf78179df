import Mathlib.Algebra.Order.Field.Basic
import Mathlib.Algebra.Ring.Parity
import Mathlib.Order.Monotone.Basic
import Mathlib.Tactic.Linarith

/-!
# The nearest member of a growing sequence

A format of numbers is a sequence that grows with the index, up to a last index that also stands for
all that is larger. Halfway between a member and the next one lies a boundary, and a number is
rounded to the member between whose boundaries it lies, a boundary itself to the even index.

* `RoundsTo`, a number is rounded to the member with an index;
* `RoundsTo.unique`, there is only one such index;
* `RoundsTo.of_min`, rounding in a sequence without end first;
* `RoundsTo.congr`, numbers without a boundary between them are rounded to the same index;
* `RoundsTo.abs_sub_le`, how far a number is moved.
-/

namespace S4LibLite
namespace Rounding

section Nearest

variable {K : Type*} [Field K] [LinearOrder K] [IsStrictOrderedRing K]
variable {val : ℕ → K} {top j k : ℕ} {x y : K}

/-- Halfway between a member and the next one. -/
def boundary (val : ℕ → K) (k : ℕ) : K := (val k + val (k + 1)) / 2

/-- `x` is not below the boundaries under `k`. -/
def NotBelow (val : ℕ → K) (x : K) (k : ℕ) : Prop :=
  ∀ j, j + 1 = k → boundary val j < x ∨ boundary val j = x ∧ Even k

/-- `x` is not above the boundary over `k`. -/
def NotAbove (val : ℕ → K) (x : K) (k : ℕ) : Prop :=
  x < boundary val k ∨ x = boundary val k ∧ Even k

/-- `x` is rounded to the member `k`, of two that are equally close to the one with an even index,
and to the last one where it lies beyond. -/
structure RoundsTo (val : ℕ → K) (top : ℕ) (x : K) (k : ℕ) : Prop where
  le_top : k ≤ top
  notBelow : NotBelow val x k
  notAbove : k < top → NotAbove val x k

theorem boundary_strictMono (hval : StrictMono val) : StrictMono (boundary val) := fun j k h => by
  have h₁ := hval h
  have h₂ := hval (Nat.succ_lt_succ h)
  rw [boundary, boundary]
  linarith

theorem lt_boundary (hval : StrictMono val) (k : ℕ) : val k < boundary val k := by
  have := hval k.lt_succ_self
  rw [boundary]
  linarith

theorem boundary_lt (hval : StrictMono val) (k : ℕ) : boundary val k < val (k + 1) := by
  have := hval k.lt_succ_self
  rw [boundary]
  linarith

omit [IsStrictOrderedRing K] in
theorem NotBelow.boundary_le (h : NotBelow val x (k + 1)) : boundary val k ≤ x := by
  rcases h k rfl with h | h
  · exact h.le
  · exact h.1.le

omit [IsStrictOrderedRing K] in
theorem NotAbove.le_boundary (h : NotAbove val x k) : x ≤ boundary val k := by
  rcases h with h | h
  · exact h.le
  · exact h.1.le

/-- A number that is no smaller than the member itself. -/
theorem NotBelow.of_le (hval : StrictMono val) (h : val k ≤ x) : NotBelow val x k := by
  rintro j rfl
  exact Or.inl ((boundary_lt hval j).trans_le h)

omit [IsStrictOrderedRing K] in
/-- A number that lies over a boundary, if only just. -/
theorem NotBelow.of_lt (h : boundary val k < x) : NotBelow val x (k + 1) := by
  intro j hj
  obtain rfl := Nat.succ.inj hj
  exact Or.inl h

/-- A number below the next member. -/
theorem NotAbove.of_le (hval : StrictMono val) (h : x ≤ val k) : NotAbove val x k :=
  Or.inl (h.trans_lt (lt_boundary hval k))

namespace RoundsTo

/-- The index where rounding in a sequence without end has come to. -/
theorem of_min (hval : StrictMono val) (hlow : NotBelow val x k) (hhigh : NotAbove val x k)
    (top : ℕ) : RoundsTo val top x (min top k) := by
  rcases le_or_gt k top with hk | hk
  · rw [min_eq_right hk]
    exact ⟨hk, hlow, fun _ => hhigh⟩
  · rw [min_eq_left hk.le]
    obtain ⟨i, rfl⟩ : ∃ i, k = i + 1 := ⟨k - 1, by omega⟩
    refine ⟨le_rfl, ?_, fun h => absurd h (lt_irrefl _)⟩
    rintro j rfl
    exact Or.inl ((boundary_strictMono hval (Nat.lt_of_succ_le (Nat.le_of_lt_succ hk))).trans_le
      hlow.boundary_le)

/-- A number beyond the last boundary. -/
theorem of_top_le (hval : StrictMono val) (h : val top ≤ x) : RoundsTo val top x top :=
  ⟨le_rfl, .of_le hval h, fun h => absurd h (lt_irrefl _)⟩

theorem not_lt (hval : StrictMono val) (hj : RoundsTo val top x j) (hk : RoundsTo val top x k) :
    ¬ j < k := by
  intro hlt
  obtain ⟨i, rfl⟩ : ∃ i, k = i + 1 := ⟨k - 1, by omega⟩
  have habove := hj.notAbove (hlt.trans_le hk.le_top)
  have hle : boundary val j ≤ boundary val i :=
    (boundary_strictMono hval).monotone (Nat.le_of_lt_succ hlt)
  rcases habove with h | ⟨heq, heven⟩
  · exact absurd (h.trans_le (hle.trans hk.notBelow.boundary_le)) (lt_irrefl _)
  · rcases hk.notBelow i rfl with h | ⟨h, heven'⟩
    · rw [heq] at h
      exact absurd (hle.trans_lt h) (lt_irrefl _)
    · -- the number is the boundary between two indices that are both even
      have : j = i := (boundary_strictMono hval).injective (heq.symm.trans h.symm)
      rw [this] at heven
      exact absurd heven' (Nat.even_add_one.not.mpr (not_not.mpr heven))

/-- **Rounding** has one result. -/
theorem unique (hval : StrictMono val) (hj : RoundsTo val top x j) (hk : RoundsTo val top x k) :
    j = k :=
  le_antisymm (Nat.le_of_not_lt (hk.not_lt hval hj)) (Nat.le_of_not_lt (hj.not_lt hval hk))

omit [IsStrictOrderedRing K] in
/-- Two numbers between `a` and `b`, where there is no boundary. -/
theorem congr (h : RoundsTo val top x k) {a b : K} (hax : a < x) (hxb : x < b) (hay : a < y)
    (hyb : y < b) (hgap : ∀ j < top, boundary val j ≤ a ∨ b ≤ boundary val j) :
    RoundsTo val top y k := by
  refine ⟨h.le_top, ?_, fun hk => Or.inl ?_⟩
  · rintro j rfl
    refine Or.inl (((hgap j h.le_top).resolve_right fun hb => ?_).trans_lt hay)
    exact absurd (hb.trans h.notBelow.boundary_le) (not_le_of_gt hxb)
  · refine hyb.trans_le ((hgap k hk).resolve_left fun ha => ?_)
    exact absurd ((h.notAbove hk).le_boundary.trans ha) (not_le_of_gt hax)

/-- A member is rounded to itself. -/
theorem self (hval : StrictMono val) (hk : k ≤ top) : RoundsTo val top (val k) k :=
  ⟨hk, .of_le hval le_rfl, fun _ => .of_le hval le_rfl⟩

/-- **How far** a number is moved: no more than halfway to the neighbours of its member. -/
theorem abs_sub_le (h : RoundsTo val top x (k + 1)) (hk : k + 1 < top) {d : K}
    (hleft : val (k + 1) - val k ≤ d) (hright : val (k + 2) - val (k + 1) ≤ d) :
    |x - val (k + 1)| ≤ d / 2 := by
  have hlow := h.notBelow.boundary_le
  have hhigh := (h.notAbove hk).le_boundary
  rw [boundary] at hlow hhigh
  rw [abs_le]
  constructor <;> linarith

end RoundsTo

end Nearest

end Rounding
end S4LibLite
