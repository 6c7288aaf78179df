import Mathlib.Data.List.Infix
import Mathlib.Data.Nat.Notation

/-!
# Replacing the occurrences of a word

A text is read from the left: up to the first occurrence of a word it stays as it is, the
occurrence is replaced, and the rest is read in the same way, without the text put in.

* `findFrom_eq_some_iff` and `findFrom_append`, the search for a word from a position on;
* `Replaced`, a text and its copy with the leftmost occurrences replaced that do not overlap;
* `Replaced.unique`, there is one such copy.
-/

namespace S4LibLite
namespace Replacement

variable {α : Type}

/-! ## Occurrences -/

/-- The word `w` stands at position `i` of `s`. -/
def OccursAt (w s : List α) (i : ℕ) : Prop := w <+: s.drop i

/-- It stands nowhere. -/
def Absent (w s : List α) : Prop := ∀ i ≤ s.length, ¬ OccursAt w s i

theorem occursAt_append (p w s : List α) : OccursAt w (p ++ (w ++ s)) p.length := by
  unfold OccursAt
  rw [List.drop_left]
  exact List.prefix_append w s

/-- Behind a part that is passed over, positions are counted from its end. -/
theorem occursAt_append_left (p w s : List α) (i : ℕ) :
    OccursAt w (p ++ s) (p.length + i) ↔ OccursAt w s i := by
  unfold OccursAt
  rw [← List.drop_drop, List.drop_left]

/-- A text around an occurrence. -/
theorem OccursAt.split {w s : List α} {i : ℕ} (h : OccursAt w s i) (hi : i ≤ s.length) :
    ∃ p t, s = p ++ (w ++ t) ∧ p.length = i := by
  obtain ⟨t, ht⟩ := h
  refine ⟨s.take i, t, ?_, List.length_take_of_le hi⟩
  rw [ht, List.take_append_drop]

variable [DecidableEq α]

instance (w s : List α) (i : ℕ) : Decidable (OccursAt w s i) :=
  inferInstanceAs (Decidable (w <+: s.drop i))

/-- The first position from `pos` on where `w` stands. -/
def findFrom (w s : List α) (pos : ℕ) : Option ℕ :=
  (List.range (s.length + 1)).find? fun i => decide (pos ≤ i ∧ OccursAt w s i)

theorem findFrom_eq_some_iff {w s : List α} {pos i : ℕ} :
    findFrom w s pos = some i ↔ pos ≤ i ∧ i ≤ s.length ∧ OccursAt w s i ∧
      ∀ j, pos ≤ j → j < i → ¬ OccursAt w s j := by
  unfold findFrom
  rw [List.find?_range_eq_some]
  simp only [decide_eq_true_eq, List.mem_range, Bool.not_eq_true', decide_eq_false_iff_not,
    not_and]
  constructor
  · intro h
    exact ⟨h.1.1, Nat.le_of_lt_succ h.2.1, h.1.2, fun j hj hlt => h.2.2 j hlt hj⟩
  · intro h
    exact ⟨⟨h.1, h.2.2.1⟩, Nat.lt_succ_of_le h.2.1, fun j hlt hj => h.2.2.2 j hj hlt⟩

theorem findFrom_eq_none_iff {w s : List α} {pos : ℕ} :
    findFrom w s pos = none ↔ ∀ i, pos ≤ i → i ≤ s.length → ¬ OccursAt w s i := by
  unfold findFrom
  rw [List.find?_range_eq_none]
  simp only [Bool.not_eq_true', decide_eq_false_iff_not, not_and]
  constructor
  · intro h i hi hle
    exact h i (Nat.lt_succ_of_le hle) hi
  · intro h i hlt hi
    exact h i hi (Nat.le_of_lt_succ hlt)

/-- The search from the end of `p` on does not look at `p`. -/
theorem findFrom_append (p w s : List α) :
    findFrom w (p ++ s) p.length = (findFrom w s 0).map (p.length + ·) := by
  cases h : findFrom w s 0 with
  | none =>
    rw [findFrom_eq_none_iff] at h
    rw [Option.map_none, findFrom_eq_none_iff]
    intro i hi hle hocc
    obtain ⟨k, rfl⟩ := Nat.exists_eq_add_of_le hi
    rw [List.length_append] at hle
    exact h k (Nat.zero_le k) (by omega) ((occursAt_append_left p w s k).mp hocc)
  | some i =>
    rw [findFrom_eq_some_iff] at h
    rw [Option.map_some, findFrom_eq_some_iff, List.length_append]
    refine ⟨Nat.le_add_right _ _, by omega, (occursAt_append_left p w s i).mpr h.2.2.1, ?_⟩
    intro j hj hlt hocc
    obtain ⟨k, rfl⟩ := Nat.exists_eq_add_of_le hj
    exact h.2.2.2 k (Nat.zero_le k) (by omega) ((occursAt_append_left p w s k).mp hocc)

/-! ## Replacement -/

omit [DecidableEq α]

/-- The second text is the first one with the leftmost occurrences of `w` that do not overlap
replaced by `n`. -/
inductive Replaced (w n : List α) : List α → List α → Prop
  | rest {s : List α} (h : Absent w s) : Replaced w n s s
  | occurrence {p s t : List α} (hfirst : ∀ j < p.length, ¬ OccursAt w (p ++ (w ++ s)) j)
    (h : Replaced w n s t) : Replaced w n (p ++ (w ++ s)) (p ++ (n ++ t))

/-- The first occurrence is at one place. -/
theorem first_unique {w p s p' s' : List α} (heq : p ++ (w ++ s) = p' ++ (w ++ s'))
    (h : ∀ j < p.length, ¬ OccursAt w (p ++ (w ++ s)) j)
    (h' : ∀ j < p'.length, ¬ OccursAt w (p' ++ (w ++ s')) j) : p = p' ∧ s = s' := by
  have hle : p.length ≤ p'.length := by
    by_contra hlt
    exact h p'.length (by omega) (heq ▸ occursAt_append p' w s')
  have hle' : p'.length ≤ p.length := by
    by_contra hlt
    exact h' p.length (by omega) (heq ▸ occursAt_append p w s)
  obtain ⟨hp, hs⟩ := List.append_inj heq (Nat.le_antisymm hle hle')
  exact ⟨hp, List.append_cancel_left hs⟩

/-- **One replacement.** -/
theorem Replaced.unique {w n s t t' : List α} (h : Replaced w n s t) (h' : Replaced w n s t') :
    t' = t := by
  induction h generalizing t' with
  | rest habsent =>
    cases h' with
    | rest => rfl
    | @occurrence p s =>
      exact absurd (occursAt_append p w s) (habsent p.length (by simp))
  | @occurrence p s t hfirst _ ih =>
    generalize htext : p ++ (w ++ s) = text at h'
    cases h' with
    | rest habsent =>
      rw [← htext] at habsent
      exact absurd (occursAt_append p w s) (habsent p.length (by simp))
    | @occurrence p' s' t₁ hfirst' hrest =>
      obtain ⟨rfl, rfl⟩ := first_unique htext hfirst hfirst'
      rw [ih hrest]

end Replacement
end S4LibLite
