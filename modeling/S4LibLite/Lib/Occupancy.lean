import Mathlib.Algebra.BigOperators.Group.Finset.Basic
import Mathlib.Data.Fintype.BigOperators

/-!
# How many members of a family are in a state

`occupancy f a` counts the members of a finite family whose state is `a`. Changing the state
of one member moves it from one count to another; nothing else depends on which member it is.
-/

namespace S4LibLite
namespace Occupancy

variable {ι α : Type} [Fintype ι] [DecidableEq ι] [DecidableEq α]

/-- How many members are in the state `a`. -/
def occupancy (f : ι → α) (a : α) : ℕ := ∑ i, if f i = a then 1 else 0

omit [DecidableEq ι] in
/-- Everyone is in the state, or somebody is not. -/
theorem occupancy_eq_card_iff {f : ι → α} {a : α} :
    occupancy f a = Fintype.card ι ↔ ∀ i, f i = a := by
  unfold occupancy
  rw [← Finset.card_filter, ← Finset.card_univ, Finset.card_filter_eq_iff]
  exact ⟨fun h i => h i (Finset.mem_univ i), fun h i _ => h i⟩

omit [DecidableEq ι] in
theorem occupancy_le (f : ι → α) (a : α) : occupancy f a ≤ Fintype.card ι := by
  unfold occupancy
  rw [← Finset.card_filter]
  exact Finset.card_filter_le _ _

/-- One member goes over to the state `b`. -/
theorem occupancy_update (f : ι → α) (i : ι) (b a : α) :
    occupancy (Function.update f i b) a + (if f i = a then 1 else 0)
      = occupancy f a + if b = a then 1 else 0 := by
  unfold occupancy
  have hrest : ∀ j ∈ Finset.univ.erase i,
      (if Function.update f i b j = a then 1 else 0) = if f j = a then 1 else 0 := by
    intro j hj
    rw [Function.update_of_ne (Finset.ne_of_mem_erase hj)]
  rw [← Finset.add_sum_erase _ _ (Finset.mem_univ i), Finset.sum_congr rfl hrest,
    ← Finset.add_sum_erase _ (fun j => if f j = a then 1 else 0) (Finset.mem_univ i),
    Function.update_self]
  omega

end Occupancy
end S4LibLite
