import S4LibLite.Lib.Replacement

/-!
# Splitting a text at the occurrences of a word

A text is read from the left: what stands in front of the first occurrence of a word is a
piece, and what stands behind it is read in the same way.

* `Split`, a text, its pieces, and the rest behind the last occurrence;
* `Split.intercalate` and `Split.absent`, the pieces and the rest make up the text and do not
  hold the word;
* `split_intercalate`, texts joined by a character they do not hold are the pieces;
* `before` and `after`, the two sides of the first occurrence of a character.
-/

namespace S4LibLite
namespace Splitting

open Replacement

variable {α : Type}

/-! ## Occurrences -/

theorem occursAt_append_right {w p : List α} {i : ℕ} (h : OccursAt w p i) (t : List α) :
    OccursAt w (p ++ t) i := by
  unfold OccursAt at h ⊢
  rw [List.drop_append]
  exact h.trans (List.prefix_append _ _)

/-- A word is absent where it is no part of the text. -/
theorem absent_iff {w s : List α} : Absent w s ↔ ¬ w <:+: s := by
  constructor
  · rintro h ⟨p, t, hs⟩
    refine h p.length ?_ ?_
    · rw [← hs]
      simp
    · rw [← hs, List.append_assoc]
      exact occursAt_append p w t
  · intro h i hi hocc
    obtain ⟨p, t, hs, -⟩ := hocc.split hi
    exact h ⟨p, t, by rw [hs, List.append_assoc]⟩

/-- What stands in front of the first occurrence does not hold the word. -/
theorem absent_of_first {w p s : List α} (hne : w ≠ [])
    (hfirst : ∀ j < p.length, ¬ OccursAt w (p ++ s) j) : Absent w p := by
  intro i hi hocc
  rcases Nat.lt_or_eq_of_le hi with hlt | heq
  · exact hfirst i hlt (occursAt_append_right hocc s)
  · rw [OccursAt, heq, List.drop_length, List.prefix_nil] at hocc
    exact hne hocc

/-! ## Pieces -/

/-- The text is made up of pieces, each in front of an occurrence of `w` that is the first one
from there on, and a rest without `w`. -/
inductive Split (w : List α) : List α → List (List α) → List α → Prop
  | rest {s : List α} (h : Absent w s) : Split w s [] s
  | piece {p s r : List α} {ps : List (List α)}
    (hfirst : ∀ j < p.length, ¬ OccursAt w (p ++ (w ++ s)) j) (h : Split w s ps r) :
    Split w (p ++ (w ++ s)) (p :: ps) r

variable {w s r : List α} {ps : List (List α)}

/-- The pieces and the rest, joined by the word. -/
theorem Split.intercalate (h : Split w s ps r) : w.intercalate (ps ++ [r]) = s := by
  induction h with
  | rest => exact List.intercalate_singleton
  | piece _ _ ih =>
    rw [List.cons_append, List.intercalate_cons_of_ne_nil (by simp), ih, List.append_assoc]

/-- Joined with nothing behind the last of them, the pieces end on the word. -/
theorem intercalate_append_nil (hps : ps ≠ []) :
    w.intercalate (ps ++ [[]]) = w.intercalate ps ++ w := by
  induction ps with
  | nil => exact absurd rfl hps
  | cons p ps ih =>
    rw [List.cons_append, List.intercalate_cons_of_ne_nil (by simp)]
    cases ps with
    | nil => simp
    | cons q ps =>
      rw [ih (List.cons_ne_nil q ps), List.intercalate_cons_of_ne_nil (List.cons_ne_nil q ps)]
      simp only [List.append_assoc]

/-- Neither the parts nor the rest have the separator in them. -/
theorem Split.absent (hne : w ≠ []) (h : Split w s ps r) :
    (∀ p ∈ ps, Absent w p) ∧ Absent w r := by
  induction h with
  | rest habsent => exact ⟨List.forall_mem_nil _, habsent⟩
  | piece hfirst _ ih =>
    exact ⟨List.forall_mem_cons.mpr ⟨absent_of_first hne hfirst, ih.1⟩, ih.2⟩

/-- The rest ends the text. -/
theorem Split.rest_suffix (h : Split w s ps r) : r <:+ s := by
  induction h with
  | rest => exact List.suffix_refl _
  | @piece p s _ _ _ _ ih =>
    exact ih.trans ((List.suffix_append w s).trans (List.suffix_append p (w ++ s)))

/-- There are no more pieces than characters. -/
theorem Split.length_le (hne : w ≠ []) (h : Split w s ps r) : ps.length ≤ s.length := by
  have hpos := List.length_pos_of_ne_nil hne
  induction h with
  | rest => exact Nat.zero_le _
  | piece _ _ ih =>
    rw [List.length_cons, List.length_append, List.length_append]
    omega

/-- **Every text has pieces.** -/
theorem split_exists [DecidableEq α] (hne : w ≠ []) (s : List α) : ∃ ps r, Split w s ps r := by
  induction hn : s.length using Nat.strong_induction_on generalizing s with
  | _ n ih =>
    cases hfind : findFrom w s 0 with
    | none => exact ⟨[], s, .rest fun i hi => findFrom_eq_none_iff.mp hfind i (Nat.zero_le i) hi⟩
    | some i =>
      obtain ⟨-, hi, hocc, hfirst⟩ := findFrom_eq_some_iff.mp hfind
      obtain ⟨p, t, rfl, rfl⟩ := hocc.split hi
      have hpos := List.length_pos_of_ne_nil hne
      rw [List.length_append, List.length_append] at hn
      obtain ⟨ps, r, hsplit⟩ := ih t.length (by omega) t rfl
      exact ⟨p :: ps, r, .piece (fun j hj => hfirst j (Nat.zero_le j) hj) hsplit⟩

/-! ## Words of one character -/

/-- A separator of one element. -/
theorem occursAt_singleton {c : α} {i : ℕ} : OccursAt [c] s i ↔ s[i]? = some c := by
  rw [OccursAt, ← List.head?_drop]
  cases s.drop i with
  | nil => simp
  | cons a t => simp [eq_comm]

theorem absent_singleton {c : α} : Absent [c] s ↔ c ∉ s := by
  rw [absent_iff, List.singleton_infix_iff]

/-- **Texts joined by a character** that none of them holds. -/
theorem split_intercalate {c : α} (h : ∀ p ∈ ps, c ∉ p) (hr : c ∉ r) :
    Split [c] ([c].intercalate (ps ++ [r])) ps r := by
  induction ps with
  | nil =>
    rw [List.nil_append, List.intercalate_singleton]
    exact .rest (absent_singleton.mpr hr)
  | cons p ps ih =>
    obtain ⟨hp, hps⟩ := List.forall_mem_cons.mp h
    rw [List.cons_append, List.intercalate_cons_of_ne_nil (by simp), List.append_assoc]
    refine .piece (fun j hj hocc => ?_) (ih hps)
    rw [occursAt_singleton, List.getElem?_append_left hj] at hocc
    exact hp (List.mem_of_getElem? hocc)

/-! ## Cutting at a character -/

section Cutting

variable [DecidableEq α] {c : α}

/-- What stands in front of the first `c`, or the whole text. -/
def before (c : α) (s : List α) : List α := s.takeWhile (· ≠ c)

/-- What stands behind the first `c`, or nothing. -/
def after (c : α) (s : List α) : List α := (s.dropWhile (· ≠ c)).tail

@[simp] theorem before_nil : before c [] = [] := rfl

@[simp] theorem after_nil : after c [] = [] := rfl

@[simp] theorem before_self (s : List α) : before c (c :: s) = [] :=
  List.takeWhile_cons_of_neg (by simp)

@[simp] theorem after_self (s : List α) : after c (c :: s) = s := by
  rw [after, List.dropWhile_cons_of_neg (by simp), List.tail_cons]

theorem ne_of_notMem {p : List α} (h : c ∉ p) : ∀ a ∈ p, decide (a ≠ c) = true := by
  rintro a ha
  exact decide_eq_true fun heq => h (heq ▸ ha)

/-- What has no separator in it is skipped. -/
theorem before_append {p : List α} (h : c ∉ p) (s : List α) :
    before c (p ++ s) = p ++ before c s :=
  List.takeWhile_append_of_pos (ne_of_notMem h)

/-- Also for what stands behind the first separator. -/
theorem after_append {p : List α} (h : c ∉ p) (s : List α) : after c (p ++ s) = after c s := by
  rw [after, List.dropWhile_append_of_pos (ne_of_notMem h)]
  rfl

/-- The two sides of an occurrence that is the first one. -/
theorem before_cut {p : List α} (h : c ∉ p) (t : List α) : before c (p ++ c :: t) = p := by
  rw [before_append h, before_self, List.append_nil]

theorem after_cut {p : List α} (h : c ∉ p) (t : List α) : after c (p ++ c :: t) = t := by
  rw [after_append h, after_self]

theorem before_of_notMem (h : c ∉ s) : before c s = s := by
  have happend := before_append h []
  rwa [List.append_nil, before_nil, List.append_nil] at happend

theorem after_of_notMem (h : c ∉ s) : after c s = [] := by
  have happend := after_append h []
  rwa [List.append_nil, after_nil] at happend

/-- Nothing stands in front of the first `c` of an empty text, or of one that begins with it. -/
theorem before_eq_nil_iff : before c s = [] ↔ s = [] ∨ s = c :: after c s := by
  constructor
  · intro h
    by_cases hmem : c ∈ s
    · obtain ⟨p, t, rfl, hp⟩ := List.eq_append_cons_of_mem hmem
      rw [before_cut hp] at h
      rw [h, List.nil_append, after_self]
      exact Or.inr rfl
    · rw [before_of_notMem hmem] at h
      exact Or.inl h
  · rintro (rfl | h)
    · exact before_nil
    · rw [h, before_self]

/-- The search for a character. -/
theorem findFrom_cut {p : List α} (h : c ∉ p) (t : List α) :
    findFrom [c] (p ++ c :: t) 0 = some p.length := by
  refine findFrom_eq_some_iff.mpr ⟨Nat.zero_le _, by simp, occursAt_append p [c] t,
    fun j _ hj hocc => ?_⟩
  rw [occursAt_singleton, List.getElem?_append_left hj] at hocc
  exact h (List.mem_of_getElem? hocc)

/-- A search for what there is not. -/
theorem findFrom_of_notMem (h : c ∉ s) : findFrom [c] s 0 = none :=
  findFrom_eq_none_iff.mpr fun i _ hi => absent_singleton.mpr h i hi

/-- The part in front of the place that was found. -/
theorem elim_take : (findFrom [c] s 0).elim s s.take = before c s := by
  by_cases hmem : c ∈ s
  · obtain ⟨p, t, rfl, hp⟩ := List.eq_append_cons_of_mem hmem
    rw [findFrom_cut hp, before_cut hp, Option.elim_some, List.take_left]
  · rw [findFrom_of_notMem hmem, before_of_notMem hmem, Option.elim_none]

theorem take_getD : s.take ((findFrom [c] s 0).getD s.length) = before c s := by
  rw [← elim_take]
  cases findFrom [c] s 0 with
  | none => exact List.take_length
  | some i => rfl

/-- The part behind it. -/
theorem elim_drop : (findFrom [c] s 0).elim [] (fun i => s.drop (i + 1)) = after c s := by
  by_cases hmem : c ∈ s
  · obtain ⟨p, t, rfl, hp⟩ := List.eq_append_cons_of_mem hmem
    rw [findFrom_cut hp, after_cut hp, Option.elim_some, ← List.drop_drop, List.drop_left,
      List.drop_one, List.tail_cons]
  · rw [findFrom_of_notMem hmem, after_of_notMem hmem, Option.elim_none]

end Cutting

end Splitting
end S4LibLite
