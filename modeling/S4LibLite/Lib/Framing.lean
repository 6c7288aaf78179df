import Mathlib.Data.List.Flatten
import Mathlib.Data.List.Infix

/-!
# Greedy framing of a text by length-prefixed records

A `Framing` recognises, at the front of a text, one record and its length. The
greedy split of a text cuts records off its front as long as there is one:

* `records` / `rest`, the split itself, with `flatten_records` putting the text
  back together;
* `records_append`, the step every loop that consumes a text record by record
  takes;
* `isPrefix_records`, the split is the longest one: every list of records that
  spells a prefix of the text is a prefix of the greedy split.
-/

namespace S4LibLite

/-- A way to recognise the record a text begins with: its kind and its length. A
recognised record is not empty, lies inside the text, and is recognised by its
own bytes alone. -/
structure Framing (α κ : Type*) where
  first : List α → Option (κ × ℕ)
  first_pos : ∀ {l k n}, first l = some (k, n) → 0 < n
  first_le : ∀ {l k n}, first l = some (k, n) → n ≤ l.length
  first_take : ∀ {l k n}, first l = some (k, n) → ∀ r, first (l.take n ++ r) = some (k, n)

namespace Framing

variable {α κ : Type*} (F : Framing α κ)

/-! ## Records -/

/-- `r` is, as a whole, one record of kind `k`. -/
def IsRecord (k : κ) (r : List α) : Prop := F.first r = some (k, r.length)

variable {F}

theorem IsRecord.pos {k : κ} {r : List α} (h : F.IsRecord k r) : 0 < r.length := F.first_pos h

/-- A record is found in front of anything. -/
theorem IsRecord.first_append {k : κ} {r : List α} (h : F.IsRecord k r) (l : List α) :
    F.first (r ++ l) = some (k, r.length) := by
  have := F.first_take h l
  rwa [List.take_length] at this

/-- The record a text begins with, cut off. -/
theorem isRecord_take {l : List α} {k : κ} {n : ℕ} (h : F.first l = some (k, n)) :
    F.IsRecord k (l.take n) := by
  have hn := F.first_le h
  have := F.first_take h []
  rw [List.append_nil] at this
  rw [IsRecord, this, List.length_take, Nat.min_eq_left hn]

/-! ## The greedy split -/

variable (F)

/-- Cut records off the front of `l` while there is one: the records with their
kinds, and what is left. -/
def split (l : List α) : List (κ × List α) × List α :=
  match h : F.first l with
  | none => ([], l)
  | some (k, n) =>
    have : l.length - n < l.length := Nat.sub_lt
      (lt_of_lt_of_le (F.first_pos h) (F.first_le h)) (F.first_pos h)
    let s := split (l.drop n)
    ((k, l.take n) :: s.1, s.2)
termination_by l.length

/-- The records of the greedy split, in order. -/
def records (l : List α) : List (κ × List α) := (F.split l).1

/-- The bytes the greedy split leaves. -/
def rest (l : List α) : List α := (F.split l).2

variable {F}

/-- Where no record starts there are none. -/
theorem records_of_none {l : List α} (h : F.first l = none) : F.records l = [] := by
  rw [records, split]
  split <;> simp_all

theorem rest_of_none {l : List α} (h : F.first l = none) : F.rest l = l := by
  rw [rest, split]
  split <;> simp_all

/-- The first record, and those behind it. -/
theorem records_of_some {l : List α} {k : κ} {n : ℕ} (h : F.first l = some (k, n)) :
    F.records l = (k, l.take n) :: F.records (l.drop n) := by
  rw [records, split]
  split <;> simp_all [records]

/-- What is left behind the first is left of the others. -/
theorem rest_of_some {l : List α} {k : κ} {n : ℕ} (h : F.first l = some (k, n)) :
    F.rest l = F.rest (l.drop n) := by
  rw [rest, split]
  split <;> simp_all [rest]

/-- Induction along the greedy split. -/
theorem split_induction {motive : List α → Prop}
    (stop : ∀ l, F.first l = none → motive l)
    (cut : ∀ l k n, F.first l = some (k, n) → motive (l.drop n) → motive l) (l : List α) :
    motive l := by
  induction hl : l.length using Nat.strong_induction_on generalizing l with
  | _ m ih =>
    cases h : F.first l with
    | none => exact stop l h
    | some kn =>
      obtain ⟨k, n⟩ := kn
      have hpos := F.first_pos h
      have hle := F.first_le h
      exact cut l k n h (ih (l.drop n).length (by rw [List.length_drop]; omega) _ rfl)

/-- The split loses nothing. -/
theorem flatten_records (l : List α) : (F.records l).flatMap Prod.snd ++ F.rest l = l := by
  induction l using split_induction (F := F) with
  | stop l h => rw [records_of_none h, rest_of_none h, List.flatMap_nil, List.nil_append]
  | cut l k n h ih =>
    rw [records_of_some h, rest_of_some h, List.flatMap_cons, List.append_assoc, ih]
    exact List.take_append_drop n l

/-- What is cut off is a record. -/
theorem isRecord_of_mem_records {l : List α} {k : κ} {r : List α} (h : (k, r) ∈ F.records l) :
    F.IsRecord k r := by
  induction l using split_induction (F := F) with
  | stop l hl => rw [records_of_none hl] at h; exact absurd h List.not_mem_nil
  | cut l k' n hl ih =>
    rw [records_of_some hl] at h
    rcases List.mem_cons.mp h with he | h
    · obtain ⟨rfl, rfl⟩ := Prod.mk.inj he
      exact isRecord_take hl
    · exact ih h

/-! ## The split is the longest one -/

theorem records_append {k : κ} {r : List α} (h : F.IsRecord k r) (l : List α) :
    F.records (r ++ l) = (k, r) :: F.records l := by
  rw [records_of_some (h.first_append l), List.take_left, List.drop_left]

/-- Records in front of a text are cut off first, whatever follows them. -/
theorem records_flatMap_append {rs : List (κ × List α)} (h : ∀ x ∈ rs, F.IsRecord x.1 x.2)
    (l : List α) : F.records (rs.flatMap Prod.snd ++ l) = rs ++ F.records l := by
  induction rs with
  | nil => rfl
  | cons x rs ih =>
    rw [List.flatMap_cons, List.append_assoc, records_append (h x List.mem_cons_self),
      ih fun y hy => h y (List.mem_cons_of_mem x hy), List.cons_append]

/-- **Longest prefix.** Any list of records spelling a prefix of the text is a
prefix of the greedy split. -/
theorem isPrefix_records {rs : List (κ × List α)} (h : ∀ x ∈ rs, F.IsRecord x.1 x.2)
    {l : List α} (hl : rs.flatMap Prod.snd <+: l) : rs <+: F.records l := by
  obtain ⟨t, rfl⟩ := hl
  rw [records_flatMap_append h]
  exact List.prefix_append _ _

end Framing
end S4LibLite
