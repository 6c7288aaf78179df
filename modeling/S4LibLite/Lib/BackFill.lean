import Mathlib.Data.Nat.Notation

/-!
# Arrays filled from the end

A program that prints a number backwards moves a pointer down an array and stores in front of
it. A store in front of the array's first cell is outside the array.

* `BackFill`, the array and the number of its cells that are still free;
* `put` and `puts`, one store, and the stores of a text;
* `Wrote`, what stores come to: the text stands where the array has room for it, and where it
  has not, one of them was outside. `Wrote.bind` puts stores one after another.
-/

namespace S4LibLite

/-- An array of `n` cells; those in front of `free` are not written yet. -/
structure BackFill (α : Type) (n : ℕ) where
  mem : Vector α n
  free : ℕ
  free_le : free ≤ n

namespace BackFill

variable {α : Type} {n : ℕ}

/-- The array before the first store. -/
def start (mem : Vector α n) : BackFill α n := ⟨mem, n, Nat.le_refl n⟩

/-- What has been written. -/
def text (b : BackFill α n) : List α := b.mem.toList.drop b.free

/-- A store in front of what has been written, `*--p = c`. -/
def put (c : α) (b : BackFill α n) : Option (BackFill α n) :=
  if h : 0 < b.free then
    have hlt : b.free - 1 < n := Nat.lt_of_lt_of_le (Nat.sub_one_lt_of_lt h) b.free_le
    some ⟨b.mem.set (b.free - 1) c hlt, b.free - 1, Nat.le_of_lt hlt⟩
  else none

/-- The stores of a whole text. -/
def puts (t : List α) (b : BackFill α n) : Option (BackFill α n) :=
  t.foldr (fun c b => b.bind (put c)) (some b)

/-- What stores of `t` in front of `b` come to. -/
def Wrote (t : List α) (b : BackFill α n) : Option (BackFill α n) → Prop
  | none => b.free < t.length
  | some b' => b'.text = t ++ b.text ∧ b'.free + t.length = b.free

/-! ## Rules -/

@[simp] theorem start_free (mem : Vector α n) : (start mem).free = n := rfl

@[simp] theorem start_text (mem : Vector α n) : (start mem).text = [] := by
  rw [text, start_free]
  exact List.drop_eq_nil_of_le (Nat.le_of_eq Vector.length_toList)

theorem Wrote.nil (b : BackFill α n) : Wrote [] b (some b) := ⟨rfl, rfl⟩

theorem wrote_put (c : α) (b : BackFill α n) : Wrote [c] b (b.put c) := by
  rw [put]
  by_cases h : 0 < b.free
  · have hlt : b.free - 1 < (b.mem.toList.set (b.free - 1) c).length := by
      rw [List.length_set, Vector.length_toList]
      exact Nat.lt_of_lt_of_le (Nat.sub_one_lt_of_lt h) b.free_le
    rw [dif_pos h]
    refine ⟨?_, Nat.sub_add_cancel h⟩
    rw [text, text, Vector.toList_set, List.drop_eq_getElem_cons hlt, List.getElem_set_self,
      Nat.sub_add_cancel h, List.drop_set_of_lt (Nat.sub_one_lt_of_lt h), List.singleton_append]
  · rw [dif_neg h]
    exact Nat.lt_succ_of_le (Nat.le_of_not_lt h)

/-- **One text of stores after another.** -/
theorem Wrote.bind {t s : List α} {b : BackFill α n} {r : Option (BackFill α n)}
    {f : BackFill α n → Option (BackFill α n)} (h : Wrote t b r)
    (hf : ∀ b', r = some b' → Wrote s b' (f b')) : Wrote (s ++ t) b (r.bind f) := by
  cases r with
  | none =>
    rw [Option.bind_none]
    rw [Wrote] at h ⊢
    rw [List.length_append]
    omega
  | some b' =>
    specialize hf b' rfl
    rw [Option.bind_some]
    obtain ⟨htext, hfree⟩ := h
    cases hr : f b' with
    | none =>
      rw [hr, Wrote] at hf
      rw [Wrote, List.length_append]
      omega
    | some b'' =>
      rw [hr] at hf
      obtain ⟨htext', hfree'⟩ := hf
      rw [Wrote, htext', htext, List.append_assoc, List.length_append]
      exact ⟨rfl, by omega⟩

theorem wrote_puts (t : List α) (b : BackFill α n) : Wrote t b (puts t b) := by
  induction t with
  | nil => exact .nil b
  | cons c t ih => exact ih.bind fun b' _ => wrote_put c b'

/-- All stores are inside the array where it has room for the text. -/
theorem Wrote.isSome_iff {t : List α} {b : BackFill α n} {r : Option (BackFill α n)}
    (h : Wrote t b r) : r.isSome ↔ t.length ≤ b.free := by
  cases r with
  | none =>
    rw [Wrote] at h
    simp only [Option.isSome_none, Bool.false_eq_true, false_iff]
    omega
  | some b' =>
    have hfree := h.2
    simp only [Option.isSome_some, true_iff]
    omega

/-- The text is there then. -/
theorem Wrote.text_eq {t : List α} {b b' : BackFill α n} (h : Wrote t b (some b')) :
    b'.text = t ++ b.text := h.1

end BackFill
end S4LibLite
