import S4LibLite.Common.CStr
import S4LibLite.Lib.Replacement

/-!
# Replacing in strings (`s4string.cpp`)

`string_replace` searches the string it edits. The turns of its loop are counted: the model
answers `none` where the loop has not ended yet.

* `replaceLoop_spec`, a turn has the text behind `pos` as it was at first;
* `stringReplace_spec`, the loop ends, with the leftmost occurrences replaced;
* `stringReplace_nil`, on an empty `oldValue` it does not.
-/

namespace S4LibLite

open Replacement

/-- `str.replace(pos, n, newValue)`. -/
def replaceAt (str : Bytes) (pos n : ℕ) (newValue : Bytes) : Bytes :=
  str.take pos ++ newValue ++ str.drop (pos + n)

/-- The loop of `string_replace`, from a search at `pos` on. -/
def replaceLoop (oldValue newValue : Bytes) : ℕ → ℕ → Bytes → Option Bytes
  | 0, _, _ => none
  | fuel + 1, pos, str =>
    match findFrom oldValue str pos with
    | none => some str
    | some pos =>
      replaceLoop oldValue newValue fuel (pos + newValue.length)
        (replaceAt str pos oldValue.length newValue)

/-- `string_replace`, on the string it is given. -/
def stringReplace (fuel : ℕ) (oldValue newValue str : Bytes) : Option Bytes :=
  replaceLoop oldValue newValue fuel 0 str

/-- `string_replace`, on a copy of the string. -/
def stringReplaceCopy (fuel : ℕ) (oldValue newValue str : Bytes) : Option Bytes :=
  let rslt := str
  stringReplace fuel oldValue newValue rslt

/-! ## The loop -/

theorem replaceAt_append (p w s n : Bytes) : replaceAt (p ++ (w ++ s)) p.length w.length n
    = p ++ n ++ s := by
  unfold replaceAt
  rw [List.take_left, ← List.drop_drop, List.drop_left, List.drop_left]

/-- A turn that finds an occurrence behind `done`. -/
theorem replaceLoop_found {oldValue newValue done p s : Bytes} (fuel : ℕ)
    (hfirst : ∀ j < p.length, ¬ OccursAt oldValue (p ++ (oldValue ++ s)) j) :
    replaceLoop oldValue newValue (fuel + 1) done.length (done ++ (p ++ (oldValue ++ s)))
      = replaceLoop oldValue newValue fuel (done ++ (p ++ newValue)).length
        (done ++ (p ++ newValue) ++ s) := by
  have hfind : findFrom oldValue (p ++ (oldValue ++ s)) 0 = some p.length :=
    findFrom_eq_some_iff.mpr ⟨Nat.zero_le _, by simp, occursAt_append p oldValue s,
      fun j _ hj => hfirst j hj⟩
  have hpos : done.length + p.length + newValue.length = (done ++ (p ++ newValue)).length := by
    rw [List.length_append, List.length_append, Nat.add_assoc]
  have hedit : replaceAt (done ++ (p ++ (oldValue ++ s))) (done.length + p.length)
      oldValue.length newValue = done ++ (p ++ newValue) ++ s := by
    rw [← List.append_assoc done p, ← List.length_append, replaceAt_append]
    simp only [List.append_assoc]
  rw [replaceLoop, findFrom_append, hfind, Option.map_some]
  simp only
  rw [hedit, hpos]

/-- A turn that finds none. -/
theorem replaceLoop_absent {oldValue s : Bytes} (newValue done : Bytes) (fuel : ℕ)
    (h : Absent oldValue s) :
    replaceLoop oldValue newValue (fuel + 1) done.length (done ++ s) = some (done ++ s) := by
  have hfind : findFrom oldValue s 0 = none :=
    findFrom_eq_none_iff.mpr fun i _ hi => h i hi
  rw [replaceLoop, findFrom_append, hfind, Option.map_none]

/-- **The loop.** What is in front of `pos` is done; what is behind it is a rest of the text
as it was given, and has a replacement, which the loop puts behind what is done. -/
theorem replaceLoop_spec {oldValue : Bytes} (hne : oldValue ≠ []) (newValue s : Bytes) :
    ∃ t, Replaced oldValue newValue s t ∧ ∀ done fuel, s.length < fuel →
      replaceLoop oldValue newValue fuel done.length (done ++ s) = some (done ++ t) := by
  -- an occurrence takes characters from the rest
  induction hn : s.length using Nat.strong_induction_on generalizing s with
  | _ n ih =>
    cases hfind : findFrom oldValue s 0 with
    | none =>
      have habsent : Absent oldValue s := fun i hi =>
        findFrom_eq_none_iff.mp hfind i (Nat.zero_le i) hi
      refine ⟨s, Replaced.rest habsent, fun done fuel hfuel => ?_⟩
      obtain ⟨fuel, rfl⟩ := Nat.exists_eq_add_of_lt hfuel
      exact replaceLoop_absent newValue done _ habsent
    | some i =>
      obtain ⟨-, hi, hocc, hfirst⟩ := findFrom_eq_some_iff.mp hfind
      obtain ⟨p, rest, rfl, rfl⟩ := hocc.split hi
      have hfirst' : ∀ j < p.length, ¬ OccursAt oldValue (p ++ (oldValue ++ rest)) j :=
        fun j hj => hfirst j (Nat.zero_le j) hj
      have hpos := List.length_pos_of_ne_nil hne
      rw [List.length_append, List.length_append] at hn
      obtain ⟨t, ht, hloop⟩ := ih rest.length (by omega) rest rfl
      refine ⟨p ++ (newValue ++ t), Replaced.occurrence hfirst' ht, fun done fuel hfuel => ?_⟩
      obtain ⟨fuel, rfl⟩ : ∃ k, fuel = k + 1 := ⟨fuel - 1, by omega⟩
      rw [replaceLoop_found fuel hfirst', hloop _ fuel (by omega)]
      simp only [List.append_assoc]

/-! ## The function -/

/-- **`string_replace` replaces the leftmost occurrences that do not overlap**, of the text as
it was given, and no more: with a word to look for it ends after at most one turn more than
the text has characters, and there is one such replacement. Both overloads return it. -/
theorem stringReplace_spec {oldValue : Bytes} (hne : oldValue ≠ []) (newValue str : Bytes) :
    ∃ rslt, Replaced oldValue newValue str rslt ∧
      (∀ t, Replaced oldValue newValue str t → t = rslt) ∧
      ∀ fuel, str.length < fuel →
        stringReplace fuel oldValue newValue str = some rslt ∧
        stringReplaceCopy fuel oldValue newValue str = some rslt := by
  obtain ⟨rslt, hrslt, hloop⟩ := replaceLoop_spec hne newValue str
  have hrun : ∀ fuel, str.length < fuel →
      stringReplace fuel oldValue newValue str = some rslt := fun fuel hfuel => hloop [] fuel hfuel
  exact ⟨rslt, hrslt, fun t ht => hrslt.unique ht, fun fuel hfuel => ⟨hrun fuel hfuel,
    hrun fuel hfuel⟩⟩

/-- A word that overlaps itself, and is put in again. -/
theorem stringReplace_spec_aa :
    Replaced (lit "aa") (lit "aaa") (lit "aaaab") (lit "aaaaaab") := by
  obtain ⟨rslt, hrslt, -, hrun⟩ := stringReplace_spec (show lit "aa" ≠ [] by decide) (lit "aaa")
    (lit "aaaab")
  have hcopy := (hrun 6 (by decide)).2
  rw [show stringReplaceCopy 6 (lit "aa") (lit "aaa") (lit "aaaab") = some (lit "aaaaaab") by
    decide] at hcopy
  rw [Option.some.inj hcopy]
  exact hrslt

/-- An empty `oldValue` is found in every turn. -/
theorem stringReplace_nil (fuel : ℕ) (newValue str : Bytes) :
    stringReplace fuel [] newValue str = none := by
  have hloop : ∀ fuel pos str, pos ≤ str.length →
      replaceLoop [] newValue fuel pos str = none := by
    intro fuel
    induction fuel with
    | zero => exact fun _ _ _ => rfl
    | succ fuel ih =>
      intro pos str hpos
      have hfind : findFrom ([] : Bytes) str pos = some pos :=
        findFrom_eq_some_iff.mpr ⟨le_rfl, hpos, List.nil_prefix, fun j hj hlt => by omega⟩
      rw [replaceLoop, hfind]
      simp only
      apply ih
      unfold replaceAt
      rw [List.length_append, List.length_append, List.length_take_of_le hpos]
      omega
  exact hloop fuel 0 str (Nat.zero_le _)

end S4LibLite
