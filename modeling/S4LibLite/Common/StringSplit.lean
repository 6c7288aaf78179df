import S4LibLite.Common.StringUtil
import S4LibLite.Lib.Splitting

/-!
# Splitting strings (`s4string.cpp`)

`string_split` moves two cursors over `src`: `pos1` is the end of the last separator, `pos2` the
next one found behind it. As for `string_replace`, the turns of the loop are counted.

* `splitLoop_spec`, the loop on a text and its pieces;
* `stringSplit_splitsUp`, the fields joined by the separator are the text, and the fields of a
  joined list are the list;
* `string_loops_end_iff`, the two loops end unless the word looked for is empty.
-/

namespace S4LibLite

open Replacement Splitting

/-- The loop of `string_split`: the fields `v` so far, and the cursor `pos1`. -/
def splitLoop (splitor src : Bytes) : ℕ → List Bytes → ℕ → Option (List Bytes × ℕ)
  | 0, _, _ => none
  | fuel + 1, v, pos1 =>
    match findFrom splitor src pos1 with
    | none => some (v, pos1)
    | some pos2 =>
      splitLoop splitor src fuel (v ++ [(src.drop pos1).take (pos2 - pos1)])
        (pos2 + splitor.length)

/-- `string_split`. -/
def stringSplit (fuel : ℕ) (src splitor : Bytes) : Option (List Bytes) :=
  (splitLoop splitor src fuel [] 0).map fun (v, pos1) =>
    if pos1 ≠ src.length then v ++ [src.drop pos1] else v

/-- The scan has found a separator, and none is left of `src` behind it. -/
def EndsOnSeparator (src splitor : Bytes) : Prop :=
  ∃ v, v ≠ [] ∧ splitLoop splitor src (src.length + 1) [] 0 = some (v, src.length)

/-- What the fields of a text are. -/
structure SplitsUp (src splitor : Bytes) (v : List Bytes) : Prop where
  absent : ∀ s ∈ v, ¬ splitor <:+: s
  joined : src = splitor.intercalate v ∨ src = splitor.intercalate v ++ splitor
  ended : src = splitor.intercalate v ++ splitor ↔ EndsOnSeparator src splitor

/-! ## The loop -/

/-- A turn that finds a separator behind `done`. -/
theorem splitLoop_found {splitor p s : Bytes} (done : Bytes) (v : List Bytes) (fuel : ℕ)
    (hfirst : ∀ j < p.length, ¬ OccursAt splitor (p ++ (splitor ++ s)) j) :
    splitLoop splitor (done ++ (p ++ (splitor ++ s))) (fuel + 1) v done.length
      = splitLoop splitor ((done ++ (p ++ splitor)) ++ s) fuel (v ++ [p])
        (done ++ (p ++ splitor)).length := by
  have hfind : findFrom splitor (p ++ (splitor ++ s)) 0 = some p.length :=
    findFrom_eq_some_iff.mpr ⟨Nat.zero_le _, by simp, occursAt_append p splitor s,
      fun j _ hj => hfirst j hj⟩
  have hpos : done.length + p.length + splitor.length = (done ++ (p ++ splitor)).length := by
    rw [List.length_append, List.length_append, Nat.add_assoc]
  rw [splitLoop, findFrom_append, hfind, Option.map_some]
  simp only
  rw [List.drop_left, Nat.add_sub_cancel_left, List.take_left, hpos]
  simp only [List.append_assoc]

/-- **The loop.** Behind `done` it reads the pieces of what is left, and stops in front of the
rest. -/
theorem splitLoop_spec {splitor s r : Bytes} {ps : List Bytes} (h : Split splitor s ps r) :
    ∀ done v fuel, ps.length < fuel →
      splitLoop splitor (done ++ s) fuel v done.length
        = some (v ++ ps, (done ++ s).length - r.length) := by
  induction h with
  | @rest s habsent =>
    intro done v fuel hfuel
    obtain ⟨fuel, rfl⟩ := Nat.exists_eq_add_of_lt hfuel
    have hfind : findFrom splitor s 0 = none :=
      findFrom_eq_none_iff.mpr fun i _ hi => habsent i hi
    rw [splitLoop, findFrom_append, hfind, Option.map_none]
    simp
  | @piece p s r ps hfirst _ ih =>
    intro done v fuel hfuel
    rw [List.length_cons] at hfuel
    obtain ⟨fuel, rfl⟩ : ∃ k, fuel = k + 1 := ⟨fuel - 1, by omega⟩
    rw [splitLoop_found done v fuel hfirst, ih _ _ fuel (by omega)]
    simp only [List.append_assoc, List.singleton_append]

/-- **The loop over a whole text.** -/
theorem splitLoop_eq {splitor src r : Bytes} {ps : List Bytes} (hne : splitor ≠ [])
    (h : Split splitor src ps r) {fuel : ℕ} (hfuel : src.length < fuel) :
    splitLoop splitor src fuel [] 0 = some (ps, src.length - r.length) :=
  splitLoop_spec h [] [] fuel (lt_of_le_of_lt (h.length_le hne) hfuel)

/-- The fields are the pieces, and the rest where there is one. -/
theorem stringSplit_eq {splitor src r : Bytes} {ps : List Bytes} (hne : splitor ≠ [])
    (h : Split splitor src ps r) {fuel : ℕ} (hfuel : src.length < fuel) :
    stringSplit fuel src splitor = some (if r = [] then ps else ps ++ [r]) := by
  obtain ⟨t, rfl⟩ := h.rest_suffix
  have hpos : (t ++ r).length - r.length = t.length := by
    rw [List.length_append, Nat.add_sub_cancel]
  rw [stringSplit, splitLoop_eq hne h hfuel, hpos, Option.map_some]
  simp only [List.drop_left, List.length_append, ne_eq, Nat.left_eq_add, List.length_eq_zero_iff,
    ite_not]

/-- The scan ends on a separator where pieces are all there is. -/
theorem endsOnSeparator_iff {splitor src r : Bytes} {ps : List Bytes} (hne : splitor ≠ [])
    (h : Split splitor src ps r) : EndsOnSeparator src splitor ↔ ps ≠ [] ∧ r = [] := by
  have hle := h.rest_suffix.length_le
  unfold EndsOnSeparator
  rw [splitLoop_eq hne h (Nat.lt_succ_self _)]
  constructor
  · rintro ⟨v, hv, heq⟩
    rw [Option.some.injEq, Prod.mk.injEq] at heq
    refine ⟨heq.1 ▸ hv, List.eq_nil_of_length_eq_zero ?_⟩
    by_contra hr
    omega
  · rintro ⟨hps, rfl⟩
    exact ⟨ps, hps, by rw [List.length_nil, Nat.sub_zero]⟩

/-! ## The function -/

/-- The pieces, with the rest where there is one, are the fields of the text. -/
theorem splitsUp {splitor src r : Bytes} {ps : List Bytes} (hne : splitor ≠ [])
    (h : Split splitor src ps r) : SplitsUp src splitor (if r = [] then ps else ps ++ [r]) := by
  have hjoin := h.intercalate
  obtain ⟨habsent, hrest⟩ := h.absent hne
  have hended := endsOnSeparator_iff hne h
  -- without a rest the text ends with a separator, or is empty
  by_cases hr : r = []
  · subst hr
    rw [if_pos rfl]
    have hfields : ∀ s ∈ ps, ¬ splitor <:+: s := fun s hs => absent_iff.mp (habsent s hs)
    by_cases hps : ps = []
    · subst hps
      rw [List.nil_append, List.intercalate_singleton] at hjoin
      refine ⟨hfields, Or.inl hjoin.symm, ?_⟩
      rw [hended, ← hjoin]
      exact ⟨fun heq => absurd heq.symm hne, fun h => absurd rfl h.1⟩
    · rw [intercalate_append_nil hps] at hjoin
      refine ⟨hfields, Or.inr hjoin.symm, ?_⟩
      rw [hended, hjoin]
      exact ⟨fun _ => ⟨hps, rfl⟩, fun _ => rfl⟩
  · rw [if_neg hr]
    refine ⟨fun s hs => ?_, Or.inl hjoin.symm, ?_⟩
    · rcases List.mem_append.mp hs with hs | hs
      · exact absent_iff.mp (habsent s hs)
      · rw [List.mem_singleton.mp hs]
        exact absent_iff.mp hrest
    · rw [hjoin, hended]
      constructor
      · intro heq
        exact absurd (List.self_eq_append_right.mp heq) hne
      · rintro ⟨-, hnil⟩
        exact absurd hnil hr

/-- **`string_split` neither loses nor invents a field**: no field holds the separator, joined by
it they are the text, but for a separator at its end; and texts without a character, joined by
it, are the fields again. -/
theorem stringSplit_splitsUp :
    (∀ src splitor : Bytes, splitor ≠ [] → ∃ v, SplitsUp src splitor v ∧
      ∀ fuel, src.length < fuel → stringSplit fuel src splitor = some v) ∧
    ∀ (c : UInt8) (w : List Bytes) (hw : w ≠ []), (∀ s ∈ w, c ∉ s) → w.getLast hw ≠ [] →
      ∀ fuel, ([c].intercalate w).length < fuel →
        stringSplit fuel ([c].intercalate w) [c] = some w := by
  constructor
  · intro src splitor hne
    obtain ⟨ps, r, hsplit⟩ := split_exists hne src
    exact ⟨_, splitsUp hne hsplit, fun fuel hfuel => stringSplit_eq hne hsplit hfuel⟩
  · intro c w hw habsent hlast fuel hfuel
    have hparts := List.dropLast_append_getLast hw
    have hsplit : Split [c] ([c].intercalate w) w.dropLast (w.getLast hw) := by
      conv in [c].intercalate w => rw [← hparts]
      exact split_intercalate (fun p hp => habsent p (List.mem_of_mem_dropLast hp))
        (habsent _ (List.getLast_mem hw))
    rw [stringSplit_eq (List.cons_ne_nil c []) hsplit hfuel, if_neg hlast, hparts]

/-- Empty fields, in front of and behind a separator. -/
theorem stringSplit_splitsUp_commas :
    SplitsUp (lit ",a,,b,") (lit ",") [[], lit "a", [], lit "b"] ∧
      stringSplit 6 (lit ",a,,b") (lit ",") = some [[], lit "a", [], lit "b"] := by
  constructor
  · obtain ⟨v, hv, hrun⟩ := stringSplit_splitsUp.1 (lit ",a,,b,") (lit ",") (by decide)
    have hsplit := hrun 7 (by decide)
    rw [show stringSplit 7 (lit ",a,,b,") (lit ",") = some [[], lit "a", [], lit "b"] by
      decide] at hsplit
    rwa [Option.some.inj hsplit]
  · exact stringSplit_splitsUp.2 44 [[], lit "a", [], lit "b"] (by decide) (by decide) (by decide)
      6 (by decide)

/-! ## Words that are empty -/

/-- `string_replace` comes to an end. -/
def StringReplaceEnds (oldValue newValue str : Bytes) : Prop :=
  ∃ fuel, (stringReplace fuel oldValue newValue str).isSome

/-- `string_split` comes to an end. -/
def StringSplitEnds (src splitor : Bytes) : Prop :=
  ∃ fuel, (stringSplit fuel src splitor).isSome

/-- An empty separator is found in every turn, where the last one was. -/
theorem stringSplit_nil (fuel : ℕ) (src : Bytes) : stringSplit fuel src [] = none := by
  have hfind : findFrom ([] : Bytes) src 0 = some 0 :=
    findFrom_eq_some_iff.mpr ⟨le_rfl, Nat.zero_le _, List.nil_prefix, fun j _ hlt => by omega⟩
  have hloop : ∀ fuel v, splitLoop [] src fuel v 0 = none := by
    intro fuel
    induction fuel with
    | zero => exact fun _ => rfl
    | succ fuel ih =>
      intro v
      rw [splitLoop, hfind]
      exact ih _
  rw [stringSplit, hloop, Option.map_none]

/-- **The loops end where there is something to look for**: `string_replace` unless `oldValue` is
empty, `string_split` unless `splitor` is. -/
theorem string_loops_end_iff (oldValue newValue str src splitor : Bytes) :
    (StringReplaceEnds oldValue newValue str ↔ oldValue ≠ []) ∧
      (StringSplitEnds src splitor ↔ splitor ≠ []) := by
  constructor
  · constructor
    · rintro ⟨fuel, hsome⟩ rfl
      rw [stringReplace_nil] at hsome
      exact absurd hsome (by decide)
    · intro hne
      obtain ⟨t, -, hrun⟩ := replaceLoop_spec hne newValue str
      exact ⟨str.length + 1, Option.isSome_iff_exists.mpr ⟨t, hrun [] _ (Nat.lt_succ_self _)⟩⟩
  · constructor
    · rintro ⟨fuel, hsome⟩ rfl
      rw [stringSplit_nil] at hsome
      exact absurd hsome (by decide)
    · intro hne
      obtain ⟨ps, r, hsplit⟩ := split_exists hne src
      exact ⟨src.length + 1, Option.isSome_iff_exists.mpr
        ⟨_, stringSplit_eq hne hsplit (Nat.lt_succ_self _)⟩⟩

/-- Nothing replaced by nothing, and a text split at nothing. -/
theorem string_loops_run_on :
    ¬ StringReplaceEnds [] [] (lit "a") ∧ ¬ StringSplitEnds (lit "a") [] := by
  constructor
  · rintro ⟨fuel, hsome⟩
    rw [stringReplace_nil] at hsome
    exact absurd hsome (by decide)
  · rintro ⟨fuel, hsome⟩
    rw [stringSplit_nil] at hsome
    exact absurd hsome (by decide)

end S4LibLite
