import S4LibLite.Common.JsonSearch

/-!
# What a successful search has found

A search that answers `true` has seen its brackets and quotation marks come out even, and not
earlier than at the brace it stops at.

* `scan_closed`, where a scan that ends with an empty stack has stopped;
* `searchJson_sound`, what `start` and `stop` then enclose.
-/

namespace S4LibLite.Json

open Brackets

/-! ## Texts without their escapes -/

/-- A text without its backslashes and the characters they escape; at first it stands behind a
backslash or not. -/
def unescapedFrom : Bool → Bytes → Bytes
  | _, [] => []
  | true, _ :: s => unescapedFrom false s
  | false, c :: s => if c = 92 then unescapedFrom true s else c :: unescapedFrom false s

/-- A text without every backslash and the character it escapes. -/
def unescaped (s : Bytes) : Bytes := unescapedFrom false s

theorem bracketsFrom_eq (escaped : Bool) (s : Bytes) :
    bracketsFrom escaped s = (unescapedFrom escaped s).filterMap symbol := by
  induction s generalizing escaped with
  | nil => cases escaped <;> rfl
  | cons c s ih =>
    cases escaped with
    | true => exact ih false
    | false =>
      rw [bracketsFrom, unescapedFrom]
      by_cases hc : c = 92
      · rw [if_pos hc, if_pos hc, ih]
      · rw [if_neg hc, if_neg hc, ih, List.filterMap_cons]
        cases symbol c <;> rfl

theorem count_brackets (b : Bracket Shape) (s : Bytes) :
    (brackets s).count b = (unescaped s).count (charOf b) := by
  rw [brackets, bracketsFrom_eq, List.count_filterMap, List.count]
  refine List.countP_congr fun c _ => ?_
  rw [beq_iff_eq, beq_iff_eq, symbol_eq_some_iff]

/-! ## Where a scan stops -/

/-- The object has not been closed before, nor broken: whatever has been read of `w`, its first
brace is still open. -/
def StaysOpen (st : Stack Shape) (w : List (Bracket Shape)) : Prop :=
  ∀ v, v <+: w → ∃ st', run v st = some st' ∧ st'.getLast? = some (some .brace)

theorem StaysOpen.cons {st st' : Stack Shape} {w v : List (Bracket Shape)}
    (hst : st.getLast? = some (some .brace)) (hv : v.length ≤ 1) (hrun : run v st = some st')
    (h : StaysOpen st' w) : StaysOpen st (v ++ w) := by
  intro u hu
  rcases prefix_append_cases hu with hu | ⟨t, rfl, ht⟩
  · by_cases hnil : u = []
    · exact ⟨st, by rw [hnil, run], hst⟩
    · have hlen := List.length_pos_of_ne_nil hnil
      have heq : u = v := hu.eq_of_length (le_antisymm hu.length_le (hv.trans hlen))
      obtain ⟨st₁, h₁, hlast⟩ := h [] (List.nil_prefix)
      rw [run, Option.some.injEq] at h₁
      exact ⟨st', by rw [heq, hrun], h₁ ▸ hlast⟩
  · obtain ⟨st₁, h₁, hlast⟩ := h t ht
    exact ⟨st₁, by rw [run_append, hrun, Option.bind_some, h₁], hlast⟩

/-- Only a closing brace empties the stack of an object. -/
theorem eq_of_run_nil {st : Stack Shape} (hst : st.getLast? = some (some .brace)) {c : UInt8}
    (h : run (symbol c).toList st = some []) : symbol c = some (.closing .brace) := by
  cases hb : symbol c with
  | none =>
    rw [hb] at h
    rw [Option.some.inj h] at hst
    exact absurd hst (by simp)
  | some b =>
    rw [hb] at h
    obtain ⟨st', hfeed, hnil⟩ := Option.bind_eq_some_iff.mp h
    rw [Option.some.inj hnil] at hfeed
    exact congrArg some (eq_partnerOf_of_feed_nil hfeed hst)

/-- The text of the scan is split at the brace that closes the object. -/
structure Stops (text : Bytes) (st : Stack Shape) (stop stop' : ℤ) (u v : Bytes) : Prop where
  text_eq : text = u ++ 125 :: v
  complete : endsInEscape u = false
  opens : StaysOpen st (brackets u)
  closes : run (brackets u ++ [.closing .brace]) st = some []
  stop_eq : stop' = stop + u.length

theorem Stops.cons_escape {text : Bytes} {st : Stack Shape} {stop stop' : ℤ} {u v : Bytes}
    (h : Stops text st (stop + 1 + 1) stop' u v) (d : UInt8) :
    Stops (92 :: d :: text) st stop stop' (92 :: d :: u) v where
  text_eq := by rw [h.text_eq]; rfl
  complete := h.complete
  opens := h.opens
  closes := h.closes
  stop_eq := by
    rw [h.stop_eq, List.length_cons, List.length_cons]
    push_cast
    omega

theorem Stops.cons_char {text : Bytes} {st st' : Stack Shape} {stop stop' : ℤ} {u v : Bytes}
    (h : Stops text st' (stop + 1) stop' u v) {c : UInt8} (hc : c ≠ 92)
    (hst : st.getLast? = some (some .brace)) (hfeed : run (symbol c).toList st = some st') :
    Stops (c :: text) st stop stop' (c :: u) v where
  text_eq := by rw [h.text_eq]; rfl
  complete := by rw [endsInEscape_cons hc, h.complete]
  opens := by
    rw [brackets_cons hc]
    exact StaysOpen.cons hst (by cases symbol c <;> simp) hfeed h.opens
  closes := by
    rw [brackets_cons hc, List.append_assoc, run_append, hfeed, Option.bind_some, h.closes]
  stop_eq := by
    rw [h.stop_eq, List.length_cons]
    push_cast
    omega

/-- The brace is here. -/
theorem Stops.here {text : Bytes} {st : Stack Shape} {stop : ℤ} {c : UInt8}
    (hst : st.getLast? = some (some .brace)) (hclose : run (symbol c).toList st = some []) :
    Stops (c :: text) st stop stop [] text := by
  have hbrace := eq_of_run_nil hst hclose
  refine ⟨by rw [symbol_eq_some_iff.mp hbrace]; rfl, rfl, fun w hw => ?_, ?_, by simp⟩
  · rw [List.prefix_nil.mp hw]
    exact ⟨st, rfl, hst⟩
  · rw [hbrace] at hclose
    exact hclose

/-- **A scan that ends with an empty stack** has stopped at the brace that closes the object. -/
theorem scan_closed {text : Bytes} {st : Stack Shape} {s s' : Scan} (h : Synced st s)
    (hrun : scanLoop (text ++ [0]) s = some (false, s')) (hempty : s'.jsonstr = []) :
    ∃ u v, Stops text st s.stop s'.stop u v := by
  induction text using escape_induction generalizing st s with
  | nil =>
    -- the terminator ends a scan inside the object
    rw [List.nil_append, scanLoop, if_pos rfl, Option.some.injEq, Prod.mk.injEq] at hrun
    exact absurd (hrun.2 ▸ hempty) h.ne_nil
  | cut =>
    obtain ⟨stop, -, hrun⟩ := scanLoop_escape_eq_some hrun
    exact absurd hrun (by simp [scanLoop])
  | escape d text ih =>
    obtain ⟨stop, hstop, hrun⟩ := scanLoop_escape_eq_some hrun
    obtain ⟨u, v, hstops⟩ := ih (h.setEnd 92 stop) hrun
    rw [show ({ s with endChar := 92, stop := stop } : Scan).stop = s.stop + 1 + 1 from hstop]
      at hstops
    exact ⟨_, _, hstops.cons_escape d⟩
  | char c text hc ih =>
    rw [List.cons_append, scanLoop] at hrun
    by_cases hnul : c = 0
    · rw [if_pos hnul, Option.some.injEq, Prod.mk.injEq] at hrun
      exact absurd (hrun.2 ▸ hempty) h.ne_nil
    rw [if_neg hnul] at hrun
    have hfed := onChar_fed h hc
    revert hfed hrun
    generalize onChar c s = turn
    intro hrun hfed
    cases hfed with
    | illegal =>
      exact absurd (Prod.mk.inj (Option.some.inj hrun)).1 (by decide)
    | done hclose _ _ hstop =>
      rw [← (Prod.mk.inj (Option.some.inj hrun)).2, hstop]
      exact ⟨_, _, Stops.here h.bottom hclose⟩
    | @next st' s₁ hfeed hs hstop =>
      obtain ⟨stop, hincr, hrun⟩ := Option.bind_eq_some_iff.mp hrun
      obtain ⟨u, v, hstops⟩ := ih (hs.setStop stop) hrun
      rw [show ({ s₁ with stop := stop } : Scan).stop = s.stop + 1 from
        (eq_of_incr hincr).trans (by rw [hstop])] at hstops
      exact ⟨_, _, hstops.cons_char hc h.bottom hfeed⟩

/-! ## What is found -/

/-- `str[i..j]`. -/
def segment (str : Bytes) (i j : ℕ) : Bytes := (str.drop i).take (j + 1 - i)

/-- `start` and `stop` enclose a text that begins at the first brace of all, closes all it opens
when escapes are left out, and does not do so earlier. -/
structure Encloses (str : Bytes) (start stop : ℕ) : Prop where
  first : str[start]? = some 123
  noneBefore : ∀ i < start, str[i]? ≠ some 123
  order : start < stop
  inside : stop < str.length
  last : str[stop]? = some 125
  braces : (unescaped (segment str start stop)).count 123
    = (unescaped (segment str start stop)).count 125
  squares : (unescaped (segment str start stop)).count 91
    = (unescaped (segment str start stop)).count 93
  quotes : (unescaped (segment str start stop)).count 34 % 2 = 0
  shorter : ∀ n, start ≤ n → n < stop → (unescaped (segment str start n)).count 125
    < (unescaped (segment str start n)).count 123

/-- A text whose brackets cancel out. -/
theorem counts_of_run {s : Bytes} (h : run (brackets s) [] = some []) :
    (unescaped s).count 123 = (unescaped s).count 125 ∧
      (unescaped s).count 91 = (unescaped s).count 93 ∧ (unescaped s).count 34 % 2 = 0 := by
  have hbrace := count_run h .brace
  have hsquare := count_run h .square
  have hquote := count_toggle_run h
  simp only [count_brackets, charOf, List.count_nil, Nat.add_zero] at hbrace hsquare hquote
  exact ⟨hbrace, hsquare, hquote⟩

/-- A text whose first brace is open. -/
theorem count_lt_of_run {s : Bytes} {st : Stack Shape} (h : run (brackets s) [] = some st)
    (hst : st.getLast? = some (some .brace)) :
    (unescaped s).count 125 < (unescaped s).count 123 := by
  have hbrace := count_run h .brace
  have hmem := List.count_pos_iff.mpr (List.mem_of_getLast? hst)
  simp only [count_brackets, charOf, List.count_nil, Nat.add_zero] at hbrace
  omega

/-- The part of a text from a character on. -/
theorem segment_append (a t : Bytes) (c : UInt8) (k : ℕ) :
    segment (a ++ c :: t) a.length (a.length + k) = c :: t.take k := by
  rw [segment, List.drop_left, show a.length + k + 1 - a.length = k + 1 by omega,
    List.take_succ_cons]

theorem prefix_brackets_take (s : Bytes) (k : ℕ) : brackets (s.take k) <+: brackets s := by
  have happend := bracketsFrom_append false (s.take k) (s.drop k)
  rw [List.take_append_drop] at happend
  exact ⟨_, happend.symm⟩

/-- The split of a scan behind the first brace of a text. -/
theorem Stops.encloses {a t u v : Bytes} {stop stop' : ℤ} (ha : 123 ∉ a)
    (h : Stops t [some .brace] stop stop' u v) :
    Encloses (a ++ 123 :: t) a.length (a.length + (u.length + 1)) := by
  have hlen : (a ++ 123 :: t).length = a.length + (u.length + (v.length + 1) + 1) := by
    rw [h.text_eq]
    simp
  have hwhole : segment (a ++ 123 :: t) a.length (a.length + (u.length + 1))
      = 123 :: (u ++ [125]) := by
    rw [segment_append, h.text_eq, List.take_append, List.take_of_length_le (by omega),
      show u.length + 1 - u.length = 1 by omega]
    rfl
  have hclosed : run (brackets (123 :: (u ++ [125]))) [] = some [] := by
    rw [brackets_cons (by decide), brackets_append h.complete]
    exact h.closes
  have hcounts := counts_of_run hclosed
  rw [← hwhole] at hcounts
  refine ⟨?_, ?_, by omega, by omega, ?_, hcounts.1, hcounts.2.1, hcounts.2.2, ?_⟩
  · rw [List.getElem?_append_right (le_refl _), Nat.sub_self]
    rfl
  · intro i hi hget
    rw [List.getElem?_append_left hi] at hget
    exact ha (List.mem_of_getElem? hget)
  · rw [List.getElem?_append_right (by omega), h.text_eq,
      show a.length + (u.length + 1) - a.length = u.length + 1 by omega, List.getElem?_cons_succ,
      List.getElem?_append_right (le_refl _), Nat.sub_self]
    rfl
  · intro n hn hn'
    obtain ⟨k, rfl⟩ := Nat.exists_eq_add_of_le hn
    have hpart : segment (a ++ 123 :: t) a.length (a.length + k) = 123 :: u.take k := by
      rw [segment_append, h.text_eq, List.take_append_of_le_length (by omega)]
    -- in front of the last brace something is open, so the counts differ
    obtain ⟨st, hst, hlast⟩ := h.opens _ (prefix_brackets_take u k)
    have hrun : run (brackets (123 :: u.take k)) [] = some st := by
      rw [brackets_cons (by decide)]
      exact hst
    rw [hpart]
    exact count_lt_of_run hrun hlast

/-- A search succeeds only where it has started at a brace. -/
theorem getElem?_of_found {str : Bytes} {r : SearchResult} (h : searchJson str = some r)
    (hfound : r.found = true) : str[(toCInt (find 123 str)).toNat]? = some 123 := by
  unfold searchJson at h
  simp only at h
  split_ifs at h with hsize hin
  · rw [← Option.some.inj h] at hfound
    exact absurd hfound (by simp)
  · obtain ⟨⟨returned, s⟩, -, rfl⟩ := Option.map_eq_some_iff.mp h
    unfold searchEnd at hfound
    simp only at hfound
    split_ifs at hfound with hreturned hempty hchar
    rw [← List.head?_drop]
    cases hdrop : str.drop (toCInt (find 123 str)).toNat with
    | nil =>
      rw [hdrop] at hchar
      exact absurd hchar (by decide)
    | cons c text =>
      rw [hdrop] at hchar
      exact congrArg some hchar

/-- It is the first brace, and its offset fits an `int`. -/
theorem exists_brace_of_found {str : Bytes} {r : SearchResult} (h : searchJson str = some r)
    (hfound : r.found = true) :
    ∃ a t, str = a ++ 123 :: t ∧ 123 ∉ a ∧ (a.length : ℤ) ≤ intMax := by
  have hstart := getElem?_of_found h hfound
  obtain ⟨a, t, rfl, ha⟩ := List.eq_append_cons_of_mem (List.mem_of_getElem? hstart)
  rw [find_eq ha] at hstart
  have hmax := toCInt_le a.length
  have hle : a.length ≤ (toCInt a.length).toNat := by
    by_contra hlt
    rw [List.getElem?_append_left (by omega)] at hstart
    exact ha (List.mem_of_getElem? hstart)
  have hpos : 0 ≤ intMax := by decide
  exact ⟨a, t, rfl, ha, by omega⟩

theorem answer_found {start : ℤ} {p : Bool × Scan} (h : (answer start p).found = true) :
    p.1 = false ∧ p.2.jsonstr = [] ∧ (answer start p).start = start ∧
      (answer start p).stop = p.2.stop := by
  unfold answer searchEnd at h ⊢
  split_ifs at h ⊢ with hreturned hempty
  exact ⟨Bool.eq_false_iff.mpr hreturned, hempty, rfl, rfl⟩

/-- **A search that succeeds** has found a text from the first brace on that closes all it
opens, and ends at the first brace where it does. -/
theorem searchJson_sound {str : Bytes} {r : SearchResult} (h : searchJson str = some r)
    (hfound : r.found = true) :
    ∃ start stop : ℕ, r.start = start ∧ r.stop = stop ∧ Encloses str start stop := by
  obtain ⟨a, t, rfl, ha, hmax⟩ := exists_brace_of_found h hfound
  rw [searchJson_eq ha hmax] at h
  split_ifs at h with hsize
  · rw [← Option.some.inj h] at hfound
    exact absurd hfound (by simp)
  · obtain ⟨⟨returned, s'⟩, hloop, rfl⟩ := Option.map_eq_some_iff.mp h
    obtain ⟨stop, hincr, hloop⟩ := Option.bind_eq_some_iff.mp hloop
    obtain ⟨hreturned, hempty, hstart, hstop⟩ := answer_found hfound
    rw [show returned = false from hreturned] at hloop
    obtain ⟨u, v, hstops⟩ := scan_closed (synced_opened stop) hloop hempty
    have hstop' : s'.stop = stop + u.length := hstops.stop_eq
    refine ⟨a.length, a.length + (u.length + 1), hstart, ?_, hstops.encloses ha⟩
    rw [hstop, show (returned, s').2.stop = s'.stop from rfl, hstop', eq_of_incr hincr]
    push_cast
    omega

/-- `{"a":1}` is found. -/
theorem searchJson_sound_plain :
    ∃ start stop : ℕ, (0 : ℤ) = start ∧ (6 : ℤ) = stop ∧ Encloses plainObject start stop :=
  searchJson_sound (r := ⟨true, 0, 6, none⟩) (by decide +kernel) rfl

end S4LibLite.Json
