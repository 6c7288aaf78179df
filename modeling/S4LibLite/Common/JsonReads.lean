import S4LibLite.Common.JsonSearch

/-!
# What `searchJson` reads

The pointer of the scan begins at the index `find` returns, narrowed to an `int`, and an escape
takes it on by two. `scanReads` are the indices it is dereferenced at, up to the first one
behind the terminator.

* `onChar_tracks`, one character, whatever the scan began with;
* `scanReads_le_iff`, when a scan stays inside its text;
* `searchJson_inside_iff`, when the search does.
-/

namespace S4LibLite.Json

open Brackets

/-! ## Indices -/

/-- The indices the loop reads from `i` on, where `text` stands with its terminator. -/
def scanReads : ℤ → Bytes → Scan → List ℤ
  | i, [], _ => [i]
  | i, c :: text, s =>
    i ::
      if c = 0 then []
      else
        match onChar c s with
        | .illegal _ => []
        | .done _ => []
        | .next s => scanReads (i + 1) text { s with stop := s.stop + 1 }
        | .skip s =>
          match text with
          | [] => [i + 2]
          | _ :: text => scanReads (i + 2) text { s with stop := s.stop + 1 + 1 }

/-- The indices `searchJson` reads: that of `startChar`, and those of the loop. -/
def searchReads (str : Bytes) : List ℤ :=
  let start := toCInt (find 123 str)
  if toCInt str.length < start then []
  else if 0 ≤ start ∧ start ≤ str.length then
    start :: scanReads start (str.drop start.toNat ++ [0]) (.init start)
  else [start]

/-! ## One character -/

/-- A bracket ends the scan that has read the brackets `w`: it does not fit, it closes what was
open, or it opens a second time with nothing open. -/
def Ends (w : List (Bracket Shape)) (b : Bracket Shape) : Prop :=
  run (w ++ [b]) [] = none ∨
    (∃ k, b = .closing k ∧ run (w ++ [b]) [] = some []) ∨
      ∃ k, b = .opening k ∧ run w [] = some [] ∧ .opening k ∈ w

/-- The scan has read the brackets `w`, which left `st`. -/
structure Tracks (w : List (Bracket Shape)) (st : Stack Shape) (s : Scan) : Prop where
  run_eq : run w [] = some st
  stack : s.jsonstr = st.map code
  seen : ∀ k, s.seen k = true ↔ .opening k ∈ w

/-- What a turn has to do with the bracket `b?` of its character, if there is one. -/
inductive Tracked (w : List (Bracket Shape)) (b? : Option (Bracket Shape)) (stop : ℤ) :
    Turn → Prop
  | next {st : Stack Shape} {s : Scan} (hgo : ∀ b, b? = some b → ¬ Ends w b)
    (hs : Tracks (w ++ b?.toList) st s) (hstop : s.stop = stop) : Tracked w b? stop (.next s)
  | illegal {b : Bracket Shape} {s : Scan} (hb : b? = some b) (hends : Ends w b) :
    Tracked w b? stop (.illegal s)
  | done {b : Bracket Shape} {s : Scan} (hb : b? = some b) (hends : Ends w b) :
    Tracked w b? stop (.done s)

theorem Tracks.run_append {w : List (Bracket Shape)} {st : Stack Shape} {s : Scan}
    (h : Tracks w st s) (b : Bracket Shape) : run (w ++ [b]) [] = feed b st := by
  rw [Brackets.run_append, h.run_eq, Option.bind_some, run]
  cases feed b st <;> rfl

/-- **One character** that is no backslash: its bracket goes to the machine, or ends the scan. -/
theorem onChar_tracks {w : List (Bracket Shape)} {st : Stack Shape} {s : Scan}
    (h : Tracks w st s) {c : UInt8} (hc : c ≠ 92) :
    Tracked w (symbol c) s.stop (onChar c s) := by
  have hturn := onChar_turn h.stack hc
  generalize onChar c s = turn at hturn ⊢
  cases hturn with
  | plain hb =>
    have hs : Tracks (w ++ (symbol c).toList) st { s with endChar := c } := by
      rw [hb, Option.toList_none, List.append_nil]
      exact ⟨h.run_eq, h.stack, h.seen⟩
    exact Tracked.next (fun b hb' => absurd (hb.symm.trans hb') (by simp)) hs rfl
  | @fed b st' s' hb hfeed hclose hopen hstack hseen hstop =>
    have hs : Tracks (w ++ (symbol c).toList) st' s' := by
      rw [hb, Option.toList_some]
      refine ⟨(h.run_append b).trans hfeed, hstack, fun k => ?_⟩
      rw [hseen, Bool.or_eq_true, h.seen, beq_iff_eq, List.mem_append, List.mem_singleton, eq_comm]
    refine Tracked.next (fun b' hb' => ?_) hs hstop
    obtain rfl := Option.some.inj (hb.symm.trans hb')
    unfold Ends
    rw [h.run_append, hfeed, h.run_eq]
    -- it fits, leaves something open, and is no second opening
    rintro (hnone | ⟨k, hk, hempty⟩ | ⟨k, hk, hempty, hmem⟩)
    · exact absurd hnone (by simp)
    · exact hclose k hk (Option.some.inj hempty)
    · have hfirst := hopen k hk (Option.some.inj hempty)
      rw [(h.seen k).mpr hmem] at hfirst
      exact absurd hfirst (by decide)
  | unfit hb hfeed => exact Tracked.illegal hb (Or.inl ((h.run_append _).trans hfeed))
  | @closed k _ hb hfeed =>
    exact Tracked.done hb (Or.inr (Or.inl ⟨k, rfl, (h.run_append _).trans hfeed⟩))
  | @again k _ _ hb hempty hseen hturn =>
    have hends : Ends w (.opening k) := by
      refine Or.inr (Or.inr ⟨k, rfl, ?_, (h.seen k).mp hseen⟩)
      rw [h.run_eq, hempty]
    rcases hturn with rfl | rfl
    · exact Tracked.illegal hb hends
    · exact Tracked.done hb hends

/-! ## The loop -/

/-- No bracket of `v` ends a scan that has read `w` before. -/
def Unfinished (w v : List (Bracket Shape)) : Prop :=
  ∀ u b, u ++ [b] <+: v → ¬ Ends (w ++ u) b

theorem Unfinished.nil (w : List (Bracket Shape)) : Unfinished w [] := by
  intro u b hu
  exact absurd (List.prefix_nil.mp hu) (by simp)

/-- One bracket more does not end the scan, and the others do not. -/
theorem unfinished_cons_iff (w : List (Bracket Shape)) (b : Bracket Shape)
    (v : List (Bracket Shape)) :
    Unfinished w (b :: v) ↔ ¬ Ends w b ∧ Unfinished (w ++ [b]) v := by
  constructor
  · intro h
    refine ⟨?_, fun u b' hu => ?_⟩
    · have := h [] b (by simp)
      rwa [List.append_nil] at this
    · have := h (b :: u) b' (by simpa using hu)
      rwa [List.append_assoc]
  · rintro ⟨hgo, h⟩ u b' hu
    cases u with
    | nil =>
      rw [List.nil_append, List.cons_prefix_cons] at hu
      rw [List.append_nil, hu.1]
      exact hgo
    | cons d u =>
      rw [List.cons_append, List.cons_prefix_cons] at hu
      have := h u b' hu.2
      rw [hu.1]
      rwa [List.append_assoc] at this

/-- A bracket, if there is one, goes over to those that have been read. -/
theorem unfinished_append_iff {w : List (Bracket Shape)} {b? : Option (Bracket Shape)}
    (hgo : ∀ b, b? = some b → ¬ Ends w b) (v : List (Bracket Shape)) :
    Unfinished w (b?.toList ++ v) ↔ Unfinished (w ++ b?.toList) v := by
  cases b? with
  | none => rw [Option.toList_none, List.nil_append, List.append_nil]
  | some b =>
    rw [Option.toList_some, List.singleton_append, unfinished_cons_iff]
    exact and_iff_right (hgo b rfl)

theorem Tracks.setStop {w : List (Bracket Shape)} {st : Stack Shape} {s : Scan}
    (h : Tracks w st s) (stop : ℤ) : Tracks w st { s with stop := stop } :=
  ⟨h.run_eq, h.stack, h.seen⟩

theorem Tracks.setEnd {w : List (Bracket Shape)} {st : Stack Shape} {s : Scan}
    (h : Tracks w st s) (c : UInt8) (stop : ℤ) :
    Tracks w st { s with endChar := c, stop := stop } :=
  ⟨h.run_eq, h.stack, h.seen⟩

/-- The escape jump reads the backslash only. -/
theorem scanReads_escape (i : ℤ) (d : UInt8) (text : Bytes) (s : Scan) :
    scanReads i (92 :: d :: text) s
      = i :: scanReads (i + 2) text { s with endChar := 92, stop := s.stop + 1 + 1 } := rfl

/-- **A scan stays inside its text** unless it comes to a backslash at the end of it. -/
theorem scanReads_le_iff {u : Bytes} {w : List (Bracket Shape)} {st : Stack Shape} {s : Scan}
    (h : Tracks w st s) (hnul : 0 ∉ u) (i : ℤ) :
    (∀ j ∈ scanReads i (u ++ [0]) s, j ≤ i + u.length) ↔
      ¬ (endsInEscape u = true ∧ Unfinished w (brackets u)) := by
  induction u using escape_induction generalizing w st s i with
  | nil => simp [scanReads, endsInEscape, escapesFrom]
  | cut =>
    -- the pointer goes on by two, and over the terminator
    refine iff_of_false (fun hall => ?_) (not_not.mpr ⟨rfl, Unfinished.nil w⟩)
    have hread : i + 2 ∈ scanReads i ([92] ++ [0]) s := by
      rw [List.singleton_append, scanReads_escape]
      exact List.mem_cons_of_mem _ List.mem_cons_self
    have := hall _ hread
    rw [List.length_singleton] at this
    omega
  | escape d u ih =>
    rw [List.mem_cons, List.mem_cons, not_or, not_or] at hnul
    rw [List.cons_append, List.cons_append, scanReads_escape, List.forall_mem_cons,
      endsInEscape_escape, brackets_escape, ← ih (h.setEnd 92 _) hnul.2.2 (i + 2),
      List.length_cons, List.length_cons]
    push_cast
    rw [show i + ((u.length : ℤ) + 1 + 1) = i + 2 + u.length by omega]
    exact and_iff_right (by omega)
  | char c u hc ih =>
    rw [List.mem_cons, not_or] at hnul
    have htrack := onChar_tracks h hc
    rw [List.cons_append, scanReads, if_neg (Ne.symm hnul.1), List.forall_mem_cons,
      endsInEscape_cons hc, brackets_cons hc, List.length_cons, and_iff_right (by omega)]
    revert htrack
    generalize onChar c s = turn
    intro htrack
    -- a bracket that ends the scan ends the reads, whatever follows it
    cases htrack with
    | illegal hb hends =>
      rw [hb, Option.toList_some, List.singleton_append, unfinished_cons_iff]
      exact iff_of_true (List.forall_mem_nil _) (fun hun => hun.2.1 hends)
    | done hb hends =>
      rw [hb, Option.toList_some, List.singleton_append, unfinished_cons_iff]
      exact iff_of_true (List.forall_mem_nil _) (fun hun => hun.2.1 hends)
    | next hgo hs _ =>
      rw [unfinished_append_iff hgo, ← ih (hs.setStop _) hnul.2 (i + 1)]
      push_cast
      rw [show i + ((u.length : ℤ) + 1) = i + 1 + u.length by omega]

/-- The pointer only goes forward. -/
theorem le_of_mem_scanReads (i : ℤ) (text : Bytes) (s : Scan) :
    ∀ j ∈ scanReads i text s, i ≤ j := by
  fun_induction scanReads i text s with
  | case1 i s => simp
  | case2 i c text s ihNext ihSkip =>
    refine List.forall_mem_cons.mpr ⟨le_refl i, ?_⟩
    by_cases hnul : c = 0
    · rw [if_pos hnul]
      exact List.forall_mem_nil _
    rw [if_neg hnul]
    cases onChar c s with
    | illegal _ => exact List.forall_mem_nil _
    | done _ => exact List.forall_mem_nil _
    | next s' =>
      intro j hj
      have := ihNext s' j hj
      omega
    | skip s' =>
      cases text with
      | nil => simp
      | cons d text =>
        intro j hj
        have := ihSkip s' j hj
        omega

/-- A scan that stays inside its text ends, as long as `stop` fits an `int`. -/
theorem scanLoop_isSome {u : Bytes} {w : List (Bracket Shape)} {st : Stack Shape} {s : Scan}
    (h : Tracks w st s) (hnul : 0 ∉ u)
    (hgo : ¬ (endsInEscape u = true ∧ Unfinished w (brackets u)))
    (hmax : s.stop + u.length ≤ intMax) : (scanLoop (u ++ [0]) s).isSome = true := by
  induction u using escape_induction generalizing w st s with
  | nil => rfl
  | cut => exact absurd ⟨rfl, Unfinished.nil w⟩ hgo
  | escape d u ih =>
    rw [List.mem_cons, List.mem_cons, not_or, not_or] at hnul
    rw [endsInEscape_escape, brackets_escape] at hgo
    rw [List.length_cons, List.length_cons] at hmax
    rw [List.cons_append, List.cons_append, scanLoop_escape, incr_of_lt (by omega),
      Option.bind_some, incr_of_lt (by omega), Option.bind_some]
    exact ih (h.setEnd 92 _) hnul.2.2 hgo (show s.stop + 1 + 1 + u.length ≤ intMax by omega)
  | char c u hc ih =>
    rw [List.mem_cons, not_or] at hnul
    rw [endsInEscape_cons hc, brackets_cons hc] at hgo
    rw [List.length_cons] at hmax
    have htrack := onChar_tracks h hc
    rw [List.cons_append, scanLoop, if_neg (Ne.symm hnul.1)]
    revert htrack
    generalize onChar c s = turn
    intro htrack
    cases htrack with
    | illegal _ _ => rfl
    | done _ _ => rfl
    | @next _ s' hgo' hs hstop =>
      simp only
      rw [hstop, incr_of_lt (by omega), Option.bind_some]
      refine ih (hs.setStop _) hnul.2 (fun hun => hgo ⟨hun.1, ?_⟩)
        (show s.stop + 1 + u.length ≤ intMax by omega)
      exact (unfinished_append_iff hgo' _).mpr hun.2

/-! ## The whole search -/

theorem toCInt_le_self (n : ℕ) : toCInt n ≤ n := by
  unfold toCInt
  rw [Int32.toInt_ofNat', Int.bmod_def, show (Int32.size : ℤ) = 4294967296 from rfl]
  split_ifs <;> omega

theorem find_of_notMem {c : UInt8} {str : Bytes} (h : c ∉ str) :
    find c str = UInt64.size - 1 := by
  have hfind : str.findIdx? (· = c) = none := by
    rw [List.findIdx?_eq_none_iff]
    intro x hx
    rw [decide_eq_false_iff_not]
    rintro rfl
    exact h hx
  unfold find
  rw [hfind]
  rfl

/-- What the scan goes over. -/
def scanned (str : Bytes) : Bytes := str.drop (toCInt (find 123 str)).toNat

/-- What a search should do: it reads the characters of the string and its terminator, ends, and
says so where there is no brace. `stop` counts the characters in an `int`. -/
structure ReadsInside (str : Bytes) : Prop where
  inside : ∀ i ∈ searchReads str, 0 ≤ i ∧ i ≤ str.length
  ends : str.length ≤ intMax → (searchJson str).isSome = true
  noStart : 123 ∉ str → ∃ r, searchJson str = some r ∧ r.found = false ∧ r.ec = some jsonNoStart

theorem tracks_init (start : ℤ) : Tracks [] [] (.init start) :=
  ⟨rfl, rfl, fun k => by cases k <;> simp [Scan.init, Scan.seen]⟩

/-- A search that scans, from an index on. -/
theorem readsInside_of_scan {str : Bytes} (hnul : 0 ∉ str)
    (hsize : ¬ toCInt str.length < toCInt (find 123 str)) (hstart : 0 ≤ toCInt (find 123 str)) :
    ReadsInside str ↔
      ¬ (endsInEscape (scanned str) = true ∧ Unfinished [] (brackets (scanned str))) := by
  have hin : toCInt (find 123 str) ≤ str.length :=
    (not_lt.mp hsize).trans (toCInt_le_self str.length)
  have hlen : toCInt (find 123 str) + (scanned str).length = str.length := by
    rw [scanned, List.length_drop]
    omega
  have hnul' : 0 ∉ scanned str := fun hmem => hnul (List.mem_of_mem_drop hmem)
  -- `find` has looked at the first character already
  have hreads : searchReads str = toCInt (find 123 str) ::
      scanReads (toCInt (find 123 str)) (scanned str ++ [0]) (.init (toCInt (find 123 str))) := by
    unfold searchReads
    rw [if_neg hsize, if_pos ⟨hstart, hin⟩]
    rfl
  have hiff := scanReads_le_iff (tracks_init (toCInt (find 123 str))) hnul'
    (toCInt (find 123 str))
  rw [hlen] at hiff
  constructor
  · intro h
    refine hiff.mp fun j hj => (h.inside j ?_).2
    rw [hreads]
    exact List.mem_cons_of_mem _ hj
  · intro hgo
    refine ⟨?_, fun hmax => ?_, fun hnone => ?_⟩
    · rw [hreads]
      refine List.forall_mem_cons.mpr ⟨⟨hstart, hin⟩, fun j hj => ⟨?_, hiff.mpr hgo j hj⟩⟩
      exact hstart.trans (le_of_mem_scanReads _ _ _ j hj)
    · unfold searchJson
      simp only
      rw [if_neg hsize, if_pos ⟨hstart, hin⟩, Option.isSome_map]
      exact scanLoop_isSome (tracks_init _) hnul' hgo
        (show toCInt (find 123 str) + (scanned str).length ≤ intMax by omega)
    · rw [find_of_notMem hnone] at hstart
      exact absurd hstart (by decide)

/-- **The search reads inside its string** exactly where it does not begin to scan, or begins at
an index and does not come to a backslash at the end. -/
theorem searchJson_inside_iff {str : Bytes} (hnul : 0 ∉ str) :
    ReadsInside str ↔ toCInt str.length < toCInt (find 123 str) ∨
      0 ≤ toCInt (find 123 str) ∧
        ¬ (endsInEscape (scanned str) = true ∧ Unfinished [] (brackets (scanned str))) := by
  by_cases hsize : toCInt str.length < toCInt (find 123 str)
  · have hresult : searchJson str
        = some ⟨false, toCInt (find 123 str), toCInt (find 123 str), some jsonNoStart⟩ := by
      unfold searchJson
      simp only
      rw [if_pos hsize]
    refine iff_of_true ⟨?_, fun _ => by rw [hresult]; rfl, fun _ => ⟨_, hresult, rfl, rfl⟩⟩
      (Or.inl hsize)
    unfold searchReads
    rw [if_pos hsize]
    exact List.forall_mem_nil _
  rw [or_iff_right hsize]
  by_cases hstart : 0 ≤ toCInt (find 123 str)
  · rw [and_iff_right hstart, readsInside_of_scan hnul hsize hstart]
  · -- `find` is narrowed to a negative index, which is read
    refine iff_of_false (fun h => hstart (h.inside _ ?_).1) (fun h => hstart h.1)
    unfold searchReads
    rw [if_neg hsize, if_neg fun h => hstart h.1]
    exact List.mem_singleton_self _

/-- Nested brackets with an escaped quote among them, and text on both sides. -/
theorem searchJson_inside_nested : ReadsInside (lit "a=\x7b\"b\\\"\":[\x7b\x7d,1]\x7d;") :=
  (searchJson_inside_iff (by decide)).mpr
    (Or.inr ⟨by decide +kernel, fun h => absurd h.1 (by decide +kernel)⟩)

/-- A text without a brace: the character in front of it is read. -/
theorem searchJson_reads_before : ¬ ∀ str, 0 ∉ str → ReadsInside str := by
  intro hall
  have hin := (hall (lit "abc") (by decide)).inside (-1) (by decide +kernel)
  exact absurd hin.1 (by decide)

end S4LibLite.Json
