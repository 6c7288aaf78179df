import S4LibLite.Common.JsonUtil

/-!
# What `searchJson` finds

The `std::stack` of the scan is the stack of a bracket machine, which sees the brackets
inside strings like any others.

* `onChar_turn`, one character feeds the machine;
* `scan_text`, so does a whole text, as long as the object is not closed in it;
* `searchJson_object_iff`, an object is found exactly when its brackets cancel out, and its
  prefixes are told apart from broken texts exactly when they can be continued so.
-/

namespace S4LibLite.Json

open Brackets

/-! ## One character -/

/-- The character that lies on the `std::stack`. -/
def code : Option Shape → UInt8
  | some .brace => 123
  | some .square => 91
  | none => 34

theorem code_inj {x y : Option Shape} (h : code x = code y) : x = y := by
  match x, y with
  | none, none => rfl
  | some .brace, some .brace => rfl
  | some .square, some .square => rfl
  | none, some .brace => exact absurd h (by decide)
  | none, some .square => exact absurd h (by decide)
  | some .brace, none => exact absurd h (by decide)
  | some .square, none => exact absurd h (by decide)
  | some .brace, some .square => exact absurd h (by decide)
  | some .square, some .brace => exact absurd h (by decide)

/-- The top of the `std::stack`. -/
theorem head?_eq_some_iff {st : Stack Shape} {s : Scan} (h : s.jsonstr = st.map code)
    (x : Option Shape) : s.jsonstr.head? = some (code x) ↔ st.head? = some x := by
  rw [h, List.head?_map, Option.map_eq_some_iff]
  constructor
  · intro hex
    obtain ⟨y, hy, hcode⟩ := hex
    rw [hy, code_inj hcode]
  · exact fun hst => ⟨x, hst, rfl⟩

/-- Whether an opening of a kind has been read. -/
def Scan.seen (s : Scan) : Shape → Bool
  | .brace => s.isObject
  | .square => s.isArray

/-- What a character that is no backslash does to a scan with `st` on its stack. -/
inductive CharTurn (st : Stack Shape) (s : Scan) (c : UInt8) : Turn → Prop
  | plain (hc : symbol c = none) : CharTurn st s c (.next { s with endChar := c })
  | fed {b : Bracket Shape} {st' : Stack Shape} {s' : Scan} (hc : symbol c = some b)
    (hfeed : feed b st = some st') (hclose : ∀ k, b = .closing k → st' ≠ [])
    (hopen : ∀ k, b = .opening k → st = [] → s.seen k = false)
    (hstack : s'.jsonstr = st'.map code) (hseen : ∀ k, s'.seen k = (s.seen k || b == .opening k))
    (hstop : s'.stop = s.stop) : CharTurn st s c (.next s')
  | unfit {b : Bracket Shape} {s' : Scan} (hc : symbol c = some b) (hfeed : feed b st = none) :
    CharTurn st s c (.illegal s')
  | closed {k : Shape} {s' : Scan} (hc : symbol c = some (.closing k))
    (hfeed : feed (.closing k) st = some []) (hstack : s'.jsonstr = []) (hend : s'.endChar = c)
    (hstop : s'.stop = s.stop) : CharTurn st s c (.done s')
  | again {k : Shape} {s' : Scan} {turn : Turn} (hc : symbol c = some (.opening k))
    (hempty : st = []) (hseen : s.seen k = true) (hturn : turn = .illegal s' ∨ turn = .done s') :
    CharTurn st s c turn

section
variable {st : Stack Shape} {s : Scan} (h : s.jsonstr = st.map code)

include h

/-- A closing character. -/
theorem close_turn (k : Shape) :
    CharTurn st s (charOf (.closing k))
      ({ s with endChar := charOf (.closing k) }.close (code (some k))) := by
  have hhead := head?_eq_some_iff (s := { s with endChar := charOf (.closing k) }) h (some k)
  have hc : symbol (charOf (.closing k)) = some (.closing k) := symbol_eq_some_iff.mpr rfl
  unfold Scan.close
  -- the code asks for the character on top, the machine for its partner
  by_cases htop : st.head? = some (some k)
  · rw [if_neg (not_not.mpr (hhead.mpr htop))]
    obtain ⟨st', rfl⟩ := List.head?_eq_some_iff.mp htop
    have hfeed : feed (.closing k) (some k :: st') = some st' := feed_partnerOf (some k) st'
    have hpop : ({ s with endChar := charOf (.closing k) } : Scan).pop.jsonstr = st'.map code := by
      show s.jsonstr.tail = _
      rw [h]
      rfl
    by_cases hst : st' = []
    · have hnil := hpop.trans (by rw [hst, List.map_nil])
      rw [if_pos hnil]
      exact CharTurn.closed hc (by rw [hfeed, hst]) hnil rfl rfl
    · rw [if_neg fun hnil => hst (List.map_eq_nil_iff.mp (hpop.symm.trans hnil))]
      refine CharTurn.fed hc hfeed (fun _ _ => hst) (fun _ hk => absurd hk (by simp)) hpop ?_ rfl
      intro j
      cases j <;> exact (Bool.or_false _).symm
  · rw [if_pos fun hk => htop (hhead.mp hk)]
    refine CharTurn.unfit hc ?_
    match st, htop with
    | [], _ => rfl
    | none :: st, _ => rfl
    | some j :: st, htop => exact if_neg fun hj => htop (by rw [hj]; rfl)

/-- An opening character: the first of its kind, or one more inside another. -/
theorem open_turn (k : Shape) {s' : Scan} (hs' : s'.jsonstr = s.jsonstr ∧ s'.stop = s.stop)
    (hseen : ∀ j, s'.seen j = (s.seen j || Bracket.opening k == .opening j))
    (hfirst : st = [] → s.seen k = false) :
    CharTurn st s (charOf (.opening k)) (.next (s'.push (charOf (.opening k)))) := by
  have hfeed : feed (.opening k) st = some (some k :: st) := rfl
  refine CharTurn.fed (symbol_eq_some_iff.mpr rfl) hfeed (fun _ _ => List.cons_ne_nil _ _) ?_ ?_
    hseen hs'.2
  · rintro _ ⟨⟩ hst
    exact hfirst hst
  · show charOf (.opening k) :: s'.jsonstr = _
    rw [hs'.1, h]
    cases k <;> rfl

/-- Both openings: `first` has the flag of the kind set, `inner` has it already, and with nothing
open a second one is the end. -/
theorem opening_turn (k : Shape) {first inner : Scan} {again : Turn}
    (hfirst : first.jsonstr = s.jsonstr ∧ first.stop = s.stop)
    (hflag : ∀ j, first.seen j = (s.seen j || Bracket.opening k == .opening j))
    (hinner : inner.jsonstr = s.jsonstr ∧ inner.stop = s.stop)
    (hsame : ∀ j, inner.seen j = s.seen j)
    (hagain : ∃ s', again = .illegal s' ∨ again = .done s') :
    CharTurn st s (charOf (.opening k))
      (if (!s.seen k) = true then .next (first.push (charOf (.opening k)))
        else if s.jsonstr = [] then again else .next (inner.push (charOf (.opening k)))) := by
  -- the first opening of a kind sets its flag
  by_cases hseen : s.seen k = true
  · rw [if_neg (by simp [hseen])]
    by_cases hempty : s.jsonstr = []
    · obtain ⟨s', hagain⟩ := hagain
      rw [if_pos hempty]
      exact CharTurn.again (symbol_eq_some_iff.mpr rfl)
        (List.map_eq_nil_iff.mp (h.symm.trans hempty)) hseen hagain
    · rw [if_neg hempty]
      refine open_turn h k hinner (fun j => ?_) (fun hst => absurd (by rw [h, hst]; rfl) hempty)
      rw [hsame]
      by_cases hj : k = j
      · rw [← hj, hseen, Bool.true_or]
      · rw [beq_false_of_ne (by simpa using hj), Bool.or_false]
  · rw [if_pos (by simp [hseen])]
    exact open_turn h k hfirst hflag (fun _ => Bool.eq_false_iff.mpr hseen)

/-- A quotation mark. -/
theorem quote_turn :
    CharTurn st s 34 (if s.jsonstr.head? ≠ some 34 then .next ({ s with endChar := 34 }.push 34)
      else .next { s with endChar := 34 }.pop) := by
  have hhead : s.jsonstr.head? = some 34 ↔ st.head? = some none := head?_eq_some_iff h none
  have hseen : ∀ k, s.seen k = (s.seen k || Bracket.toggle == Bracket.opening k) :=
    fun k => (Bool.or_false _).symm
  -- a quotation mark closes the string on top, and opens one otherwise
  by_cases htop : st.head? = some none
  · rw [if_neg (not_not.mpr (hhead.mpr htop))]
    obtain ⟨st', rfl⟩ := List.head?_eq_some_iff.mp htop
    have hfeed : feed .toggle (none :: st') = some st' := feed_partnerOf none st'
    refine CharTurn.fed (b := .toggle) rfl hfeed (fun _ hk => absurd hk (by simp))
      (fun _ hk => absurd hk (by simp)) ?_ (fun k => ?_) rfl
    · show s.jsonstr.tail = _
      rw [h]
      rfl
    · exact (hseen k).trans (by cases k <;> rfl)
  · rw [if_pos fun hq => htop (hhead.mp hq)]
    have hfeed : feed .toggle st = some (none :: st) := by
      match st, htop with
      | [], _ => rfl
      | some j :: st, _ => rfl
      | none :: st, htop => exact absurd rfl htop
    refine CharTurn.fed (b := .toggle) rfl hfeed (fun _ hk => absurd hk (by simp))
      (fun _ hk => absurd hk (by simp)) ?_ (fun k => ?_) rfl
    · show 34 :: s.jsonstr = _
      rw [h]
      rfl
    · exact (hseen k).trans (by cases k <;> rfl)

end

/-- **One character**, as long as it is no backslash. -/
theorem onChar_turn {st : Stack Shape} {s : Scan} (h : s.jsonstr = st.map code) {c : UInt8}
    (hc : c ≠ 92) : CharTurn st s c (onChar c s) := by
  unfold onChar
  simp only
  -- the tests stand in the order of the code
  by_cases h₁ : c = 123
  · rw [if_pos h₁, h₁]
    refine opening_turn h .brace ⟨rfl, rfl⟩ (fun j => ?_) ⟨rfl, rfl⟩ (fun j => ?_) ⟨_, Or.inr rfl⟩
    · cases j
      · exact (Bool.or_true _).symm
      · exact (Bool.or_false _).symm
    · cases j <;> rfl
  rw [if_neg h₁]
  by_cases h₂ : c = 34
  · rw [if_pos h₂, h₂]
    exact quote_turn h
  rw [if_neg h₂]
  by_cases h₃ : c = 91
  · rw [if_pos h₃, h₃]
    refine opening_turn h .square ⟨rfl, rfl⟩ (fun j => ?_) ⟨rfl, rfl⟩ (fun j => ?_) ⟨_, Or.inl rfl⟩
    · cases j
      · exact (Bool.or_false _).symm
      · exact (Bool.or_true _).symm
    · cases j <;> rfl
  rw [if_neg h₃]
  by_cases h₄ : c = 93
  · rw [if_pos h₄, h₄]
    exact close_turn h .square
  rw [if_neg h₄]
  by_cases h₅ : c = 125
  · rw [if_pos h₅, h₅]
    exact close_turn h .brace
  rw [if_neg h₅, if_neg hc]
  refine CharTurn.plain ?_
  rw [symbol, if_neg h₁, if_neg h₅, if_neg h₃, if_neg h₄, if_neg h₂]

/-! ## Inside an object -/

/-- The scan is inside an object, with `st` on the stack of the machine. -/
structure Synced (st : Stack Shape) (s : Scan) : Prop where
  stack : s.jsonstr = st.map code
  bottom : st.getLast? = some (some .brace)
  seen : s.isObject = true

theorem Synced.ne_nil {st : Stack Shape} {s : Scan} (h : Synced st s) : s.jsonstr ≠ [] := by
  intro hnil
  have hst := h.bottom
  rw [List.map_eq_nil_iff.mp (h.stack.symm.trans hnil)] at hst
  exact absurd hst (by simp)

theorem Synced.setStop {st : Stack Shape} {s : Scan} (h : Synced st s) (stop : ℤ) :
    Synced st { s with stop := stop } := ⟨h.stack, h.bottom, h.seen⟩

theorem Synced.setEnd {st : Stack Shape} {s : Scan} (h : Synced st s) (c : UInt8) (stop : ℤ) :
    Synced st { s with endChar := c, stop := stop } := ⟨h.stack, h.bottom, h.seen⟩

/-- What a character does to a scan in step with the machine: its bracket, if any, fits on
the stack, closes the object, or does not fit. -/
inductive Fed (w : List (Bracket Shape)) (st : Stack Shape) (stop : ℤ) : Turn → Prop
  | next {st' : Stack Shape} {s' : Scan} (hrun : run w st = some st') (hs : Synced st' s')
    (hstop : s'.stop = stop) : Fed w st stop (.next s')
  | done {s' : Scan} (hrun : run w st = some []) (hs : s'.jsonstr = [])
    (hend : s'.endChar = 125) (hstop : s'.stop = stop) : Fed w st stop (.done s')
  | illegal {s' : Scan} (hrun : run w st = none) : Fed w st stop (.illegal s')

/-- **One character** feeds its bracket to the machine. -/
theorem onChar_fed {st : Stack Shape} {s : Scan} (h : Synced st s) {c : UInt8} (hc : c ≠ 92) :
    Fed (symbol c).toList st s.stop (onChar c s) := by
  have hturn := onChar_turn h.stack hc
  have hrun : ∀ b, run [b] st = feed b st := fun b => by
    rw [run]
    cases feed b st <;> rfl
  generalize onChar c s = turn at hturn ⊢
  cases hturn with
  | plain hb =>
    rw [hb]
    exact Fed.next rfl ⟨h.stack, h.bottom, h.seen⟩ rfl
  | @fed b st' s' hb hfeed hclose _ hstack hseen hstop =>
    have hne : st' ≠ [] := by
      intro hnil
      rw [hnil] at hfeed
      exact hclose .brace (eq_partnerOf_of_feed_nil hfeed h.bottom) hnil
    have hobject : s'.isObject = true := by
      rw [show s'.isObject = s'.seen .brace from rfl, hseen, show s.seen .brace = true from h.seen,
        Bool.true_or]
    rw [hb]
    exact Fed.next ((hrun b).trans hfeed) ⟨hstack, getLast?_feed hfeed h.bottom hne, hobject⟩ hstop
  | unfit hb hfeed =>
    rw [hb]
    exact Fed.illegal ((hrun _).trans hfeed)
  | closed hb hfeed hstack hend hstop =>
    -- the bottom of the stack is a brace
    have hbrace := eq_partnerOf_of_feed_nil hfeed h.bottom
    rw [hbrace] at hb hfeed
    rw [hb]
    exact Fed.done ((hrun _).trans hfeed) hstack (hend.trans (symbol_eq_some_iff.mp hb)) hstop
  | again _ hempty =>
    have hbottom := h.bottom
    rw [hempty] at hbottom
    exact absurd hbottom (by simp)

/-! ## A text -/

theorem incr_of_lt {i : ℤ} (h : i < intMax) : incr i = some (i + 1) := if_pos h

theorem incr_of_le {i : ℤ} (h : intMax ≤ i) : incr i = none := if_neg (by omega)

theorem eq_of_incr {i j : ℤ} (h : incr i = some j) : j = i + 1 := by
  unfold incr at h
  by_cases hlt : i < intMax
  · rw [if_pos hlt, Option.some.injEq] at h
    exact h.symm
  · rw [if_neg hlt] at h
    exact absurd h (by simp)

theorem le_of_incr {i j : ℤ} (h : incr i = some j) : i ≤ j := by
  have := eq_of_incr h
  omega

/-- What becomes of a scan over `u`, with `rest` behind it: the machine gets through and the
scan goes on, `stop` overflows, or a closing character does not fit. -/
inductive Scanned (u rest : Bytes) (st : Stack Shape) (stop : ℤ) : Option (Bool × Scan) → Prop
  | through {st' : Stack Shape} {s' : Scan} (hrun : run (brackets u) st = some st')
      (hs : Synced st' s') (hstop : s'.stop = stop + u.length) (hle : s'.stop ≤ intMax) :
    Scanned u rest st stop (scanLoop rest s')
  | overflow (hlt : intMax < stop + u.length) : Scanned u rest st stop none
  | broken {s' : Scan} (hrun : run (brackets u) st = none) :
    Scanned u rest st stop (some (true, s'))

/-- Some characters more, to begin with. -/
theorem Scanned.shift {u v rest : Bytes} {st st₁ : Stack Shape} {stop stop₁ : ℤ}
    {r : Option (Bool × Scan)} (h : Scanned u rest st₁ stop₁ r)
    (hrun : run (brackets v) st = run (brackets u) st₁)
    (hstop : stop₁ + u.length = stop + v.length) : Scanned v rest st stop r := by
  cases h with
  | through hr hs hst hle => exact Scanned.through (hrun.trans hr) hs (hst.trans hstop) hle
  | overflow hlt => exact Scanned.overflow (hstop ▸ hlt)
  | broken hr => exact Scanned.broken (hrun.trans hr)

/-- A backslash takes the character behind it with it. -/
theorem scanLoop_escape (d : UInt8) (text : Bytes) (s : Scan) :
    scanLoop (92 :: d :: text) s = ((incr s.stop).bind incr).bind
      fun stop => scanLoop text { s with endChar := 92, stop := stop } := rfl

theorem scanLoop_escape_eq_some {d : UInt8} {text : Bytes} {s : Scan} {r : Bool × Scan}
    (h : scanLoop (92 :: d :: text) s = some r) : ∃ stop, stop = s.stop + 1 + 1 ∧
      scanLoop text { s with endChar := 92, stop := stop } = some r := by
  rw [scanLoop_escape] at h
  obtain ⟨stop, hstop, h⟩ := Option.bind_eq_some_iff.mp h
  obtain ⟨stop', hstop', hstop⟩ := Option.bind_eq_some_iff.mp hstop
  exact ⟨stop, by rw [eq_of_incr hstop, eq_of_incr hstop'], h⟩

/-- An escape inside a text. -/
theorem scan_escape {u rest : Bytes} {d : UInt8} {st : Stack Shape} {s : Scan}
    (hscan : s.stop + 1 < intMax → Scanned u rest st (s.stop + 1 + 1)
      (scanLoop (u ++ rest) { s with endChar := 92, stop := s.stop + 1 + 1 })) :
    Scanned (92 :: d :: u) rest st s.stop (scanLoop (92 :: d :: u ++ rest) s) := by
  rw [List.cons_append, List.cons_append, scanLoop_escape]
  by_cases hlt : s.stop + 1 < intMax
  · rw [incr_of_lt (show s.stop < intMax by omega), Option.bind_some, incr_of_lt hlt,
      Option.bind_some]
    refine (hscan hlt).shift (by rw [brackets_escape]) ?_
    rw [List.length_cons, List.length_cons]
    omega
  · have hnone : (incr s.stop).bind incr = none := by
      by_cases hlt' : s.stop < intMax
      · rw [incr_of_lt hlt', Option.bind_some, incr_of_le (by omega)]
      · rw [incr_of_le (by omega), Option.bind_none]
    rw [hnone, Option.bind_none]
    refine Scanned.overflow ?_
    rw [List.length_cons, List.length_cons]
    omega

/-- Any other character feeds its bracket, which does not close the object. -/
theorem scan_char {u rest : Bytes} {c : UInt8} {st : Stack Shape} {s : Scan} (h : Synced st s)
    (hnul : c ≠ 0) (hc : c ≠ 92) (hopen : run (symbol c).toList st ≠ some [])
    (hscan : ∀ {st' : Stack Shape} {s' : Scan}, run (symbol c).toList st = some st' →
      Synced st' s' → s.stop < intMax → Scanned u rest st' (s.stop + 1)
        (scanLoop (u ++ rest) { s' with stop := s.stop + 1 })) :
    Scanned (c :: u) rest st s.stop (scanLoop (c :: u ++ rest) s) := by
  rw [List.cons_append, scanLoop, if_neg hnul]
  have hfed := onChar_fed h hc
  revert hfed
  generalize onChar c s = turn
  intro hfed
  cases hfed with
  | illegal hrun =>
    refine Scanned.broken ?_
    rw [brackets_cons hc, run_append, hrun, Option.bind_none]
  | done hrun => exact absurd hrun hopen
  | next hrun hs' hstop' =>
    simp only
    -- `stop` goes up behind the character, and may not fit any more
    by_cases hlt : s.stop < intMax
    · rw [hstop', incr_of_lt hlt, Option.bind_some]
      refine (hscan hrun hs' hlt).shift ?_ ?_
      · rw [brackets_cons hc, run_append, hrun, Option.bind_some]
      · rw [List.length_cons]
        omega
    · rw [hstop', incr_of_le (by omega), Option.bind_none]
      refine Scanned.overflow ?_
      rw [List.length_cons]
      omega

/-- **A text** whose brackets do not close the object is scanned by feeding them to the
machine. -/
theorem scan_text (rest : Bytes) {u : Bytes} {st : Stack Shape} {s : Scan} (h : Synced st s)
    (hnul : 0 ∉ u) (hcomplete : endsInEscape u = false)
    (habove : ∀ v, v <+: brackets u → run v st ≠ some []) (hstop : s.stop ≤ intMax) :
    Scanned u rest st s.stop (scanLoop (u ++ rest) s) := by
  induction u using escape_induction generalizing st s with
  | nil => exact Scanned.through rfl h (by simp) hstop
  | cut => exact absurd hcomplete (by decide)
  | escape d u ih =>
    rw [endsInEscape_escape] at hcomplete
    rw [brackets_escape] at habove
    rw [List.mem_cons, List.mem_cons, not_or, not_or] at hnul
    apply scan_escape
    intro hlt
    exact ih (h.setEnd 92 _) hnul.2.2 hcomplete habove (show s.stop + 1 + 1 ≤ intMax by omega)
  | char c u hc ih =>
    rw [List.mem_cons, not_or] at hnul
    rw [endsInEscape_cons hc] at hcomplete
    rw [brackets_cons hc] at habove
    apply scan_char h (Ne.symm hnul.1) hc (habove _ (List.prefix_append _ _))
    intro st' s' hrun hs' hlt
    -- a closing prefix of the rest would close the whole text
    have habove' : ∀ v, v <+: brackets u → run v st' ≠ some [] := by
      intro v hv hempty
      refine habove _ ((List.prefix_append_right_inj _).mpr hv) ?_
      rw [run_append, hrun, Option.bind_some, hempty]
    exact ih (hs'.setStop (s.stop + 1)) hnul.2 hcomplete habove'
      (show s.stop + 1 ≤ intMax by omega)

/-- Inside an object `stop` does not go back. -/
theorem stop_le_of_scanLoop {text : Bytes} {st : Stack Shape} {s s' : Scan} {returned : Bool}
    (h : Synced st s) (hrun : scanLoop text s = some (returned, s'))
    (hreturned : returned = false) : s.stop ≤ s'.stop := by
  induction text using escape_induction generalizing st s with
  | nil => exact absurd hrun (by simp [scanLoop])
  | cut => exact absurd hrun (by simp [scanLoop, onChar])
  | escape d text ih =>
    obtain ⟨stop, hstop, hrun⟩ := scanLoop_escape_eq_some hrun
    have hrest := ih (h.setEnd 92 stop) hrun
    have hle : stop ≤ s'.stop := hrest
    omega
  | char c text hc ih =>
    rw [scanLoop] at hrun
    by_cases hnul : c = 0
    · rw [if_pos hnul] at hrun
      rw [(Prod.mk.inj (Option.some.inj hrun)).2]
    rw [if_neg hnul] at hrun
    have hfed := onChar_fed h hc
    revert hfed hrun
    generalize onChar c s = turn
    intro hrun hfed
    cases hfed with
    | illegal =>
      rw [hreturned] at hrun
      exact absurd (Prod.mk.inj (Option.some.inj hrun)).1 (by decide)
    | done _ _ _ hstop =>
      rw [← (Prod.mk.inj (Option.some.inj hrun)).2, hstop]
    | @next st' s₁ _ hs hstop =>
      obtain ⟨stop, hincr, hrun⟩ := Option.bind_eq_some_iff.mp hrun
      have hle := le_of_incr hincr
      have hrest := ih (hs.setStop stop) hrun
      rw [hstop] at hle
      exact hle.trans hrest

/-! ## The whole search -/

theorem toCInt_of_le {n : ℕ} (h : (n : ℤ) ≤ intMax) : toCInt n = n :=
  Int32.toInt_ofNat_of_lt (by unfold intMax at h; omega)

theorem toCInt_le (n : ℕ) : toCInt n ≤ intMax := by
  have := Int32.toInt_lt (Int32.ofNat n)
  unfold toCInt intMax
  omega

/-- Below `2^32` only lengths that fit an `int` stay non-negative. -/
theorem le_of_toCInt_nonneg {n : ℕ} (hn : n < UInt32.size) (h : 0 ≤ toCInt n) :
    (n : ℤ) ≤ intMax := by
  unfold toCInt at h
  rw [Int32.toInt_ofNat', Int.bmod_def] at h
  unfold intMax
  have hsize : UInt32.size = 4294967296 := rfl
  have hsize' : (Int32.size : ℤ) = 4294967296 := rfl
  rw [hsize'] at h
  split_ifs at h
  · omega
  · omega

/-- The first brace of a text. -/
theorem find_eq {c : UInt8} {a : Bytes} (ha : c ∉ a) (t : Bytes) :
    find c (a ++ c :: t) = a.length := by
  have hfind : (a ++ c :: t).findIdx? (· = c) = some a.length := by
    induction a with
    | nil => rw [List.nil_append, List.findIdx?_cons, if_pos (decide_eq_true rfl), List.length_nil]
    | cons x a ih =>
      rw [List.mem_cons, not_or] at ha
      rw [List.cons_append, List.findIdx?_cons, if_neg (by simpa using Ne.symm ha.1), ih ha.2]
      rfl
  unfold find
  rw [hfind]
  rfl

/-- The scan behind the first brace. -/
def opened (stop : ℤ) : Scan where
  jsonstr := [123]
  endChar := 123
  isObject := true
  isArray := false
  stop := stop

theorem synced_opened (stop : ℤ) : Synced [some .brace] (opened stop) := ⟨rfl, rfl, rfl⟩

/-- What the search returns for the end of its loop. -/
def answer (start : ℤ) (r : Bool × Scan) : SearchResult :=
  if r.1 then ⟨false, start, r.2.stop, some jsonIllegalStop⟩ else searchEnd start 123 r.2

/-- The search on a text whose first brace is at an offset that fits an `int`. -/
theorem searchJson_eq {a : Bytes} (ha : 123 ∉ a) (hle : (a.length : ℤ) ≤ intMax) (t : Bytes) :
    searchJson (a ++ 123 :: t) =
      if toCInt (a ++ 123 :: t).length < a.length then
        some ⟨false, a.length, a.length, some jsonNoStart⟩
      else
        ((incr a.length).bind fun stop => scanLoop (t ++ [0]) (opened stop)).map
          (answer a.length) := by
  unfold searchJson
  simp only
  rw [find_eq ha, toCInt_of_le hle]
  by_cases hstart : toCInt (a ++ 123 :: t).length < a.length
  · rw [if_pos hstart, if_pos hstart]
  · have hin : 0 ≤ (a.length : ℤ) ∧ (a.length : ℤ) ≤ (a ++ 123 :: t).length := by
      rw [List.length_append]
      omega
    have hdrop : (a ++ 123 :: t).drop (a.length : ℤ).toNat = 123 :: t := by
      rw [Int.toNat_natCast, List.drop_left]
    rw [if_neg hstart, if_neg hstart, if_pos hin, hdrop]
    rfl

/-- A search that starts has an answer when its scan has one. -/
theorem exists_searchJson_iff {a : Bytes} (ha : 123 ∉ a) (hle : (a.length : ℤ) ≤ intMax)
    (t : Bytes) {P : SearchResult → Prop}
    (hP : ¬ P ⟨false, a.length, a.length, some jsonNoStart⟩) :
    (∃ r, searchJson (a ++ 123 :: t) = some r ∧ P r) ↔
      a.length ≤ toCInt (a ++ 123 :: t).length ∧
        ∃ r, ((incr a.length).bind fun stop => scanLoop (t ++ [0]) (opened stop)).map
          (answer a.length) = some r ∧ P r := by
  rw [searchJson_eq ha hle]
  by_cases hstart : toCInt (a ++ 123 :: t).length < a.length
  · simp only [if_pos hstart, Option.some.injEq, exists_eq_left']
    exact iff_of_false hP fun h => absurd h.1 (by omega)
  · rw [if_neg hstart, and_iff_right (by omega)]

/-- The search starts where the first brace is, as an `int`. -/
theorem start_of_searchJson {str : Bytes} {r : SearchResult} (h : searchJson str = some r) :
    r.start = toCInt (find 123 str) := by
  unfold searchJson at h
  simp only at h
  split_ifs at h with hlt hin
  · rw [← Option.some.inj h]
  · obtain ⟨⟨returned, s⟩, -, rfl⟩ := Option.map_eq_some_iff.mp h
    simp only
    split_ifs
    · rfl
    · unfold searchEnd
      split_ifs <;> rfl

/-! ## Objects and their prefixes -/

/-- Inside its braces an object is not closed: outside of strings it is nested. -/
theorem above_of_tame {t : Bytes} (ht : Tame t) {v : List (Bracket Shape)}
    (hv : v <+: brackets t) : run v [some .brace] ≠ some [] := by
  intro hrun
  have hopen : run (.opening .brace :: v) [] = some [] := hrun
  refine ne_nil_of_level hopen ?_ rfl
  intro hlevel
  have hdepth := ht.neutral.level_nested .brace 0 (List.cons_prefix_cons.mpr ⟨rfl, hv⟩)
    (List.cons_ne_nil _ _)
  rw [hlevel] at hdepth
  exact absurd hdepth (by decide)

/-- The machine on an object. -/
theorem run_object {t : Bytes} (ht : Tame t) :
    run (brackets (123 :: t ++ [125])) []
      = (run (brackets t) [some .brace]).bind (run [.closing .brace]) := by
  rw [(ht.nested (j := .brace) (k := .brace) rfl rfl).2, List.cons_append, run]
  exact run_append _ _ _

/-- The object `J` is found behind `a`. -/
def Finds (a J : Bytes) (r : SearchResult) : Prop :=
  r.found = true ∧ r.start = a.length ∧ r.stop = a.length + J.length - 1

/-- A bracket that does not fit ends the search: nothing is found. -/
theorem not_finds_illegal (a J : Bytes) (start : ℤ) (s : Scan) :
    ¬ Finds a J (answer start (true, s)) :=
  fun h => absurd h.1 (by simp [answer])

/-- What a finished scan finds ends where the scan stopped. -/
theorem Finds.stop_eq {a J : Bytes} {start : ℤ} {s : Scan}
    (h : Finds a J (answer start (false, s))) : s.stop = a.length + J.length - 1 := by
  have hstop := h.2.2
  unfold answer searchEnd at hstop
  simp only [Bool.false_eq_true, if_false] at hstop
  split_ifs at hstop <;> exact hstop

/-- With brackets still open, whatever is found is found behind the characters read. -/
theorem Finds.stop_lt {a J text : Bytes} {start : ℤ} {st : Stack Shape} {s : Scan}
    {r : SearchResult} (hs : Synced st s)
    (hr : ((incr s.stop).bind fun stop => scanLoop text { s with stop := stop }).map
      (answer start) = some r)
    (h : Finds a J r) : s.stop < a.length + J.length - 1 := by
  obtain ⟨⟨returned, s'⟩, hbind, rfl⟩ := Option.map_eq_some_iff.mp hr
  obtain ⟨stop, hincr, hloop⟩ := Option.bind_eq_some_iff.mp hbind
  cases returned with
  | true => exact absurd h (not_finds_illegal _ _ _ _)
  | false =>
    have hback : stop ≤ s'.stop := stop_le_of_scanLoop (hs.setStop stop) hloop rfl
    have hstop := h.stop_eq
    have hnext := eq_of_incr hincr
    omega

/-- The scan of an object from behind its first brace. -/
theorem scan_object {a b t : Bytes} (ht : Tame t) (hlt : (a.length : ℤ) < intMax) :
    (∃ r, (scanLoop (t ++ 125 :: (b ++ [0])) (opened (a.length + 1))).map (answer a.length)
        = some r ∧ Finds a (123 :: t ++ [125]) r) ↔
      run (brackets (123 :: t ++ [125])) [] = some [] ∧
        (a.length : ℤ) + (123 :: t ++ [125]).length ≤ intMax + 1 := by
  have hlen : (((123 :: t ++ [125] : Bytes).length : ℕ) : ℤ) = t.length + 2 := by
    rw [List.length_append, List.length_cons, List.length_singleton]
    omega
  have hscan := scan_text (125 :: (b ++ [0])) (synced_opened (a.length + 1)) ht.noNul ht.complete
    (fun v hv => above_of_tame ht hv) (show (a.length : ℤ) + 1 ≤ intMax by omega)
  rw [run_object ht, hlen]
  revert hscan
  generalize scanLoop (t ++ 125 :: (b ++ [0])) (opened (a.length + 1)) = loop
  intro hscan
  cases hscan with
  | overflow hover =>
    rw [Option.map_none]
    have hover' : intMax < (a.length : ℤ) + 1 + t.length := hover
    exact iff_of_false (by simp) fun h => by omega
  | broken hrun =>
    simp only [hrun, Option.bind_none, Option.map_some, Option.some.injEq, exists_eq_left']
    exact iff_of_false (not_finds_illegal _ _ _ _) (by simp)
  | @through st' s' hrun hs hstop hle =>
    have hstop' : s'.stop = (a.length : ℤ) + 1 + t.length := hstop
    rw [hrun, Option.bind_some, scanLoop, if_neg (by decide)]
    have hfed := onChar_fed hs (c := 125) (by decide)
    revert hfed
    generalize onChar 125 s' = turn
    intro hfed
    cases hfed with
    | illegal hclose =>
      simp only [show run [.closing .brace] st' = none from hclose, Option.map_some,
        Option.some.injEq, exists_eq_left']
      exact iff_of_false (not_finds_illegal _ _ _ _) (by simp)
    | @done s₁ hclose hempty hend hsame =>
      refine ⟨fun _ => ⟨hclose, by omega⟩, fun _ => ⟨_, rfl, ?_⟩⟩
      unfold Finds answer searchEnd
      rw [if_neg Bool.false_ne_true, if_pos hempty, if_pos rfl, if_pos hend, hlen]
      refine ⟨rfl, rfl, ?_⟩
      show s₁.stop = _
      omega
    | @next st₁ s₁ hclose hs₁ hsame =>
      -- the brace closes something else: whatever is found is found behind the object
      rw [show run [.closing .brace] st' = some st₁ from hclose]
      refine ⟨fun h => ?_, fun h => ?_⟩
      · obtain ⟨r, hr, hfinds⟩ := h
        have hbehind := hfinds.stop_lt hs₁ hr
        omega
      · exact absurd (Option.some.inj h.1) (fun hnil => by
          have hbottom := hs₁.bottom
          rw [hnil] at hbottom
          exact absurd hbottom (by simp))

/-- An object in a text. -/
theorem finds_iff {a b t : Bytes} (ha : 123 ∉ a) (ht : Tame t) :
    (∃ r, searchJson (a ++ (123 :: t ++ [125]) ++ b) = some r ∧
        Finds a (123 :: t ++ [125]) r) ↔
      Cancels (brackets (123 :: t ++ [125])) ∧
        (a.length : ℤ) + (123 :: t ++ [125]).length ≤ intMax + 1 ∧
        a.length ≤ toCInt (a ++ (123 :: t ++ [125]) ++ b).length := by
  have hlen : (((123 :: t ++ [125] : Bytes).length : ℕ) : ℤ) = t.length + 2 := by
    rw [List.length_append, List.length_cons, List.length_singleton]
    omega
  have hsplit : a ++ (123 :: t ++ [125]) ++ b = a ++ 123 :: (t ++ 125 :: b) := by
    simp only [List.append_assoc, List.cons_append, List.nil_append]
  rw [← run_nil_iff_cancels, hsplit]
  by_cases hlt : (a.length : ℤ) < intMax
  · rw [exists_searchJson_iff ha (by omega) _ fun h => absurd h.1 (by simp), incr_of_lt hlt,
      Option.bind_some, List.append_assoc, List.cons_append, scan_object ht hlt]
    exact ⟨fun h => ⟨h.2.1, h.2.2, h.1⟩, fun h => ⟨h.2.2, h.1, h.2.1⟩⟩
  · -- `start` or `stop` does not fit
    refine ⟨fun h => ?_, fun h => absurd h.2.1 (by omega)⟩
    obtain ⟨r, hr, hfinds⟩ := h
    have hstart := start_of_searchJson hr
    rw [find_eq ha, hfinds.2.1] at hstart
    have hmax := toCInt_le a.length
    rw [searchJson_eq ha (by omega), incr_of_le (by omega), Option.bind_none] at hr
    split_ifs at hr
    · rw [← Option.some.inj hr] at hfinds
      exact absurd hfinds.1 (by simp)
    · exact absurd hr (by simp)

/-- The search waits for more. -/
def Waits (r : SearchResult) : Prop := r.found = false ∧ r.ec = some jsonWaitingStop

/-- An object that is cut off. -/
theorem waits_iff {a t u : Bytes} (ha : 123 ∉ a) (hle : (a.length : ℤ) ≤ intMax) (ht : Tame t)
    (hu : u <+: t) (hcomplete : endsInEscape u = false) :
    (∃ r, searchJson (a ++ 123 :: u) = some r ∧ Waits r) ↔
      (∃ v, Cancels (brackets (123 :: u) ++ v)) ∧
        (a.length : ℤ) + (123 :: u).length ≤ intMax := by
  obtain ⟨w, rfl⟩ := hu
  have hprefix : brackets u <+: brackets (u ++ w) := by
    rw [brackets_append hcomplete]
    exact List.prefix_append _ _
  have hnul : 0 ∉ u := fun hmem => ht.noNul (List.mem_append_left _ hmem)
  have hopen : run (brackets (123 :: u)) [] = run (brackets u) [some .brace] := rfl
  have hlen : (((123 :: u : Bytes).length : ℕ) : ℤ) = u.length + 1 := by
    rw [List.length_cons]
    omega
  rw [exists_searchJson_iff ha hle u fun h => absurd h.2 (by simp [jsonNoStart, jsonWaitingStop]),
    ← run_isSome_iff, hopen, hlen]
  -- the scan goes over `u` and ends at the terminator
  by_cases hlt : (a.length : ℤ) < intMax
  · have hscan := scan_text [0] (synced_opened (a.length + 1)) hnul hcomplete
      (fun v hv => above_of_tame ht (hv.trans hprefix))
      (show (a.length : ℤ) + 1 ≤ intMax by omega)
    rw [incr_of_lt hlt, Option.bind_some]
    revert hscan
    generalize scanLoop (u ++ [0]) (opened (a.length + 1)) = loop
    intro hscan
    cases hscan with
    | overflow hover =>
      have hover' : intMax < (a.length : ℤ) + 1 + u.length := hover
      exact iff_of_false (by simp) fun h => by omega
    | broken hrun =>
      simp only [hrun, Option.map_some, Option.some.injEq, exists_eq_left']
      refine iff_of_false (fun h => ?_) (by simp)
      exact absurd h.2.2 (by simp [answer, jsonIllegalStop, jsonWaitingStop])
    | @through st' s' hrun hs hstop hmax =>
      have hstop' : s'.stop = (a.length : ℤ) + 1 + u.length := hstop
      have hsize : a.length ≤ toCInt (a ++ 123 :: u).length := by
        rw [toCInt_of_le (by rw [List.length_append, List.length_cons]; omega),
          List.length_append]
        omega
      refine iff_of_true ⟨hsize, _, rfl, ?_⟩ ⟨⟨st', hrun⟩, by omega⟩
      unfold answer searchEnd
      rw [if_neg Bool.false_ne_true, if_neg hs.ne_nil]
      exact ⟨rfl, rfl⟩
  · rw [incr_of_le (by omega), Option.bind_none, Option.map_none]
    exact iff_of_false (by simp) fun h => by omega

/-- Where `start` does not fit an `int` and has not come round again, nothing is scanned. -/
theorem not_waits_of_lt {a t : Bytes} (ha : 123 ∉ a) (hlt : intMax < a.length)
    (hsize : a.length < UInt32.size) {r : SearchResult}
    (hr : searchJson (a ++ 123 :: t) = some r) : ¬ Waits r := by
  intro hwaits
  have hneg : ¬ 0 ≤ toCInt a.length := by
    intro h
    have := le_of_toCInt_nonneg hsize h
    omega
  unfold searchJson at hr
  simp only at hr
  rw [find_eq ha] at hr
  split_ifs at hr with hstart hin
  · rw [← Option.some.inj hr] at hwaits
    exact absurd hwaits.2 (by simp [jsonNoStart, jsonWaitingStop])
  · exact hneg hin.1

/-- A proper prefix of an object. -/
theorem prefix_object {P t : Bytes} (hP : P <+: 123 :: t ++ [125]) (hnil : P ≠ [])
    (hne : P ≠ 123 :: t ++ [125]) : ∃ u, P = 123 :: u ∧ u <+: t := by
  obtain ⟨u, rfl, hu⟩ := (List.prefix_cons_iff.mp hP).resolve_left hnil
  refine ⟨u, rfl, (List.prefix_concat_iff.mp hu).resolve_left ?_⟩
  rintro rfl
  exact hne rfl

/-- **Searching for an object.** Behind a text without braces an object is found, from its
first character to its last, exactly when its brackets and quotation marks, those inside its
strings included, cancel out and the offsets fit an `int`. A proper prefix that does not end
in an escape is waited on when its brackets can still cancel out; up to the length at which
`start` comes round, only then. -/
theorem searchJson_object_iff {a J b : Bytes} (ha : 123 ∉ a) (hJ : IsObject J) :
    ((∃ r, searchJson (a ++ J ++ b) = some r ∧ Finds a J r) ↔
        Cancels (brackets J) ∧ (a.length : ℤ) + J.length ≤ intMax + 1 ∧
          a.length ≤ toCInt (a ++ J ++ b).length) ∧
      ∀ P, P <+: J → P ≠ [] → P ≠ J → endsInEscape P = false →
        ((∃ v, Cancels (brackets P ++ v)) ∧ (a.length : ℤ) + P.length ≤ intMax →
            ∃ r, searchJson (a ++ P) = some r ∧ Waits r) ∧
          (a.length < UInt32.size → (∃ r, searchJson (a ++ P) = some r ∧ Waits r) →
            (∃ v, Cancels (brackets P ++ v)) ∧ (a.length : ℤ) + P.length ≤ intMax) ∧
          (Cancels (brackets J) → ∃ v, Cancels (brackets P ++ v)) := by
  obtain ⟨t, rfl, ht⟩ := object_eq hJ
  refine ⟨finds_iff ha ht, fun P hP hnil hne hcomplete => ⟨?_, ?_, ?_⟩⟩
  · intro h
    obtain ⟨u, rfl, hu⟩ := prefix_object hP hnil hne
    exact (waits_iff ha (by omega) ht hu hcomplete).mpr h
  · intro hsize hwaits
    obtain ⟨u, rfl, hu⟩ := prefix_object hP hnil hne
    -- above this length `start` is negative and nothing is scanned
    by_cases hle : (a.length : ℤ) ≤ intMax
    · exact (waits_iff ha hle ht hu hcomplete).mp hwaits
    · obtain ⟨r, hr, hwaits⟩ := hwaits
      exact absurd hwaits (not_waits_of_lt ha (by omega) hsize hr)
  · intro hcancels
    obtain ⟨w, hw⟩ := hP
    refine ⟨brackets w, ?_⟩
    rw [← brackets_append hcomplete, hw]
    exact hcancels

/-- `{"a":1}`. -/
def plainObject : Bytes := [123, 34, 97, 34, 58, 49, 125]

/-- `{"a":"}"}`. -/
def quotedBrace : Bytes := [123, 34, 97, 34, 58, 34, 125, 34, 125]

theorem isObject_member {v : Bytes} (hv : Derives .value v) :
    IsObject (123 :: (34 :: [97] ++ [34] ++ [58] ++ v) ++ [125]) := by
  have hws : IsWs [] := List.forall_mem_nil _
  have hkey : Chars [97] := Chars.unescaped (by decide) Chars.nil
  unfold IsObject
  simpa using Derives.object (Derives.member hws hkey hws hws hv hws)

/-- `x{"a":1}y`. -/
theorem searchJson_object_found :
    ∃ r, searchJson ([120] ++ plainObject ++ [121]) = some r ∧ Finds [120] plainObject r := by
  have hdigits : IsDigits [49] := ⟨by decide, List.forall_mem_singleton.mpr rfl⟩
  have hone : Derives .value [49] := Derives.number
    ⟨[], [49], [], [], rfl, Or.inl rfl, ⟨hdigits, by decide⟩, Or.inl rfl, Or.inl rfl⟩
  have hJ : IsObject plainObject := isObject_member hone
  exact (searchJson_object_iff (b := [121]) (by decide) hJ).1.mpr
    ⟨run_nil_iff_cancels.mp (by decide), by decide, by decide⟩

/-- `{"a":"}"}`, a complete object, is taken for a broken text. -/
theorem searchJson_brace_in_string : ¬ ∀ a J b : Bytes, 123 ∉ a → IsObject J →
    (∃ r, searchJson (a ++ J ++ b) = some r ∧ Finds a J r) ∧
      ∀ P, P <+: J → P ≠ [] → P ≠ J → endsInEscape P = false →
        ∃ r, searchJson (a ++ P) = some r ∧ Waits r := by
  intro hall
  have hbrace : Derives .value [34, 125, 34] :=
    Derives.string (s := [125]) (Chars.unescaped (by decide) Chars.nil)
  have hJ : IsObject quotedBrace := isObject_member hbrace
  obtain ⟨t, ht, htame⟩ := object_eq hJ
  have hfinds := (hall [] quotedBrace [] List.not_mem_nil hJ).1
  rw [ht] at hfinds
  -- the quotation mark behind the brace is not on top of the stack
  have hcancels := ((finds_iff List.not_mem_nil htame).mp hfinds).1
  rw [← ht, ← run_nil_iff_cancels] at hcancels
  exact absurd hcancels (by decide)

end S4LibLite.Json
