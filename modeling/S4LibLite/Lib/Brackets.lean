import Mathlib.Data.List.Chain
import Mathlib.Data.Int.Notation

/-!
# Words of brackets and quotes

A word is made of openings and closings of several kinds, and of a toggle that is its own
partner, like a quotation mark. A stack machine removes neighbours that are partners.

* `run_nil_iff_cancels`, it ends with an empty stack on the words that cancel out;
* `run_isSome_iff`, it gets through the words that can be continued to such a word;
* `level_run`, what it removes does not change how deep a word is nested outside its toggles;
* `count_run`, `count_toggle_run`, the stack holds the openings that have no closing.
-/

namespace S4LibLite
namespace Brackets

inductive Bracket (κ : Type)
  | opening (k : κ)
  | closing (k : κ)
  | toggle
deriving DecidableEq, Repr

/-- Deleting neighbours that are partners leaves nothing. -/
inductive Cancels {κ : Type} : List (Bracket κ) → Prop
  | nil : Cancels []
  | pair {u v : List (Bracket κ)} (k : κ) (h : Cancels (u ++ v)) :
    Cancels (u ++ .opening k :: .closing k :: v)
  | toggles {u v : List (Bracket κ)} (h : Cancels (u ++ v)) :
    Cancels (u ++ .toggle :: .toggle :: v)

/-! ## The machine -/

/-- What has no partner yet, latest first: the kind of an opening, or `none` for a toggle. -/
abbrev Stack (κ : Type) := List (Option κ)

variable {κ : Type}

/-- The symbol that was put on the stack. -/
def symbolOf : Option κ → Bracket κ
  | some k => .opening k
  | none => .toggle

/-- The symbol that takes it off again. -/
def partnerOf : Option κ → Bracket κ
  | some k => .closing k
  | none => .toggle

/-- The word a stack stands for. -/
def unstack : Stack κ → List (Bracket κ)
  | [] => []
  | x :: st => unstack st ++ [symbolOf x]

variable [DecidableEq κ]

/-- One symbol; `none` when a closing does not fit. -/
def feed : Bracket κ → Stack κ → Option (Stack κ)
  | .opening k, st => some (some k :: st)
  | .closing k, some j :: st => if j = k then some st else none
  | .closing _, none :: _ => none
  | .closing _, [] => none
  | .toggle, none :: st => some st
  | .toggle, some j :: st => some (none :: some j :: st)
  | .toggle, [] => some [none]

/-- A word. -/
def run : List (Bracket κ) → Stack κ → Option (Stack κ)
  | [], st => some st
  | b :: w, st => (feed b st).bind (run w)

theorem run_append (u v : List (Bracket κ)) (st : Stack κ) :
    run (u ++ v) st = (run u st).bind (run v) := by
  induction u generalizing st with
  | nil => rfl
  | cons b u ih =>
    rw [List.cons_append, run, run, Option.bind_assoc]
    congr 1
    exact funext ih

/-- What a symbol does: it takes its partner off, or lies on top. -/
theorem feed_eq_some {b : Bracket κ} {st st' : Stack κ} (h : feed b st = some st') :
    (∃ x, st = x :: st' ∧ b = partnerOf x) ∨
      ∃ x, st' = x :: st ∧ b = symbolOf x ∧ (x = none → st.head? ≠ some none) := by
  match b, st with
  | .opening k, st =>
    obtain rfl := Option.some.inj h
    exact Or.inr ⟨some k, rfl, rfl, fun hx => absurd hx (by simp)⟩
  | .closing k, some j :: st =>
    rw [feed] at h
    by_cases hj : j = k
    · rw [if_pos hj] at h
      obtain rfl := Option.some.inj h
      exact Or.inl ⟨some j, rfl, by rw [hj]; rfl⟩
    · rw [if_neg hj] at h
      exact absurd h (by simp)
  | .closing _, none :: _ => exact absurd h (by simp [feed])
  | .closing _, [] => exact absurd h (by simp [feed])
  | .toggle, none :: st =>
    obtain rfl := Option.some.inj h
    exact Or.inl ⟨none, rfl, rfl⟩
  | .toggle, some j :: st =>
    obtain rfl := Option.some.inj h
    exact Or.inr ⟨none, rfl, rfl, fun _ => by simp⟩
  | .toggle, [] =>
    obtain rfl := Option.some.inj h
    exact Or.inr ⟨none, rfl, rfl, fun _ => by simp⟩

/-- What lies at the bottom stays there until the stack is empty. -/
theorem getLast?_feed {b : Bracket κ} {st st' : Stack κ} {x : Option κ} (h : feed b st = some st')
    (hst : st.getLast? = some x) (hne : st' ≠ []) : st'.getLast? = some x := by
  rcases feed_eq_some h with ⟨y, rfl, -⟩ | ⟨y, rfl, -⟩
  · rw [← hst, List.getLast?_cons, List.getLast?_eq_some_getLast hne]
    rfl
  · rw [List.getLast?_cons, hst]
    rfl

/-- Only its partner takes the bottom of a stack off. -/
theorem eq_partnerOf_of_feed_nil {b : Bracket κ} {st : Stack κ} {x : Option κ}
    (h : feed b st = some []) (hst : st.getLast? = some x) : b = partnerOf x := by
  rcases feed_eq_some h with ⟨y, rfl, rfl⟩ | ⟨y, hy, -⟩
  · rw [List.getLast?_singleton, Option.some.injEq] at hst
    rw [hst]
  · exact absurd hy (List.cons_ne_nil y st).symm

theorem feed_partnerOf (x : Option κ) (st : Stack κ) : feed (partnerOf x) (x :: st) = some st := by
  cases x with
  | none => rfl
  | some k => exact if_pos rfl

/-- The partners of a stack take all of it off. -/
theorem run_partners (st : Stack κ) : run (st.map partnerOf) st = some [] := by
  induction st with
  | nil => rfl
  | cons x st ih => rw [List.map_cons, run, feed_partnerOf, Option.bind_some, ih]

/-! ## What the machine accepts -/

/-- A stack of the machine never has a toggle on a toggle. -/
def NoTwin (st : Stack κ) : Prop := st.IsChain fun x y => ¬ (x = none ∧ y = none)

theorem NoTwin.feed {b : Bracket κ} {st st' : Stack κ} (hst : NoTwin st)
    (h : feed b st = some st') : NoTwin st' := by
  rcases feed_eq_some h with ⟨x, rfl, -⟩ | ⟨x, rfl, -, hx⟩
  · exact List.IsChain.tail (l := x :: st') hst
  · cases st with
    | nil => exact List.isChain_singleton _
    | cons y st =>
      apply List.IsChain.cons_cons _ hst
      intro htwin
      exact hx htwin.1 (by rw [htwin.2]; rfl)

/-- Two neighbours that are partners do nothing. -/
theorem run_pair (k : κ) (st : Stack κ) : run [.opening k, .closing k] st = some st := by
  show (feed (.closing k) (some k :: st)).bind (run []) = some st
  rw [show feed (.closing k) (some k :: st) = some st from feed_partnerOf (some k) st]
  rfl

theorem run_toggles {st : Stack κ} (hst : NoTwin st) : run [.toggle, .toggle] st = some st := by
  match st with
  | [] => rfl
  | some j :: st => rfl
  | [none] => rfl
  | none :: some j :: st => rfl
  | none :: none :: st =>
    rw [NoTwin, List.isChain_cons_cons] at hst
    exact absurd ⟨rfl, rfl⟩ hst.1

theorem NoTwin.run {w : List (Bracket κ)} {st st' : Stack κ} (hst : NoTwin st)
    (h : run w st = some st') : NoTwin st' := by
  induction w generalizing st with
  | nil =>
    obtain rfl := Option.some.inj h
    exact hst
  | cons b w ih =>
    obtain ⟨st₁, h₁, h⟩ := Option.bind_eq_some_iff.mp h
    exact ih (hst.feed h₁) h

/-- The machine does not see a deleted pair. -/
theorem run_delete {p : List (Bracket κ)} (hp : ∀ st, NoTwin st → run p st = some st)
    (u v : List (Bracket κ)) : run (u ++ (p ++ v)) [] = run (u ++ v) [] := by
  rw [run_append, run_append u v]
  cases h : run u [] with
  | none => rfl
  | some st =>
    have hst : NoTwin st := NoTwin.run List.isChain_nil h
    rw [Option.bind_some, Option.bind_some, run_append, hp st hst, Option.bind_some]

/-- A run that empties its stack cancels the stack and the word. -/
theorem cancels_of_run {w : List (Bracket κ)} {st : Stack κ} (h : run w st = some []) :
    Cancels (unstack st ++ w) := by
  induction w generalizing st with
  | nil =>
    rw [Option.some.inj h]
    exact Cancels.nil
  | cons b w ih =>
    obtain ⟨st', h', h⟩ := Option.bind_eq_some_iff.mp h
    have hc := ih h
    rcases feed_eq_some h' with ⟨x, rfl, rfl⟩ | ⟨x, rfl, rfl, -⟩
    · -- the symbol and the top of the stack are neighbours in the word
      rw [unstack, List.append_assoc]
      cases x with
      | none => exact Cancels.toggles hc
      | some k => exact Cancels.pair k hc
    · rw [unstack, List.append_assoc] at hc
      exact hc

/-- **Words that cancel out.** -/
theorem run_nil_iff_cancels {w : List (Bracket κ)} : run w [] = some [] ↔ Cancels w := by
  refine ⟨fun h => cancels_of_run h, fun h => ?_⟩
  induction h with
  | nil => rfl
  | @pair u v k _ ih =>
    rw [← ih]
    exact run_delete (p := [.opening k, .closing k]) (fun st _ => run_pair k st) u v
  | @toggles u v _ ih =>
    rw [← ih]
    exact run_delete (p := [.toggle, .toggle]) (fun st hst => run_toggles hst) u v

/-- **Words that can still cancel out.** -/
theorem run_isSome_iff {w : List (Bracket κ)} :
    (∃ st, run w [] = some st) ↔ ∃ v, Cancels (w ++ v) := by
  simp only [← run_nil_iff_cancels, run_append]
  constructor
  · intro h
    obtain ⟨st, hst⟩ := h
    exact ⟨st.map partnerOf, by rw [hst, Option.bind_some, run_partners]⟩
  · intro h
    obtain ⟨v, hv⟩ := h
    obtain ⟨st, hst, -⟩ := Option.bind_eq_some_iff.mp hv
    exact ⟨st, hst⟩

/-! ## Nesting -/

/-- Whether a word ends inside its toggles, and how deep it is nested outside of them. -/
structure Level where
  inside : Bool
  depth : ℤ
deriving DecidableEq, Repr

omit [DecidableEq κ]

/-- One symbol. Between toggles the others do not count. -/
def Level.next (l : Level) : Bracket κ → Level
  | .opening _ => if l.inside then l else { l with depth := l.depth + 1 }
  | .closing _ => if l.inside then l else { l with depth := l.depth - 1 }
  | .toggle => { l with inside := !l.inside }

/-- A word. -/
def level (w : List (Bracket κ)) (l : Level) : Level := w.foldl Level.next l

theorem level_append (u v : List (Bracket κ)) (l : Level) :
    level (u ++ v) l = level v (level u l) := List.foldl_append

theorem level_cons (b : Bracket κ) (w : List (Bracket κ)) (l : Level) :
    level (b :: w) l = level w (l.next b) := rfl

theorem Level.next_partner (x : Option κ) (l : Level) :
    (l.next (symbolOf x)).next (partnerOf x) = l := by
  obtain ⟨inside, depth⟩ := l
  cases x with
  | none => simp [symbolOf, partnerOf, Level.next]
  | some k => cases inside <;> simp [symbolOf, partnerOf, Level.next]

variable [DecidableEq κ]

/-- The level of a word is that of the stack it leaves. -/
theorem level_run {w : List (Bracket κ)} {st st' : Stack κ} (h : run w st = some st')
    (l : Level) : level (unstack st') l = level w (level (unstack st) l) := by
  induction w generalizing st with
  | nil =>
    rw [Option.some.inj h]
    rfl
  | cons b w ih =>
    obtain ⟨st₁, h₁, h⟩ := Option.bind_eq_some_iff.mp h
    rw [ih h, level_cons]
    congr 1
    rcases feed_eq_some h₁ with ⟨x, rfl, rfl⟩ | ⟨x, rfl, rfl, -⟩
    · rw [unstack, level_append]
      exact (Level.next_partner x _).symm
    · rw [unstack, level_append]
      rfl

/-- A word that is nested has a symbol without a partner. -/
theorem ne_nil_of_level {w : List (Bracket κ)} {st : Stack κ} (h : run w [] = some st)
    (hlevel : level w ⟨false, 0⟩ ≠ ⟨false, 0⟩) : st ≠ [] := by
  intro hnil
  rw [hnil] at h
  exact hlevel (level_run h ⟨false, 0⟩).symm

/-! ## Counting -/

/-- The openings of a kind are its closings and what is left of it on the stack. -/
theorem count_run {w : List (Bracket κ)} {st st' : Stack κ} (h : run w st = some st') (k : κ) :
    w.count (.opening k) + st.count (some k) = w.count (.closing k) + st'.count (some k) := by
  induction w generalizing st with
  | nil =>
    rw [Option.some.inj h]
    rfl
  | cons b w ih =>
    obtain ⟨st₁, h₁, h⟩ := Option.bind_eq_some_iff.mp h
    have hw := ih h
    rw [List.count_cons, List.count_cons]
    rcases feed_eq_some h₁ with ⟨x, rfl, rfl⟩ | ⟨x, rfl, rfl, -⟩
    · rw [List.count_cons]
      cases x with
      | none => simpa [partnerOf] using hw
      | some j =>
        simp only [partnerOf, beq_iff_eq, reduceCtorEq, if_false, Bracket.closing.injEq,
          Option.some.injEq]
        omega
    · rw [List.count_cons] at hw
      cases x with
      | none => simpa [symbolOf] using hw
      | some j =>
        simp only [symbolOf, beq_iff_eq, reduceCtorEq, if_false, Bracket.opening.injEq,
          Option.some.injEq] at hw ⊢
        omega

/-- The toggles come in pairs, but for those left on the stack. -/
theorem count_toggle_run {w : List (Bracket κ)} {st st' : Stack κ} (h : run w st = some st') :
    (w.count .toggle + st.count none) % 2 = st'.count none % 2 := by
  induction w generalizing st with
  | nil =>
    rw [Option.some.inj h, List.count_nil, Nat.zero_add]
  | cons b w ih =>
    obtain ⟨st₁, h₁, h⟩ := Option.bind_eq_some_iff.mp h
    have hw := ih h
    rw [List.count_cons]
    rcases feed_eq_some h₁ with ⟨x, rfl, rfl⟩ | ⟨x, rfl, rfl, -⟩
    · rw [List.count_cons]
      cases x with
      | none =>
        simp only [partnerOf, beq_self_eq_true, if_true]
        omega
      | some j => simpa [partnerOf] using hw
    · rw [List.count_cons] at hw
      cases x with
      | none =>
        simp only [symbolOf, beq_self_eq_true, if_true] at hw ⊢
        omega
      | some j => simpa [symbolOf] using hw

/-! ## Words that return to their level -/

omit [DecidableEq κ]

/-- Outside of toggles the word comes back to where it started, and never goes below. -/
structure Neutral (w : List (Bracket κ)) : Prop where
  returns : ∀ d, level w ⟨false, d⟩ = ⟨false, d⟩
  above : ∀ d v, v <+: w → d ≤ (level v ⟨false, d⟩).depth

theorem Neutral.nil : Neutral ([] : List (Bracket κ)) where
  returns _ := rfl
  above d v hv := by
    rw [List.prefix_nil.mp hv]
    exact Int.le_refl d

theorem prefix_append_cases {α : Type} {u v w : List α} (h : w <+: u ++ v) :
    w <+: u ∨ ∃ t, w = u ++ t ∧ t <+: v := by
  rcases List.prefix_or_prefix_of_prefix h (List.prefix_append u v) with hw | ⟨t, rfl⟩
  · exact Or.inl hw
  · exact Or.inr ⟨t, rfl, (List.prefix_append_right_inj u).mp h⟩

theorem Neutral.append {u v : List (Bracket κ)} (hu : Neutral u) (hv : Neutral v) :
    Neutral (u ++ v) where
  returns d := by rw [level_append, hu.returns, hv.returns]
  above d w hw := by
    rcases prefix_append_cases hw with h | ⟨t, rfl, ht⟩
    · exact hu.above d w h
    · rw [level_append, hu.returns]
      exact hv.above d t ht

/-- What stands between toggles does not count. -/
theorem level_inside {w : List (Bracket κ)} (hw : ∀ b ∈ w, b ≠ .toggle) (d : ℤ) :
    level w ⟨true, d⟩ = ⟨true, d⟩ := by
  induction w with
  | nil => rfl
  | cons b w ih =>
    rw [level_cons]
    have hb : Level.next ⟨true, d⟩ b = ⟨true, d⟩ := by
      cases b with
      | opening => rfl
      | closing => rfl
      | toggle => exact absurd rfl (hw _ List.mem_cons_self)
    rw [hb]
    exact ih fun b hb => hw b (List.mem_cons_of_mem _ hb)

/-- A quoted word. -/
theorem Neutral.quoted {w : List (Bracket κ)} (hw : ∀ b ∈ w, b ≠ .toggle) :
    Neutral (.toggle :: w ++ [.toggle]) where
  returns d := by
    show level (w ++ [.toggle]) ⟨true, d⟩ = _
    rw [level_append, level_inside hw]
    rfl
  above d v hv := by
    rcases List.prefix_cons_iff.mp hv with rfl | ⟨t, rfl, ht⟩
    · exact Int.le_refl d
    show d ≤ (level t ⟨true, d⟩).depth
    rcases List.prefix_concat_iff.mp ht with rfl | ht
    · rw [level_append, level_inside hw]
      exact Int.le_refl d
    · have hinside : level t ⟨true, d⟩ = ⟨true, d⟩ :=
        level_inside (fun b hb => hw b (ht.subset hb)) d
      exact Int.le_of_eq (congrArg Level.depth hinside.symm)

/-- Between an opening and its closing a word lies one level deeper. -/
theorem Neutral.level_nested {w v : List (Bracket κ)} (h : Neutral w) (k : κ) (d : ℤ)
    (hv : v <+: .opening k :: w) (hne : v ≠ []) : d + 1 ≤ (level v ⟨false, d⟩).depth := by
  obtain ⟨t, rfl, ht⟩ := (List.prefix_cons_iff.mp hv).resolve_left hne
  exact h.above (d + 1) t ht

/-- A word in brackets. -/
theorem Neutral.nested {w : List (Bracket κ)} (h : Neutral w) (j k : κ) :
    Neutral (.opening j :: w ++ [.closing k]) where
  returns d := by
    show level (w ++ [.closing k]) ⟨false, d + 1⟩ = _
    rw [level_append, h.returns]
    simp [level, Level.next]
  above d v hv := by
    rcases List.prefix_concat_iff.mp hv with rfl | hv
    · show d ≤ (level (w ++ [.closing k]) ⟨false, d + 1⟩).depth
      rw [level_append, h.returns]
      simp [level, Level.next]
    · by_cases hne : v = []
      · rw [hne]
        exact Int.le_refl d
      · have := h.level_nested j d hv hne
        omega

end Brackets
end S4LibLite
