import S4LibLite.Common.CStr
import S4LibLite.Lib.Brackets

/-!
# JSON texts

`Derives` is the grammar of JSON values over bytes; a byte above the ASCII range may stand in
any string. `brackets` are the characters of a text that open, close or quote, whether they
stand in a string or not, without those behind a backslash.

* `tame_of_derives`, no part of a text ends in an escape or below its level;
* `object_eq`, an object is a pair of braces around such a part.
-/

namespace S4LibLite.Json

open Brackets

/-! ## Grammar -/

/-- Insignificant whitespace. -/
def IsWs (s : Bytes) : Prop := ∀ c ∈ s, c = 32 ∨ c = 9 ∨ c = 10 ∨ c = 13

/-- Hexadecimal digits. -/
def isHex (c : UInt8) : Bool :=
  isDigit c || (65 ≤ c && c ≤ 70) || (97 ≤ c && c ≤ 102)

/-- The characters of a string, without its quotation marks. -/
inductive Chars : Bytes → Prop
  | nil : Chars []
  | unescaped {c : UInt8} {s : Bytes} (hc : 32 ≤ c ∧ c ≠ 34 ∧ c ≠ 92) (h : Chars s) :
    Chars (c :: s)
  | escape {c : UInt8} {s : Bytes} (hc : c ∈ lit "\"\\/bfnrt") (h : Chars s) :
    Chars (92 :: c :: s)
  | unicode {h₁ h₂ h₃ h₄ : UInt8} {s : Bytes}
    (hhex : ∀ c ∈ [h₁, h₂, h₃, h₄], isHex c = true) (h : Chars s) :
    Chars (92 :: 117 :: h₁ :: h₂ :: h₃ :: h₄ :: s)

/-- Digits, at least one. -/
def IsDigits (s : Bytes) : Prop := s ≠ [] ∧ ∀ c ∈ s, isDigit c = true

/-- The integer part of a number: no leading zeros. -/
def IsInt (s : Bytes) : Prop := IsDigits s ∧ (s.head? = some 48 → s = [48])

/-- The fraction of a number, if any. -/
def IsFrac (s : Bytes) : Prop := s = [] ∨ ∃ ds, s = 46 :: ds ∧ IsDigits ds

/-- The exponent of a number, if any. -/
def IsExp (s : Bytes) : Prop :=
  s = [] ∨ ∃ e sign ds, s = e :: (sign ++ ds) ∧ (e = 101 ∨ e = 69) ∧
    (sign = [] ∨ sign = [43] ∨ sign = [45]) ∧ IsDigits ds

/-- Numbers. -/
def IsNumber (s : Bytes) : Prop :=
  ∃ minus int frac exp, s = minus ++ int ++ frac ++ exp ∧ (minus = [] ∨ minus = [45]) ∧
    IsInt int ∧ IsFrac frac ∧ IsExp exp

/-- The parts of a text. `elements` and `members` are lists of at least one, with their
commas and the whitespace around them. -/
inductive Part
  | value | object | elements | members

inductive Derives : Part → Bytes → Prop
  | literal {s : Bytes} (hs : s = lit "true" ∨ s = lit "false" ∨ s = lit "null") :
    Derives .value s
  | number {s : Bytes} (hs : IsNumber s) : Derives .value s
  | string {s : Bytes} (hs : Chars s) : Derives .value (34 :: s ++ [34])
  | arrayEmpty {w : Bytes} (hw : IsWs w) : Derives .value (91 :: w ++ [93])
  | array {s : Bytes} (h : Derives .elements s) : Derives .value (91 :: s ++ [93])
  | ofObject {s : Bytes} (h : Derives .object s) : Derives .value s
  | objectEmpty {w : Bytes} (hw : IsWs w) : Derives .object (123 :: w ++ [125])
  | object {s : Bytes} (h : Derives .members s) : Derives .object (123 :: s ++ [125])
  | element {w₁ v w₂ : Bytes} (hw₁ : IsWs w₁) (hv : Derives .value v) (hw₂ : IsWs w₂) :
    Derives .elements (w₁ ++ v ++ w₂)
  | elements {w₁ v w₂ s : Bytes} (hw₁ : IsWs w₁) (hv : Derives .value v) (hw₂ : IsWs w₂)
    (hs : Derives .elements s) : Derives .elements (w₁ ++ v ++ w₂ ++ (44 :: s))
  | member {w₁ k w₂ w₃ v w₄ : Bytes} (hw₁ : IsWs w₁) (hk : Chars k) (hw₂ : IsWs w₂)
    (hw₃ : IsWs w₃) (hv : Derives .value v) (hw₄ : IsWs w₄) :
    Derives .members (w₁ ++ (34 :: k ++ [34]) ++ w₂ ++ [58] ++ w₃ ++ v ++ w₄)
  | members {w₁ k w₂ w₃ v w₄ s : Bytes} (hw₁ : IsWs w₁) (hk : Chars k) (hw₂ : IsWs w₂)
    (hw₃ : IsWs w₃) (hv : Derives .value v) (hw₄ : IsWs w₄) (hs : Derives .members s) :
    Derives .members
      (w₁ ++ (34 :: k ++ [34]) ++ w₂ ++ [58] ++ w₃ ++ v ++ w₄ ++ (44 :: s))

/-- The text of one JSON object, from its first brace to its last. -/
def IsObject (s : Bytes) : Prop := Derives .object s

/-! ## Structural characters -/

/-- The two kinds of brackets. -/
inductive Shape
  | brace | square
deriving DecidableEq, Repr

/-- What a character is as a bracket or quote, if anything. -/
def symbol (c : UInt8) : Option (Bracket Shape) :=
  if c = 123 then some (.opening .brace)
  else if c = 125 then some (.closing .brace)
  else if c = 91 then some (.opening .square)
  else if c = 93 then some (.closing .square)
  else if c = 34 then some .toggle
  else none

/-- The character of a bracket. -/
def charOf : Bracket Shape → UInt8
  | .opening .brace => 123
  | .closing .brace => 125
  | .opening .square => 91
  | .closing .square => 93
  | .toggle => 34

/-- Four characters are brackets. -/
theorem symbol_eq_some_iff {c : UInt8} {b : Bracket Shape} : symbol c = some b ↔ c = charOf b := by
  constructor
  · intro h
    unfold symbol at h
    split_ifs at h with h₁ h₂ h₃ h₄ h₅
    all_goals
      rw [← Option.some.inj h]
      assumption
  · rintro rfl
    match b with
    | .opening .brace | .closing .brace | .opening .square | .closing .square | .toggle => rfl

/-- The brackets and quotes of a text that no backslash precedes; at first the text stands
behind a backslash or not. -/
def bracketsFrom : Bool → Bytes → List (Bracket Shape)
  | _, [] => []
  | true, _ :: s => bracketsFrom false s
  | false, c :: s =>
    if c = 92 then bracketsFrom true s else (symbol c).toList ++ bracketsFrom false s

/-- The brackets and quotes of a text. -/
def brackets (s : Bytes) : List (Bracket Shape) := bracketsFrom false s

/-- A text ends behind a backslash that escapes. -/
def escapesFrom : Bool → Bytes → Bool
  | escaped, [] => escaped
  | true, _ :: s => escapesFrom false s
  | false, c :: s => escapesFrom (c == 92) s

/-- A text ends inside an escape. -/
def endsInEscape (s : Bytes) : Bool := escapesFrom false s

/-- The brackets of two texts, the second read from where the first leaves off. -/
theorem bracketsFrom_append (escaped : Bool) (s t : Bytes) :
    bracketsFrom escaped (s ++ t)
      = bracketsFrom escaped s ++ bracketsFrom (escapesFrom escaped s) t := by
  induction s generalizing escaped with
  | nil => rfl
  | cons c s ih =>
    cases escaped with
    | true => exact ih false
    | false =>
      rw [List.cons_append, bracketsFrom, bracketsFrom, escapesFrom]
      by_cases hc : c = 92
      · rw [if_pos hc, if_pos hc, ih, hc]
        rfl
      · rw [if_neg hc, if_neg hc, ih, List.append_assoc, beq_false_of_ne hc]

/-- Whether an escape is open, likewise. -/
theorem escapesFrom_append (escaped : Bool) (s t : Bytes) :
    escapesFrom escaped (s ++ t) = escapesFrom (escapesFrom escaped s) t := by
  induction s generalizing escaped with
  | nil => rfl
  | cons c s ih =>
    cases escaped with
    | true => exact ih false
    | false => exact ih (c == 92)

/-- Behind a text that ends in no escape, the brackets of the next are its own. -/
theorem brackets_append {s : Bytes} (hs : endsInEscape s = false) (t : Bytes) :
    brackets (s ++ t) = brackets s ++ brackets t := by
  unfold brackets
  rw [bracketsFrom_append, show escapesFrom false s = false from hs]

/-- And it ends as the next does. -/
theorem endsInEscape_append {s : Bytes} (hs : endsInEscape s = false) (t : Bytes) :
    endsInEscape (s ++ t) = endsInEscape t := by
  unfold endsInEscape
  rw [escapesFrom_append, show escapesFrom false s = false from hs]

/-- One character that is no backslash. -/
theorem brackets_cons {c : UInt8} (hc : c ≠ 92) (s : Bytes) :
    brackets (c :: s) = (symbol c).toList ++ brackets s := by
  unfold brackets
  rw [bracketsFrom, if_neg hc]

theorem endsInEscape_cons {c : UInt8} (hc : c ≠ 92) (s : Bytes) :
    endsInEscape (c :: s) = endsInEscape s := by
  unfold endsInEscape
  rw [escapesFrom, beq_false_of_ne hc]

/-- What is escaped is no bracket. -/
theorem brackets_escape (c : UInt8) (s : Bytes) : brackets (92 :: c :: s) = brackets s := rfl

theorem endsInEscape_escape (c : UInt8) (s : Bytes) :
    endsInEscape (92 :: c :: s) = endsInEscape s := rfl

/-- A text is made of escapes and other characters, and may end in a backslash. -/
@[elab_as_elim]
theorem escape_induction {motive : Bytes → Prop} (nil : motive []) (cut : motive [92])
    (escape : ∀ d s, motive s → motive (92 :: d :: s))
    (char : ∀ c s, c ≠ 92 → motive s → motive (c :: s)) (s : Bytes) : motive s := by
  induction hn : s.length using Nat.strong_induction_on generalizing s with
  | _ n ih =>
    match s with
    | [] => exact nil
    | c :: s =>
      rw [List.length_cons] at hn
      by_cases hc : c = 92
      · rw [hc]
        match s with
        | [] => exact cut
        | d :: s =>
          rw [List.length_cons] at hn
          exact escape d s (ih s.length (by omega) s rfl)
      · exact char c s hc (ih s.length (by omega) s rfl)

/-! ## Characters -/

/-- The character is not structural, no backslash and no NUL. -/
def Inert (c : UInt8) : Prop := symbol c = none ∧ c ≠ 92 ∧ c ≠ 0

instance (c : UInt8) : Decidable (Inert c) := inferInstanceAs (Decidable (_ ∧ _))

/-- A class of characters that leaves the special ones out. -/
theorem inert_of {p : UInt8 → Bool}
    (hp : ([123, 125, 91, 93, 34, 92, 0] : Bytes).any p = false) {c : UInt8}
    (h : p c = true) : Inert c := by
  have hne : ∀ x ∈ ([123, 125, 91, 93, 34, 92, 0] : Bytes), c ≠ x := by
    intro x hx heq
    exact List.any_eq_false.mp hp x hx (heq ▸ h)
  simp only [List.forall_mem_cons] at hne
  obtain ⟨h₁, h₂, h₃, h₄, h₅, h₆, h₇, -⟩ := hne
  refine ⟨?_, h₆, h₇⟩
  rw [symbol, if_neg h₁, if_neg h₂, if_neg h₃, if_neg h₄, if_neg h₅]

/-- Characters without a meaning for brackets. -/
theorem inert_spec {s : Bytes} (h : ∀ c ∈ s, Inert c) :
    endsInEscape s = false ∧ brackets s = [] ∧ 0 ∉ s := by
  induction s with
  | nil => exact ⟨rfl, rfl, List.not_mem_nil⟩
  | cons c s ih =>
    obtain ⟨hsymbol, hc, hnul⟩ := h c List.mem_cons_self
    obtain ⟨hcomplete, hnone, hs⟩ := ih fun c hc => h c (List.mem_cons_of_mem _ hc)
    refine ⟨?_, ?_, ?_⟩
    · rw [endsInEscape_cons hc, hcomplete]
    · rw [brackets_cons hc, hsymbol, hnone]
      rfl
    · exact fun hmem => (List.mem_cons.mp hmem).elim (fun h => hnul h.symm) hs

theorem inert_of_isHex {c : UInt8} (h : isHex c = true) : Inert c := inert_of (by decide) h

/-- White space has none. -/
theorem IsWs.inert {s : Bytes} (h : IsWs s) : ∀ c ∈ s, Inert c := fun c hc =>
  inert_of (p := fun c => c == 32 || c == 9 || c == 10 || c == 13) (by decide)
    (by have := h c hc; simpa [or_assoc] using this)

/-! ## The parts of a text -/

/-- A part that does not end in an escape, comes back to its level, and has no NUL. -/
structure Tame (s : Bytes) : Prop where
  complete : endsInEscape s = false
  neutral : Neutral (brackets s)
  noNul : 0 ∉ s

namespace Tame

/-- Tame texts side by side. -/
theorem append {s t : Bytes} (hs : Tame s) (ht : Tame t) : Tame (s ++ t) where
  complete := by rw [endsInEscape_append hs.complete, ht.complete]
  neutral := by
    rw [brackets_append hs.complete]
    exact hs.neutral.append ht.neutral
  noNul h := (List.mem_append.mp h).elim hs.noNul ht.noNul

theorem of_inert {s : Bytes} (h : ∀ c ∈ s, Inert c) : Tame s where
  complete := (inert_spec h).1
  neutral := by
    rw [(inert_spec h).2.1]
    exact Neutral.nil
  noNul := (inert_spec h).2.2

/-- A part in brackets. -/
theorem nested {s : Bytes} (hs : Tame s) {o c : UInt8} {j k : Shape}
    (ho : symbol o = some (.opening j)) (hc : symbol c = some (.closing k)) :
    Tame (o :: s ++ [c]) ∧ brackets (o :: s ++ [c]) = .opening j :: brackets s ++ [.closing k] := by
  have hne : ∀ {x : UInt8} {b : Bracket Shape}, symbol x = some b → x ≠ 92 ∧ x ≠ 0 := by
    intro x b hx
    refine ⟨?_, ?_⟩
    · rintro rfl
      exact absurd hx (by simp [symbol])
    · rintro rfl
      exact absurd hx (by simp [symbol])
  have hbrackets : brackets (o :: s ++ [c]) = .opening j :: brackets s ++ [.closing k] := by
    rw [List.cons_append, brackets_cons (hne ho).1, brackets_append hs.complete,
      brackets_cons (hne hc).1, ho, hc]
    rfl
  refine ⟨⟨?_, ?_, ?_⟩, hbrackets⟩
  · rw [List.cons_append, endsInEscape_cons (hne ho).1, endsInEscape_append hs.complete,
      endsInEscape_cons (hne hc).1]
    rfl
  · rw [hbrackets]
    exact hs.neutral.nested j k
  · intro hmem
    rcases List.mem_cons.mp hmem with h | hmem
    · exact (hne ho).2 h.symm
    rcases List.mem_append.mp hmem with h | h
    · exact hs.noNul h
    · exact (hne hc).2 (List.mem_singleton.mp h).symm

end Tame

/-- The characters of a string quote nothing. -/
theorem Chars.plain {s : Bytes} (h : Chars s) :
    endsInEscape s = false ∧ (∀ b ∈ brackets s, b ≠ .toggle) ∧ 0 ∉ s := by
  induction h with
  | nil => exact ⟨rfl, fun _ hb => absurd hb List.not_mem_nil, List.not_mem_nil⟩
  | @unescaped c s hc _ ih =>
    obtain ⟨hcomplete, hplain, hnul⟩ := ih
    refine ⟨?_, fun b hb => ?_, fun hmem => ?_⟩
    · rw [endsInEscape_cons hc.2.2, hcomplete]
    · rw [brackets_cons hc.2.2] at hb
      rcases List.mem_append.mp hb with hb | hb
      · intro htoggle
        rw [htoggle, Option.mem_toList] at hb
        exact hc.2.1 (symbol_eq_some_iff.mp hb)
      · exact hplain b hb
    · rcases List.mem_cons.mp hmem with hzero | hmem
      · rw [← hzero] at hc
        exact absurd hc.1 (by decide)
      · exact hnul hmem
  | @escape c s hc _ ih =>
    have hzero : (0 : UInt8) ≠ c := by
      rintro rfl
      exact absurd hc (by decide)
    refine ⟨ih.1, ih.2.1, ?_⟩
    simp only [List.mem_cons, not_or]
    exact ⟨by decide, hzero, ih.2.2⟩
  | @unicode h₁ h₂ h₃ h₄ s hhex _ ih =>
    obtain ⟨hcomplete, hnone, hhexnul⟩ := inert_spec fun c hc => inert_of_isHex (hhex c hc)
    -- an escape is two characters; the four behind it are inert
    have hsplit : 92 :: 117 :: h₁ :: h₂ :: h₃ :: h₄ :: s = 92 :: 117 :: ([h₁, h₂, h₃, h₄] ++ s) :=
      rfl
    rw [hsplit, endsInEscape_escape, brackets_escape, endsInEscape_append hcomplete,
      brackets_append hcomplete, hnone]
    refine ⟨ih.1, ih.2.1, fun hmem => ?_⟩
    simp only [List.mem_cons, List.mem_append] at hmem hhexnul
    rcases hmem with h | h | h | h
    · exact absurd h (by decide)
    · exact absurd h (by decide)
    · exact hhexnul (by simpa using h)
    · exact ih.2.2 h

/-- A string in its quotes. -/
theorem Chars.tame {s : Bytes} (h : Chars s) : Tame (34 :: s ++ [34]) where
  complete := by
    rw [List.cons_append, endsInEscape_cons (by decide), endsInEscape_append h.plain.1]
    rfl
  neutral := by
    rw [List.cons_append, brackets_cons (by decide), brackets_append h.plain.1]
    exact Neutral.quoted h.plain.2.1
  noNul hmem := by
    rcases List.mem_cons.mp hmem with hzero | hmem
    · exact absurd hzero (by decide)
    rcases List.mem_append.mp hmem with hs | hzero
    · exact h.plain.2.2 hs
    · exact absurd hzero (by decide)

/-- The characters of a number. -/
def isNumeric (c : UInt8) : Bool :=
  isDigit c || c == 43 || c == 45 || c == 46 || c == 69 || c == 101

theorem IsDigits.numeric {s : Bytes} (h : IsDigits s) : s.all isNumeric = true := by
  rw [List.all_eq_true]
  intro c hc
  simp [isNumeric, h.2 c hc]

/-- A number. -/
theorem IsNumber.tame {s : Bytes} (h : IsNumber s) : Tame s := by
  obtain ⟨minus, int, frac, exp, rfl, hminus, hint, hfrac, hexp⟩ := h
  have hm : minus.all isNumeric = true := by
    rcases hminus with rfl | rfl
    · rfl
    · rfl
  have hf : frac.all isNumeric = true := by
    rcases hfrac with rfl | ⟨ds, rfl, hds⟩
    · rfl
    · rw [List.all_cons, hds.numeric]
      rfl
  have he : exp.all isNumeric = true := by
    rcases hexp with rfl | ⟨e, sign, ds, rfl, he, hsign, hds⟩
    · rfl
    have hes : isNumeric e = true := by
      rcases he with rfl | rfl
      · rfl
      · rfl
    have hsigns : sign.all isNumeric = true := by
      rcases hsign with rfl | rfl | rfl
      · rfl
      · rfl
      · rfl
    rw [List.all_cons, List.all_append, hes, hsigns, hds.numeric]
    rfl
  -- no character of a number is a bracket, a quotation mark or a backslash
  have hall : (minus ++ int ++ frac ++ exp).all isNumeric = true := by
    rw [List.all_append, List.all_append, List.all_append, hm, hint.1.numeric, hf, he]
    rfl
  exact Tame.of_inert fun c hc => inert_of (by decide) (List.all_eq_true.mp hall c hc)

/-- **Every part of a text is tame.** -/
theorem tame_of_derives {p : Part} {s : Bytes} (h : Derives p s) : Tame s := by
  have hcomma : Tame [44] := Tame.of_inert (List.forall_mem_singleton.mpr (by decide))
  have hcolon : Tame [58] := Tame.of_inert (List.forall_mem_singleton.mpr (by decide))
  have hws : ∀ {w : Bytes}, IsWs w → Tame w := fun hw => Tame.of_inert hw.inert
  induction h with
  | @literal s hs =>
    have hall : s.all (fun c => 97 ≤ c && c ≤ 122) = true := by
      rcases hs with rfl | rfl | rfl
      · decide
      · decide
      · decide
    exact Tame.of_inert fun c hc => inert_of (p := fun c => 97 ≤ c && c ≤ 122) (by decide)
      (List.all_eq_true.mp hall c hc)
  | number hs => exact hs.tame
  | string hs => exact hs.tame
  | arrayEmpty hw => exact ((hws hw).nested (j := .square) (k := .square) rfl rfl).1
  | array _ ih => exact (ih.nested (j := .square) (k := .square) rfl rfl).1
  | ofObject _ ih => exact ih
  | objectEmpty hw => exact ((hws hw).nested (j := .brace) (k := .brace) rfl rfl).1
  | object _ ih => exact (ih.nested (j := .brace) (k := .brace) rfl rfl).1
  | element hw₁ _ hw₂ ih => exact ((hws hw₁).append ih).append (hws hw₂)
  | elements hw₁ _ hw₂ _ ihv ihs =>
    exact (((hws hw₁).append ihv).append (hws hw₂)).append (hcomma.append ihs)
  | member hw₁ hk hw₂ hw₃ _ hw₄ ih =>
    exact ((((((hws hw₁).append hk.tame).append (hws hw₂)).append hcolon).append
      (hws hw₃)).append ih).append (hws hw₄)
  | members hw₁ hk hw₂ hw₃ _ hw₄ _ ihv ihs =>
    exact (((((((hws hw₁).append hk.tame).append (hws hw₂)).append hcolon).append
      (hws hw₃)).append ihv).append (hws hw₄)).append (hcomma.append ihs)

/-- **An object** is a pair of braces around a tame part. -/
theorem object_eq {s : Bytes} (h : IsObject s) : ∃ t, s = 123 :: t ++ [125] ∧ Tame t := by
  cases h with
  | @objectEmpty w hw => exact ⟨w, rfl, Tame.of_inert hw.inert⟩
  | @object t h => exact ⟨t, rfl, tame_of_derives h⟩

end S4LibLite.Json
