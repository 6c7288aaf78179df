import Mathlib.Init

/-!
# Computations that run out of room

A computation with a capacity has a result or stops where the capacity does not suffice. What is
said about one is in two parts: what a result is, if there is one, and what is room enough for one.

* `Gives`, the two parts together;
* `Gives.bind`, `Gives.mono`, along the steps of a computation;
* `Gives.guard`, a step that asks for the capacity.
-/

namespace S4LibLite
namespace Capacity

variable {α β : Type*}

/-- Every result of `o` is as `P` says, and where there is `room` there is one. -/
structure Gives (o : Option α) (P : α → Prop) (room : Prop) : Prop where
  result : ∀ x, o = some x → P x
  isSome : room → o.isSome

namespace Gives

variable {o : Option α} {P P' : α → Prop} {Q : β → Prop} {room room' : Prop} {x : α}

/-- A result that is there needs no room. -/
theorem some (h : P x) : Gives (some x) P room where
  result := by
    rintro _ ⟨⟩
    exact h
  isSome _ := rfl

/-- With room, what there is only one of is the result. -/
theorem eq_some (h : Gives o (· = x) room) (hroom : room) : o = Option.some x := by
  obtain ⟨y, hy⟩ := Option.isSome_iff_exists.mp (h.isSome hroom)
  rw [hy, h.result y hy]

/-- Less may be said of a result, and more may be asked for. -/
theorem mono (h : Gives o P room) (hP : ∀ x, P x → P' x) (hroom : room' → room) :
    Gives o P' room' where
  result x hx := hP x (h.result x hx)
  isSome hr := h.isSome (hroom hr)

/-- One step after the other: the second starts from what the first gives. -/
theorem bind {f : α → Option β} (h : Gives o P room) (hf : ∀ x, P x → Gives (f x) Q room) :
    Gives (o.bind f) Q room where
  result y hy := by
    obtain ⟨x, hx, hfx⟩ := Option.bind_eq_some_iff.mp hy
    exact (hf x (h.result x hx)).result y hfx
  isSome hr := by
    obtain ⟨x, hx⟩ := Option.isSome_iff_exists.mp (h.isSome hr)
    rw [hx, Option.bind_some]
    exact (hf x (h.result x hx)).isSome hr

/-- A result may be rewritten. -/
theorem map {f : α → β} (h : Gives o P room) (hf : ∀ x, P x → Q (f x)) :
    Gives (o.map f) Q room := by
  rw [Option.map_eq_bind]
  exact h.bind fun x hx => some (hf x hx)

/-- A step that goes on only under a condition. -/
theorem guard {c : Prop} [Decidable c] (h : c → P x) (hroom : room → c) :
    Gives (if c then Option.some x else none) P room where
  result y hy := by
    obtain ⟨hc, hsome⟩ := Option.ite_none_right_eq_some.mp hy
    obtain rfl := Option.some.inj hsome
    exact h hc
  isSome hr := by
    rw [if_pos (hroom hr)]
    rfl

end Gives

end Capacity
end S4LibLite
