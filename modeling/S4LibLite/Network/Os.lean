import Mathlib.Data.Finset.Insert
import S4LibLite.Common.CStr

/-!
# What the kernel keeps for `sockutil.cpp`

Descriptors and routes. What a system call answers is a parameter; what it does to the state when it
succeeds is not.
-/

namespace S4LibLite.Network

/-- What the program changes in the kernel: the descriptors it has open, and the host routes
(destination and NIC, with mask `255.255.255.255`). -/
structure Os where
  sockets : List ℤ
  routes : Finset (UInt32 × Bytes)

/-- How a call fails, as `errno` tells. -/
inductive Errno
  | eexist | esrch | other
deriving DecidableEq, Repr

namespace Os

/-- `socket(…)`: a descriptor, or `-1`. -/
def socket (answer : Option ℕ) (os : Os) : ℤ × Os :=
  match answer with
  | some fd => (fd, { os with sockets := fd :: os.sockets })
  | none => (-1, os)

/-- `close(fd)`. -/
def close (fd : ℤ) (os : Os) : Os := { os with sockets := os.sockets.erase fd }

/-- `ioctl(fd, SIOCADDRT, &route)`. -/
def siocAddRt (permitted : Bool) (route : UInt32 × Bytes) (os : Os) : Option Errno × Os :=
  if permitted = false then (some .other, os)
  else if route ∈ os.routes then (some .eexist, os)
  else (none, { os with routes := insert route os.routes })

/-- `ioctl(fd, SIOCDELRT, &route)`. -/
def siocDelRt (permitted : Bool) (route : UInt32 × Bytes) (os : Os) : Option Errno × Os :=
  if permitted = false then (some .other, os)
  else if route ∈ os.routes then (none, { os with routes := os.routes.erase route })
  else (some .esrch, os)

/-- A descriptor that is closed again leaves none behind. -/
theorem close_socket (fd : ℕ) (os : Os) : ((os.socket (some fd)).2.close fd) = os := by
  rw [socket, close]
  dsimp only
  rw [List.erase_cons_head]

/-- A descriptor that was just opened is kept, or closed. -/
theorem sockets_socket (answer : Option ℕ) (os : Os) :
    ((os.socket answer).1 = -1 ∧ (os.socket answer).2 = os) ∨
      ∃ fd : ℕ, (os.socket answer).1 = fd ∧ (os.socket answer).2.sockets = (fd : ℤ) :: os.sockets
        ∧ (os.socket answer).2.close fd = os := by
  cases answer with
  | none => exact Or.inl ⟨rfl, rfl⟩
  | some fd => exact Or.inr ⟨fd, rfl, rfl, os.close_socket fd⟩

/-- The routes are no descriptors. -/
@[simp]
theorem sockets_siocAddRt (permitted : Bool) (route : UInt32 × Bytes) (os : Os) :
    (os.siocAddRt permitted route).2.sockets = os.sockets := by
  rw [siocAddRt]
  split
  · rfl
  · split <;> rfl

@[simp]
theorem sockets_siocDelRt (permitted : Bool) (route : UInt32 × Bytes) (os : Os) :
    (os.siocDelRt permitted route).2.sockets = os.sockets := by
  rw [siocDelRt]
  split
  · rfl
  · split <;> rfl

end Os

end S4LibLite.Network
