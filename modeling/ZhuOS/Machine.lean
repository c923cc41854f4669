import Mathlib.Algebra.Group.Nat.Defs
import Mathlib.Data.Nat.Basic

/-!
# How the kernel stops

The model's functions return `Except Fault`: a value, or the way the run ends
before the function returns. Arithmetic on `uint32_t` is `Nat` with `u32` at the
places where it can wrap, or `UInt32` where the source stores the value.
-/

namespace ZhuOS

/-- The ways a kernel function does not return. -/
inductive Fault
  /-- an `ASSERT` failed, or `PANIC` was called -/
  | panic
  /-- an access through an absent page, a `NULL` or a dangling pointer -/
  | badAddress
  /-- an access outside an array -/
  | outOfBounds
  /-- a division by zero -/
  | divideError
  /-- a loop that is never left -/
  | stuck
  deriving DecidableEq, Repr

/-- `ASSERT(c)`: `panic_spin` never returns. -/
def ASSERT (c : Prop) [Decidable c] : Except Fault Unit :=
  if c then .ok () else .error .panic

def u32 (n : Nat) : Nat := n % 2 ^ 32

@[simp] theorem ASSERT_true {c : Prop} [Decidable c] (h : c) : ASSERT c = .ok () := if_pos h

@[simp] theorem ASSERT_false {c : Prop} [Decidable c] (h : ¬ c) : ASSERT c = .error .panic :=
  if_neg h

theorem ASSERT_ok {c : Prop} [Decidable c] {u : Unit} (h : ASSERT c = .ok u) : c := by
  by_cases hc : c
  · exact hc
  · simp [hc] at h

theorem u32_lt (n : Nat) : u32 n < 2 ^ 32 := Nat.mod_lt _ (by decide)

theorem u32_eq {n : Nat} (h : n < 2 ^ 32) : u32 n = n := Nat.mod_eq_of_lt h

/-- A computation that returned ran each of its parts. -/
theorem bind_ok {α β : Type} {x : Except Fault α} {f : α → Except Fault β} {b : β} :
    x >>= f = .ok b ↔ ∃ a, x = .ok a ∧ f a = .ok b := by
  cases x with
  | error e =>
    constructor
    · intro h; cases h
    · rintro ⟨_, h, _⟩; cases h
  | ok a =>
    constructor
    · exact fun h => ⟨a, rfl, h⟩
    · rintro ⟨_, h, hf⟩; cases h; exact hf

/-- A computation that is evaluated, and a check of its result. -/
theorem ok_of_check {α : Type} {x : Except Fault α} {p : α → Bool}
    (h : x.toOption.any p = true) : ∃ a, x = .ok a ∧ p a = true := by
  cases x with
  | error e => cases h
  | ok a => exact ⟨a, rfl, h⟩

@[simp] theorem ok_bind {α β : Type} (a : α) (f : α → Except Fault β) :
    (Except.ok a >>= f) = f a := rfl

@[simp] theorem error_bind {α β : Type} (e : Fault) (f : α → Except Fault β) :
    (Except.error e >>= f) = .error e := rfl

end ZhuOS
