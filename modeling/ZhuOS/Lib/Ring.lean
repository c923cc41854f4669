import Mathlib.Algebra.Group.Fin.Basic
import Mathlib.Logic.Function.Basic

/-!
# Ring buffers

A ring of `n + 1` cells with a write position `head` and a read position `tail`
holds the cells from `tail` up to `head`, and one cell stays free: the ring is empty
when the two meet, and full when the next write would make them meet.
-/

namespace Ring

variable {α : Type} {n : Nat}

/-- What is held, the oldest first. -/
def held (buf : Fin (n + 1) → α) (head tail : Fin (n + 1)) : List α :=
  (List.range (head - tail).val).map fun i => buf (tail + Fin.ofNat (n + 1) i)

variable (buf : Fin (n + 1) → α) (head tail : Fin (n + 1))

@[simp] theorem length_held : (held buf head tail).length = (head - tail).val := by
  simp [held]

theorem length_held_le : (held buf head tail).length ≤ n := by
  rw [length_held]
  exact Nat.le_of_lt_succ (head - tail).isLt

theorem held_eq_nil : held buf head tail = [] ↔ head = tail := by
  rw [← List.length_eq_zero_iff, length_held, Fin.val_eq_zero_iff, sub_eq_zero]

/-- The step of a difference that does not wrap. -/
theorem val_succ {k : Fin (n + 1)} (h : k + 1 ≠ 0) : (k + 1).val = k.val + 1 := by
  rw [Fin.val_add_one, if_neg]
  rintro rfl
  exact h (Fin.last_add_one n)

theorem full_iff : head + 1 = tail ↔ (held buf head tail).length = n := by
  rw [length_held]
  constructor
  · rintro rfl
    have hk : head - (head + 1) = Fin.last n := by
      rw [← sub_sub, sub_self, zero_sub, neg_eq_iff_add_eq_zero, add_comm 1 (Fin.last n),
        Fin.last_add_one]
    rw [hk, Fin.val_last]
  · intro hk
    have hlast : head - tail = Fin.last n := Fin.ext hk
    rw [← sub_eq_zero, add_sub_right_comm, hlast, Fin.last_add_one]

/-- A write at `head` comes last, and leaves the others. -/
theorem held_write (a : α) (h : head + 1 ≠ tail) :
    held (Function.update buf head a) (head + 1) tail = held buf head tail ++ [a] := by
  have hne : head - tail + 1 ≠ 0 := by
    rw [← add_sub_right_comm]
    exact sub_ne_zero.mpr h
  have hk : (head + 1 - tail).val = (head - tail).val + 1 := by
    rw [add_sub_right_comm]
    exact val_succ hne
  have hlast : tail + Fin.ofNat (n + 1) (head - tail).val = head := by
    rw [Fin.ofNat_val_eq_self, add_sub_cancel]
  have hother : ∀ i ∈ List.range (head - tail).val,
      Function.update buf head a (tail + Fin.ofNat (n + 1) i) =
        buf (tail + Fin.ofNat (n + 1) i) := by
    intro i hi
    refine Function.update_of_ne (fun he => ?_) a buf
    have hi := List.mem_range.mp hi
    have heq : Fin.ofNat (n + 1) i = head - tail := by rw [← he, add_sub_cancel_left]
    have hval := congrArg Fin.val heq
    rw [Fin.val_ofNat, Nat.mod_eq_of_lt (hi.trans (head - tail).isLt)] at hval
    omega
  unfold held
  rw [hk, List.range_succ, List.map_append, List.map_congr_left hother, List.map_singleton, hlast,
    Function.update_self]

/-- A read at `tail` takes the first. -/
theorem held_read (h : head ≠ tail) :
    held buf head tail = buf tail :: held buf head (tail + 1) := by
  have hk : (head - tail).val = (head - (tail + 1)).val + 1 := by
    have hsub : head - tail = head - (tail + 1) + 1 := by
      rw [← sub_sub, sub_add_cancel]
    rw [hsub]
    exact val_succ (hsub ▸ sub_ne_zero.mpr h)
  have hnext : ∀ i, tail + Fin.ofNat (n + 1) (i + 1) = tail + 1 + Fin.ofNat (n + 1) i := by
    intro i
    rw [add_assoc]
    congr 1
    ext
    simp [Fin.val_add, Nat.add_comm]
  unfold held
  rw [hk, List.range_succ_eq_map, List.map_cons, List.map_map]
  refine List.cons_eq_cons.mpr ⟨?_, List.map_congr_left fun i _ => congrArg buf (hnext i)⟩
  exact congrArg buf (add_zero tail)

end Ring
