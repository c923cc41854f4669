import Mathlib.Logic.Function.Basic

/-!
# Stacks in a memory of words

A stack grows down, four bytes a word. The words of a list lie from an address on when the first
is at the address itself; of what has been pushed, the last is the first.
-/

namespace WordStack

variable {α : Type} {m m' : Nat → α} {a sp x : Nat} {v : α} {l l' : List α}

/-- The list lies in the memory from this address on. -/
def Lies (m : Nat → α) : Nat → List α → Prop
  | _, [] => True
  | a, v :: l => m a = v ∧ Lies m (a + 4) l

theorem lies_append : Lies m a (l ++ l') ↔ Lies m a l ∧ Lies m (a + 4 * l.length) l' := by
  induction l generalizing a with
  | nil => exact (true_and _).symm.to_iff
  | cons v l ih =>
    have hat : a + 4 + 4 * l.length = a + 4 * (v :: l).length := by
      rw [List.length_cons]
      omega
    simp only [List.cons_append, Lies, ih, hat, and_assoc]

/-- The list lies where the memory is copied to. -/
theorem Lies.move {b : Nat} (h : Lies m a l)
    (hsame : ∀ i, i < 4 * l.length → m' (b + i) = m (a + i)) : Lies m' b l := by
  induction l generalizing a b with
  | nil => trivial
  | cons v l ih =>
    rw [List.length_cons] at hsame
    refine ⟨(hsame 0 (by omega)).trans h.1, ih h.2 fun i hi => ?_⟩
    rw [Nat.add_assoc, Nat.add_assoc]
    exact hsame (4 + i) (by omega)

theorem Lies.congr (h : Lies m a l) (hsame : ∀ x, a ≤ x → x < a + 4 * l.length → m' x = m x) :
    Lies m' a l :=
  h.move fun i hi => hsame (a + i) (by omega) (by omega)

/-- One word is overwritten. -/
theorem Lies.set (h : Lies m a l) (i : Nat) (v : α) :
    Lies (Function.update m (a + 4 * i) v) a (l.set i v) := by
  induction l generalizing a i with
  | nil => trivial
  | cons u l ih =>
    cases i with
    | zero =>
      refine ⟨Function.update_self .., h.2.congr fun x hx _ => ?_⟩
      exact Function.update_of_ne (by omega) ..
    | succ i =>
      have hat : a + 4 * (i + 1) = a + 4 + 4 * i := by omega
      rw [hat]
      exact ⟨(Function.update_of_ne (by omega) ..).trans h.1, ih h.2 i⟩

/-- The memory after the words have been pushed one after the other. -/
def pushes (m : Nat → α) (sp : Nat) : List α → Nat → α
  | [] => m
  | v :: l => pushes (Function.update m (sp - 4) v) (sp - 4) l

theorem pushes_append (m : Nat → α) (sp : Nat) (l l' : List α) :
    pushes m sp (l ++ l') = pushes (pushes m sp l) (sp - 4 * l.length) l' := by
  induction l generalizing m sp with
  | nil => rfl
  | cons v l ih =>
    rw [List.cons_append, pushes, ih, pushes, List.length_cons]
    congr 1
    omega

/-- Only the words below the stack pointer change. -/
theorem pushes_out (hroom : 4 * l.length ≤ sp) (hx : sp ≤ x ∨ x < sp - 4 * l.length) :
    pushes m sp l x = m x := by
  induction l generalizing m sp with
  | nil => rfl
  | cons v l ih =>
    rw [List.length_cons] at hroom hx
    rw [pushes, ih (by omega) (by omega)]
    exact Function.update_of_ne (by omega) ..

theorem pushes_lies (m : Nat → α) (hroom : 4 * l.length ≤ sp) :
    Lies (pushes m sp l) (sp - 4 * l.length) l.reverse := by
  induction l generalizing m sp with
  | nil => trivial
  | cons v l ih =>
    rw [List.length_cons] at hroom
    rw [List.reverse_cons, lies_append, List.length_reverse, List.length_cons]
    have hfrom : sp - 4 * (l.length + 1) = sp - 4 - 4 * l.length := by omega
    have hlast : sp - 4 - 4 * l.length + 4 * l.length = sp - 4 := by omega
    rw [hfrom, hlast]
    refine ⟨ih _ (by omega), ?_, trivial⟩
    rw [pushes, pushes_out (by omega) (.inl (Nat.le_refl _))]
    exact Function.update_self ..

/-- The memory with the list at an address. -/
def place (m : Nat → α) : Nat → List α → Nat → α
  | _, [] => m
  | a, v :: l => Function.update (place m (a + 4) l) a v

theorem place_out (h : x < a ∨ a + 4 * l.length ≤ x) : place m a l x = m x := by
  induction l generalizing a with
  | nil => rfl
  | cons v l ih =>
    rw [List.length_cons] at h
    rw [place, Function.update_of_ne (by omega), ih (by omega)]

theorem place_lies (m : Nat → α) (a : Nat) (l : List α) : Lies (place m a l) a l := by
  induction l generalizing a with
  | nil => trivial
  | cons v l ih =>
    refine ⟨Function.update_self .., (ih (a + 4)).congr fun x hx _ => ?_⟩
    exact Function.update_of_ne (by omega) ..

end WordStack
