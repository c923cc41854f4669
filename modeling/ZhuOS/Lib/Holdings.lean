import Mathlib.Data.List.Nodup
import Mathlib.Logic.Function.Basic

/-!
# What several parties hold

Each party collects resources of its own and at last hands what it has collected over to
a common list. `Apart` says that nothing is there twice, in one hand or in two; what is
`Held` may only be collected once more after it was given up.
-/

namespace Holdings

variable {ι α : Type}

/-- A resource is on the common list or in some party's hands. -/
def Held (common : List α) (own : ι → List α) (x : α) : Prop := x ∈ common ∨ ∃ i, x ∈ own i

structure Apart (common : List α) (own : ι → List α) : Prop where
  commonOnce : common.Nodup
  ownOnce : ∀ i, (own i).Nodup
  both : ∀ i, (own i).Disjoint common
  others : ∀ i j, i ≠ j → (own i).Disjoint (own j)

theorem Apart.nothing : Apart [] fun _ : ι => ([] : List α) := by
  constructor
  · exact .nil
  · exact fun _ => .nil
  · exact fun _ => List.disjoint_nil_left _
  · exact fun _ _ _ => List.disjoint_nil_left _

variable [DecidableEq ι] {common : List α} {own : ι → List α} {i : ι} {x y : α} {l : List α}

/-- A party's hands may change as long as they stay apart from the rest. -/
theorem Apart.change (h : Apart common own) (hl : l.Nodup) (hboth : l.Disjoint common)
    (hothers : ∀ j, j ≠ i → l.Disjoint (own j)) : Apart common (Function.update own i l) := by
  have hcases : ∀ j, j = i ∧ Function.update own i l j = l ∨
      j ≠ i ∧ Function.update own i l j = own j := by
    intro j
    by_cases hj : j = i
    · subst hj
      exact .inl ⟨rfl, Function.update_self ..⟩
    · exact .inr ⟨hj, Function.update_of_ne hj ..⟩
  constructor
  · exact h.commonOnce
  · intro j
    rcases hcases j with ⟨-, hj⟩ | ⟨-, hj⟩
    · rw [hj]
      exact hl
    · rw [hj]
      exact h.ownOnce j
  · intro j
    rcases hcases j with ⟨-, hj⟩ | ⟨-, hj⟩
    · rw [hj]
      exact hboth
    · rw [hj]
      exact h.both j
  · intro j k hjk
    rcases hcases j with ⟨hji, hj⟩ | ⟨hji, hj⟩ <;> rcases hcases k with ⟨hki, hk⟩ | ⟨hki, hk⟩
    · exact absurd (hji.trans hki.symm) hjk
    · rw [hj, hk]
      exact hothers k hki
    · rw [hj, hk]
      exact List.disjoint_symm (hothers j hji)
    · rw [hj, hk]
      exact h.others j k hjk

theorem Apart.take (h : Apart common own) (hx : ¬ Held common own x) :
    Apart common (Function.update own i (x :: own i)) := by
  apply h.change
  · exact List.nodup_cons.mpr ⟨fun hi => hx (.inr ⟨i, hi⟩), h.ownOnce i⟩
  · exact List.disjoint_cons_left.mpr ⟨fun hc => hx (.inl hc), h.both i⟩
  · intro j hj
    exact List.disjoint_cons_left.mpr ⟨fun hm => hx (.inr ⟨j, hm⟩), h.others i j hj.symm⟩

theorem Apart.drop (h : Apart common own) : Apart common (Function.update own i []) := by
  apply h.change
  · exact .nil
  · exact List.disjoint_nil_left _
  · exact fun _ _ => List.disjoint_nil_left _

/-- A party hands over all it has. -/
theorem Apart.hand (h : Apart common own) :
    Apart (own i ++ common) (Function.update own i []) := by
  constructor
  · exact List.nodup_append'.mpr ⟨h.ownOnce i, h.commonOnce, h.both i⟩
  · exact h.drop.ownOnce
  · intro j
    by_cases hj : j = i
    · subst hj
      rw [Function.update_self]
      exact List.disjoint_nil_left _
    · rw [Function.update_of_ne hj]
      exact List.disjoint_append_right.mpr ⟨h.others j i hj, h.both j⟩
  · exact h.drop.others

theorem held_take (h : Held common (Function.update own i (x :: own i)) y) :
    y = x ∨ Held common own y := by
  rcases h with hc | ⟨j, hj⟩
  · exact .inr (.inl hc)
  · by_cases hji : j = i
    · subst hji
      rw [Function.update_self] at hj
      rcases List.mem_cons.mp hj with rfl | hj
      · exact .inl rfl
      · exact .inr (.inr ⟨j, hj⟩)
    · rw [Function.update_of_ne hji] at hj
      exact .inr (.inr ⟨j, hj⟩)

theorem held_drop (h : Held common (Function.update own i []) y) : Held common own y := by
  rcases h with hc | ⟨j, hj⟩
  · exact .inl hc
  · by_cases hji : j = i
    · subst hji
      rw [Function.update_self] at hj
      cases hj
    · rw [Function.update_of_ne hji] at hj
      exact .inr ⟨j, hj⟩

theorem held_hand (h : Held (own i ++ common) (Function.update own i []) y) :
    Held common own y := by
  rcases h with hc | hj
  · rcases List.mem_append.mp hc with hi | hc
    · exact .inr ⟨i, hi⟩
    · exact .inl hc
  · exact held_drop (i := i) (.inr hj)

end Holdings
