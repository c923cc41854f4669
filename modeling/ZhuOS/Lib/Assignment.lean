import Mathlib.Logic.Function.Basic

/-!
# Assigning each owner a resource of its own

A partial map from owners to resources that never gives one resource to two
owners. `taken_assign` and `taken_release` say how the set of resources in use
follows the map.
-/

namespace Assignment

variable {α β : Type}

/-- No resource has two owners. -/
def Distinct (f : α → Option β) : Prop := ∀ a b r, f a = some r → f b = some r → a = b

def Taken (f : α → Option β) (r : β) : Prop := ∃ a, f a = some r

variable [DecidableEq α] {f : α → Option β} {a : α} {r : β}

theorem Distinct.assign (hf : Distinct f) (hr : ¬ Taken f r) :
    Distinct (Function.update f a (some r)) := by
  intro b c s hb hc
  by_cases hba : b = a <;> by_cases hca : c = a
  · rw [hba, hca]
  · subst hba
    rw [Function.update_self] at hb
    rw [Function.update_of_ne hca] at hc
    cases hb
    exact absurd ⟨c, hc⟩ hr
  · subst hca
    rw [Function.update_self] at hc
    rw [Function.update_of_ne hba] at hb
    cases hc
    exact absurd ⟨b, hb⟩ hr
  · rw [Function.update_of_ne hba] at hb
    rw [Function.update_of_ne hca] at hc
    exact hf b c s hb hc

theorem Distinct.release (hf : Distinct f) : Distinct (Function.update f a none) := by
  intro b c s hb hc
  have hba : b ≠ a := by rintro rfl; simp at hb
  have hca : c ≠ a := by rintro rfl; simp at hc
  rw [Function.update_of_ne hba] at hb
  rw [Function.update_of_ne hca] at hc
  exact hf b c s hb hc

theorem taken_assign (ha : f a = none) (s : β) :
    Taken (Function.update f a (some r)) s ↔ s = r ∨ Taken f s := by
  constructor
  · rintro ⟨b, hb⟩
    by_cases hba : b = a
    · subst hba
      rw [Function.update_self] at hb
      cases hb
      exact .inl rfl
    · rw [Function.update_of_ne hba] at hb
      exact .inr ⟨b, hb⟩
  · rintro (rfl | ⟨b, hb⟩)
    · exact ⟨a, Function.update_self ..⟩
    · have hba : b ≠ a := by rintro rfl; simp [ha] at hb
      exact ⟨b, by rw [Function.update_of_ne hba]; exact hb⟩

theorem taken_release (hf : Distinct f) (ha : f a = some r) (s : β) :
    Taken (Function.update f a none) s ↔ s ≠ r ∧ Taken f s := by
  constructor
  · rintro ⟨b, hb⟩
    have hba : b ≠ a := by rintro rfl; simp at hb
    rw [Function.update_of_ne hba] at hb
    exact ⟨fun hs => hba (hf b a r (hs ▸ hb) ha), b, hb⟩
  · rintro ⟨hs, b, hb⟩
    have hba : b ≠ a := by
      rintro rfl
      rw [ha] at hb
      exact hs (Option.some.inj hb).symm
    exact ⟨b, by rw [Function.update_of_ne hba]; exact hb⟩

end Assignment
