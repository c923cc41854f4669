import Mathlib.Data.Finset.Card
import Mathlib.Data.Finset.Insert

/-!
# A grid of slots

Each slot of a finite grid holds a value or is free. A value is put into a free slot, a slot
that holds one is cleared, and the slots in use follow.
-/

namespace Slots

variable {ι α κ : Type} {grid : Finset ι} {f g : ι → Option α} {p q : ι} {a b : α}

/-- The slots in use. -/
def occupied (grid : Finset ι) (f : ι → Option α) : Finset ι := grid.filter fun p => (f p).isSome

theorem mem_occupied : p ∈ occupied grid f ↔ p ∈ grid ∧ ∃ a, f p = some a := by
  rw [occupied, Finset.mem_filter, Option.isSome_iff_exists]

/-- A value goes into a free slot. -/
structure Put (grid : Finset ι) (f g : ι → Option α) (p : ι) (a : α) : Prop where
  mem : p ∈ grid
  free : f p = none
  self : g p = some a
  other : ∀ q ∈ grid, q ≠ p → g q = f q

/-- A slot is cleared. -/
structure Cleared (grid : Finset ι) (f g : ι → Option α) (p : ι) (a : α) : Prop where
  mem : p ∈ grid
  taken : f p = some a
  self : g p = none
  other : ∀ q ∈ grid, q ≠ p → g q = f q

/-- No two slots of `P` have one key. -/
def KeyOnce (grid : Finset ι) (f : ι → Option α) (key : α → κ) (P : α → Prop) : Prop :=
  ∀ p ∈ grid, ∀ q ∈ grid, ∀ a b, f p = some a → f q = some b → P a → P b → key a = key b → p = q

/-- Values of `P` lie in the slots of `R` alone. -/
def Within (grid : Finset ι) (f : ι → Option α) (P : α → Prop) (R : ι → Prop) : Prop :=
  ∀ p ∈ grid, ∀ a, f p = some a → P a → R p

/-- The slots in use are among these. -/
theorem card_le_length [DecidableEq ι] (l : List ι) (hl : ∀ p ∈ grid, (f p).isSome → p ∈ l) :
    (occupied grid f).card ≤ l.length := by
  apply (Finset.card_le_card _).trans l.toFinset_card_le
  intro p hp
  obtain ⟨hp, hsome⟩ := Finset.mem_filter.mp hp
  exact List.mem_toFinset.mpr (hl p hp hsome)

/-- It is enough to look at the slots in use. -/
theorem KeyOnce.of_list {key : α → κ} {P : α → Prop} (l : List ι)
    (hl : ∀ p ∈ grid, (f p).isSome → p ∈ l)
    (h : ∀ p ∈ l, ∀ q ∈ l, ∀ a ∈ f p, ∀ b ∈ f q, P a → P b → key a = key b → p = q) :
    KeyOnce grid f key P := by
  intro p hp q hq a b ha hb
  have hpl := hl p hp (Option.isSome_iff_exists.mpr ⟨a, ha⟩)
  have hql := hl q hq (Option.isSome_iff_exists.mpr ⟨b, hb⟩)
  exact h p hpl q hql a ha b hb

namespace Put

/-- What a slot holds afterwards it held before, or it is the new value. -/
theorem cases (h : Put grid f g p a) (hq : q ∈ grid) (hb : g q = some b) :
    q = p ∧ b = a ∨ q ≠ p ∧ f q = some b := by
  by_cases hqp : q = p
  · subst hqp
    rw [h.self] at hb
    exact .inl ⟨rfl, (Option.some.inj hb).symm⟩
  · rw [h.other q hq hqp] at hb
    exact .inr ⟨hqp, hb⟩

theorem keeps (h : Put grid f g p a) (hq : q ∈ grid) (hb : f q = some b) : g q = some b := by
  rw [h.other q hq, hb]
  rintro rfl
  rw [h.free] at hb
  cases hb

theorem keyOnce {key : α → κ} {P : α → Prop} (h : Put grid f g p a) (hf : KeyOnce grid f key P)
    (hnew : ∀ q ∈ grid, ∀ b, f q = some b → P b → key b ≠ key a) : KeyOnce grid g key P := by
  intro q hq r hr b c hb hc hPb hPc hkey
  obtain ⟨rfl, rfl⟩ | ⟨-, hb⟩ := h.cases hq hb
  · obtain ⟨rfl, -⟩ | ⟨-, hc⟩ := h.cases hr hc
    · rfl
    · exact absurd hkey.symm (hnew r hr c hc hPc)
  · obtain ⟨rfl, rfl⟩ | ⟨-, hc⟩ := h.cases hr hc
    · exact absurd hkey (hnew q hq b hb hPb)
    · exact hf q hq r hr b c hb hc hPb hPc hkey

theorem within {P : α → Prop} {R : ι → Prop} (h : Put grid f g p a) (hf : Within grid f P R)
    (hnew : P a → R p) : Within grid g P R := by
  intro q hq b hb hP
  obtain ⟨rfl, rfl⟩ | ⟨-, hb⟩ := h.cases hq hb
  · exact hnew hP
  · exact hf q hq b hb hP

theorem occupied [DecidableEq ι] (h : Put grid f g p a) :
    occupied grid g = insert p (occupied grid f) := by
  ext q
  rw [Finset.mem_insert, mem_occupied, mem_occupied]
  constructor
  · rintro ⟨hq, b, hb⟩
    obtain ⟨rfl, -⟩ | ⟨-, hb⟩ := h.cases hq hb
    · exact .inl rfl
    · exact .inr ⟨hq, b, hb⟩
  · rintro (rfl | ⟨hq, b, hb⟩)
    · exact ⟨h.mem, a, h.self⟩
    · exact ⟨hq, b, h.keeps hq hb⟩

/-- One slot more is in use. -/
theorem card (h : Put grid f g p a) :
    (Slots.occupied grid g).card = (Slots.occupied grid f).card + 1 := by
  classical
  rw [h.occupied, Finset.card_insert_of_notMem]
  intro hp
  obtain ⟨-, b, hb⟩ := mem_occupied.mp hp
  rw [h.free] at hb
  cases hb

end Put

namespace Cleared

theorem cases (h : Cleared grid f g p a) (hq : q ∈ grid) (hb : g q = some b) :
    q ≠ p ∧ f q = some b := by
  have hqp : q ≠ p := by
    rintro rfl
    rw [h.self] at hb
    cases hb
  rw [h.other q hq hqp] at hb
  exact ⟨hqp, hb⟩

theorem keeps (h : Cleared grid f g p a) (hq : q ∈ grid) (hqp : q ≠ p) (hb : f q = some b) :
    g q = some b := by
  rw [h.other q hq hqp, hb]

theorem keyOnce {key : α → κ} {P : α → Prop} (h : Cleared grid f g p a)
    (hf : KeyOnce grid f key P) : KeyOnce grid g key P := by
  intro q hq r hr b c hb hc
  exact hf q hq r hr b c (h.cases hq hb).2 (h.cases hr hc).2

theorem within {P : α → Prop} {R : ι → Prop} (h : Cleared grid f g p a)
    (hf : Within grid f P R) : Within grid g P R := by
  intro q hq b hb
  exact hf q hq b (h.cases hq hb).2

theorem occupied [DecidableEq ι] (h : Cleared grid f g p a) :
    occupied grid g = (occupied grid f).erase p := by
  ext q
  rw [Finset.mem_erase, mem_occupied, mem_occupied]
  constructor
  · rintro ⟨hq, b, hb⟩
    obtain ⟨hqp, hb⟩ := h.cases hq hb
    exact ⟨hqp, hq, b, hb⟩
  · rintro ⟨hqp, hq, b, hb⟩
    exact ⟨hq, b, h.keeps hq hqp hb⟩

/-- One slot less is in use. -/
theorem card (h : Cleared grid f g p a) :
    (Slots.occupied grid g).card + 1 = (Slots.occupied grid f).card := by
  classical
  rw [h.occupied]
  exact Finset.card_erase_add_one (mem_occupied.mpr ⟨h.mem, a, h.taken⟩)

end Cleared

end Slots
