import Mathlib.Data.List.Nodup
import Mathlib.Data.List.Perm.Subperm

/-!
# Free lists over groups of slots

Groups are taken up and given back whole, slots one by one. The free list holds
the unused slots of the groups in use. A group whose slots are all on the list
is recognised by counting them.
-/

namespace Slab

variable {α β : Type}

/-- The slots of the groups in use: distinct, and each in the group it is home to. -/
structure Layout (home : β → α) (slots : α → List β) (groups : α → Prop) : Prop where
  nodup : ∀ a, groups a → (slots a).Nodup
  home : ∀ a b, groups a → b ∈ slots a → home b = a

/-- The free list holds each unused slot of the groups in use, once. -/
structure FreeList (slots : α → List β) (groups : α → Prop) (used : β → Prop)
    (free : List β) : Prop where
  nodup : free.Nodup
  exact : ∀ b, b ∈ free ↔ (∃ a, groups a ∧ b ∈ slots a) ∧ ¬ used b

variable {home : β → α} {slots : α → List β} {groups groups' : α → Prop}
  {used used' : β → Prop} {free : List β} {a : α} {b : β}

theorem FreeList.congr (h : FreeList slots groups used free)
    (hg : ∀ a, groups' a ↔ groups a)
    (hu : ∀ a b, groups a → b ∈ slots a → (used' b ↔ used b)) :
    FreeList slots groups' used' free := by
  refine ⟨h.nodup, fun b => ?_⟩
  rw [h.exact]
  simp only [hg]
  refine and_congr_right fun ⟨a, ha, hb⟩ => ?_
  rw [hu a b ha hb]

/-- A slot of a group not in use is not on the list. -/
theorem FreeList.not_mem_of_home (hl : Layout home slots groups)
    (h : FreeList slots groups used free) (ha : ¬ groups a) (hb : home b = a) : b ∉ free := by
  intro hmem
  obtain ⟨⟨c, hc, hbc⟩, -⟩ := (h.exact b).mp hmem
  exact ha (hb ▸ hl.home c b hc hbc ▸ hc)

theorem FreeList.pop (h : FreeList slots groups used (b :: free)) :
    FreeList slots groups (fun x => x = b ∨ used x) free := by
  obtain ⟨hnot, hnodup⟩ := List.nodup_cons.mp h.nodup
  refine ⟨hnodup, fun x => ?_⟩
  have hx := h.exact x
  by_cases hxb : x = b
  · subst hxb
    simp [hnot]
  · simp only [List.mem_cons, hxb, false_or] at hx ⊢
    exact hx

theorem FreeList.push (h : FreeList slots groups used free) (ha : groups a) (hs : b ∈ slots a)
    (hb : used b) : FreeList slots groups (fun x => x ≠ b ∧ used x) (free ++ [b]) := by
  have hnot : b ∉ free := fun hmem => ((h.exact b).mp hmem).2 hb
  refine ⟨List.nodup_append.mpr ⟨h.nodup, List.nodup_singleton b, ?_⟩, fun x => ?_⟩
  · rintro x hx y hy rfl
    rw [List.mem_singleton] at hy
    exact hnot (hy ▸ hx)
  · rw [List.mem_append, List.mem_singleton, h.exact]
    by_cases hxb : x = b
    · subst hxb
      simp only [or_true, ne_eq, not_true_eq_false, false_and, not_false_eq_true, and_true,
        true_iff]
      exact ⟨a, ha, hs⟩
    · simp [hxb]

/-- A new group brings all its slots. -/
theorem FreeList.grow (hl : Layout home slots fun x => x = a ∨ groups x)
    (h : FreeList slots groups used free) (ha : ¬ groups a) (hu : ∀ b ∈ slots a, ¬ used b) :
    FreeList slots (fun x => x = a ∨ groups x) used (free ++ slots a) := by
  have hold : Layout home slots groups :=
    ⟨fun c hc => hl.nodup c (.inr hc), fun c b hc => hl.home c b (.inr hc)⟩
  refine ⟨List.nodup_append.mpr ⟨h.nodup, hl.nodup a (.inl rfl), ?_⟩, fun x => ?_⟩
  · rintro x hx y hy rfl
    exact h.not_mem_of_home hold ha (hl.home a x (.inl rfl) hy) hx
  · rw [List.mem_append, h.exact]
    constructor
    · rintro (⟨⟨c, hc, hs⟩, hx⟩ | hx)
      · exact ⟨⟨c, .inr hc, hs⟩, hx⟩
      · exact ⟨⟨a, .inl rfl, hx⟩, hu x hx⟩
    · rintro ⟨⟨c, rfl | hc, hs⟩, hx⟩
      · exact .inr hs
      · exact .inl ⟨⟨c, hc, hs⟩, hx⟩

/-- A group whose slots are all free can leave with them. -/
theorem FreeList.shrink [DecidableEq β] (hl : Layout home slots groups)
    (h : FreeList slots groups used free) (ha : groups a) :
    FreeList slots (fun x => x ≠ a ∧ groups x) used (free.diff (slots a)) := by
  refine ⟨h.nodup.diff, fun x => ?_⟩
  rw [h.nodup.mem_sdiff_iff, h.exact]
  constructor
  · rintro ⟨⟨⟨c, hc, hs⟩, hx⟩, hnot⟩
    exact ⟨⟨c, ⟨fun hca => hnot (hca ▸ hs), hc⟩, hs⟩, hx⟩
  · rintro ⟨⟨c, ⟨hca, hc⟩, hs⟩, hx⟩
    exact ⟨⟨⟨c, hc, hs⟩, hx⟩, fun hsa => hca ((hl.home c x hc hs).symm.trans (hl.home a x ha hsa))⟩

variable [DecidableEq α]

/-- The number of a group's slots on the list. -/
def count (home : β → α) (free : List β) (a : α) : Nat := free.countP (home · = a)

@[simp] theorem count_nil (home : β → α) (a : α) : count home [] a = 0 := rfl

theorem count_cons (home : β → α) (free : List β) (a : α) (b : β) :
    count home (b :: free) a = count home free a + if home b = a then 1 else 0 := by
  simp [count, List.countP_cons]

theorem count_push (home : β → α) (free : List β) (a : α) (b : β) :
    count home (free ++ [b]) a = count home free a + if home b = a then 1 else 0 := by
  simp [count, List.countP_append, List.countP_cons]

theorem count_slots (hl : Layout home slots groups) (ha : groups a) (c : α) :
    count home (slots a) c = if c = a then (slots a).length else 0 := by
  unfold count
  by_cases hca : c = a
  · rw [if_pos hca, List.countP_eq_length]
    intro b hb
    simp [hl.home a b ha hb, hca]
  · rw [if_neg hca, List.countP_eq_zero]
    intro b hb
    simp [hl.home a b ha hb, Ne.symm hca]

/-- The slots of one group on the list are slots of the group. -/
theorem FreeList.filter_subset (hl : Layout home slots groups)
    (h : FreeList slots groups used free) : free.filter (home · = a) ⊆ slots a := by
  intro b hb
  rw [List.mem_filter, decide_eq_true_eq] at hb
  obtain ⟨⟨c, hc, hs⟩, -⟩ := (h.exact b).mp hb.1
  rwa [← hb.2, hl.home c b hc hs]

theorem FreeList.count_le (hl : Layout home slots groups)
    (h : FreeList slots groups used free) : count home free a ≤ (slots a).length := by
  unfold count
  rw [List.countP_eq_length_filter]
  exact (List.subperm_of_subset (h.nodup.filter _) (h.filter_subset hl)).length_le

/-- Counting finds a group that is free as a whole. -/
theorem FreeList.all_free (hl : Layout home slots groups)
    (h : FreeList slots groups used free)
    (hc : count home free a = (slots a).length) : ∀ b ∈ slots a, b ∈ free := by
  have hsub := List.subperm_of_subset (h.nodup.filter (home · = a)) (h.filter_subset hl)
  have hperm := hsub.perm_of_length_le (by
    rw [← List.countP_eq_length_filter]
    exact Nat.le_of_eq hc.symm)
  intro b hb
  exact (List.mem_filter.mp (hperm.mem_iff.mpr hb)).1

theorem FreeList.count_full (hl : Layout home slots groups)
    (h : FreeList slots groups used free) (ha : groups a) (hu : ∀ b ∈ slots a, ¬ used b) :
    count home free a = (slots a).length := by
  apply Nat.le_antisymm (h.count_le hl)
  unfold count
  rw [List.countP_eq_length_filter]
  refine (List.subperm_of_subset (hl.nodup a ha) fun b hb => ?_).length_le
  rw [List.mem_filter, decide_eq_true_eq]
  exact ⟨(h.exact b).mpr ⟨⟨a, ha, hb⟩, hu b hb⟩, hl.home a b ha hb⟩

theorem FreeList.count_shrink [DecidableEq β] (hl : Layout home slots groups)
    (h : FreeList slots groups used free) (ha : groups a) {c : α} (hc : c ≠ a) :
    count home (free.diff (slots a)) c = count home free c := by
  unfold count
  rw [h.nodup.sdiff_eq_filter, List.countP_filter]
  apply List.countP_congr
  intro b hb
  simp only [Bool.and_eq_true, decide_eq_true_eq, and_iff_left_iff_imp]
  rintro rfl hs
  exact hc (hl.home a b ha hs)

end Slab
