import Mathlib.Data.List.Induction

/-!
# Trees of names

Objects, and names that lead from one to another. Where at most one name leads to an object, and
none to the root, an object has one path. An object that comes or goes with one name changes the
answer for its own path alone.
-/

namespace NameTree

variable {σ κ : Type} {g g' : σ → κ → Option σ} {D : σ → Prop} {r s t p : σ} {k : κ}
  {ks ks' front : List κ}

/-- Where the names lead, one after the other. -/
def follow (g : σ → κ → Option σ) (s : σ) : List κ → Option σ
  | [] => some s
  | k :: ks => (g s k).bind fun t => follow g t ks

theorem follow_append (s : σ) (ks ks' : List κ) :
    follow g s (ks ++ ks') = (follow g s ks).bind fun t => follow g t ks' := by
  induction ks generalizing s with
  | nil => rfl
  | cons k ks ih =>
    rw [List.cons_append, follow, follow, Option.bind_assoc]
    exact congrArg _ (funext ih)

theorem follow_snoc (s : σ) (ks : List κ) (k : κ) :
    follow g s (ks ++ [k]) = (follow g s ks).bind fun t => g t k := by
  rw [follow_append]
  apply congrArg
  funext t
  exact Option.bind_fun_some (g t k)

/-- The objects `D` below the root `r`: one name leads to each of them at most, to `r` none. -/
structure Rooted (g : σ → κ → Option σ) (r : σ) (D : σ → Prop) : Prop where
  root : D r
  closed : ∀ s k t, D s → g s k = some t → D t
  once : ∀ s s' k k' t, D s → D s' → g s k = some t → g s' k' = some t → s = s' ∧ k = k'
  notRoot : ∀ s k, D s → g s k ≠ some r

namespace Rooted

variable (h : Rooted g r D)
include h

theorem inside (hs : follow g r ks = some s) : D s := by
  induction ks using List.reverseRecOn generalizing s with
  | nil =>
    cases hs
    exact h.root
  | append_singleton ks k ih =>
    rw [follow_snoc, Option.bind_eq_some_iff] at hs
    obtain ⟨u, hu, hstep⟩ := hs
    exact h.closed u k s (ih hu) hstep

/-- An object has one path. The induction is on its last name. -/
theorem unique (hs : follow g r ks = some s) (hs' : follow g r ks' = some s) : ks = ks' := by
  induction ks using List.reverseRecOn generalizing s ks' with
  | nil =>
    obtain rfl : r = s := Option.some.inj hs
    cases ks' using List.reverseRecOn with
    | nil => rfl
    | append_singleton ks' k' =>
      rw [follow_snoc, Option.bind_eq_some_iff] at hs'
      obtain ⟨u, hu, hstep⟩ := hs'
      exact absurd hstep (h.notRoot u k' (h.inside hu))
  | append_singleton ks k ih =>
    rw [follow_snoc, Option.bind_eq_some_iff] at hs
    obtain ⟨u, hu, hstep⟩ := hs
    cases ks' using List.reverseRecOn with
    | nil =>
      obtain rfl : r = s := Option.some.inj hs'
      exact absurd hstep (h.notRoot u k (h.inside hu))
    | append_singleton ks' k' =>
      rw [follow_snoc, Option.bind_eq_some_iff] at hs'
      obtain ⟨u', hu', hstep'⟩ := hs'
      obtain ⟨rfl, rfl⟩ := h.once u u' k k' s (h.inside hu) (h.inside hu') hstep hstep'
      rw [ih hu hu']

end Rooted

/-- `g'` has one object more than `g`: `t`, which has no names in it, under the name `k` in `p`. -/
structure Grown (g g' : σ → κ → Option σ) (D : σ → Prop) (p : σ) (k : κ) (t : σ) : Prop where
  free : g p k = none
  edge : g' p k = some t
  other : ∀ s k', D s → ¬ (s = p ∧ k' = k) → g' s k' = g s k'
  leaf : ∀ k', g' t k' = none

namespace Grown

variable (hg : Grown g g' D p k t) (h : Rooted g r D)
include hg h

/-- The path of the new object leads to it, every other path where it led. -/
theorem follow (hp : NameTree.follow g r front = some p) (ks : List κ) [Decidable (ks = front ++ [k])] :
    NameTree.follow g' r ks =
      if ks = front ++ [k] then some t else NameTree.follow g r ks := by
  classical
  suffices hall : ∀ ks, NameTree.follow g' r ks =
      if ks = front ++ [k] then some t else NameTree.follow g r ks by
    rw [hall ks]
    congr
  intro ks
  induction ks using List.reverseRecOn with
  | nil => rw [if_neg (by simp), NameTree.follow, NameTree.follow]
  | append_singleton ks k' ih =>
    rw [follow_snoc, follow_snoc, ih]
    by_cases hks : ks = front ++ [k]
    · have hlong : ks ++ [k'] ≠ front ++ [k] := by
        intro he
        have := congrArg List.length he
        rw [hks] at this
        simp at this
      have hnone : NameTree.follow g r ks = none := by
        rw [hks, follow_snoc, hp]
        exact hg.free
      rw [if_pos hks, if_neg hlong, hnone]
      exact hg.leaf k'
    · rw [if_neg hks]
      cases hs : NameTree.follow g r ks with
      | none =>
        have hnot : ks ++ [k'] ≠ front ++ [k] := by
          intro he
          rw [(List.append_inj' he rfl).1, hp] at hs
          cases hs
        rw [if_neg hnot]
        rfl
      | some s =>
        rw [Option.bind_some, Option.bind_some]
        by_cases hedge : s = p ∧ k' = k
        · obtain ⟨rfl, rfl⟩ := hedge
          rw [if_pos (by rw [h.unique hs hp]), hg.edge]
        · have hnot : ks ++ [k'] ≠ front ++ [k] := by
            intro he
            obtain ⟨rfl, hk⟩ := List.append_inj' he rfl
            rw [hp] at hs
            exact hedge ⟨(Option.some.inj hs).symm, (List.cons.inj hk).1⟩
          rw [if_neg hnot, hg.other s k' (h.inside hs) hedge]

end Grown

/-- What is found with the new object, and is not it, was found without it. -/
theorem Grown.before (hg : Grown g g' D p k t) (h : Rooted g r D)
    (hs : NameTree.follow g' r ks = some s) (hst : s ≠ t) : NameTree.follow g r ks = some s := by
  induction ks using List.reverseRecOn generalizing s with
  | nil => exact hs
  | append_singleton ks k' ih =>
    rw [follow_snoc, Option.bind_eq_some_iff] at hs
    obtain ⟨u, hu, hstep⟩ := hs
    have hut : u ≠ t := by
      rintro rfl
      rw [hg.leaf] at hstep
      cases hstep
    have hold := ih hu hut
    have hedge : ¬ (u = p ∧ k' = k) := by
      rintro ⟨rfl, rfl⟩
      rw [hg.edge] at hstep
      exact hst (Option.some.inj hstep).symm
    rw [hg.other u k' (h.inside hold) hedge] at hstep
    rw [follow_snoc, hold]
    exact hstep

/-- Each of these objects has a path. -/
def Reached (g : σ → κ → Option σ) (r : σ) (D : σ → Prop) : Prop :=
  ∀ s, D s → ∃ ks, follow g r ks = some s

theorem Grown.reached (hg : Grown g g' D p k t) (h : Rooted g r D)
    (hp : NameTree.follow g r front = some p) (hr : Reached g r D) :
    Reached g' r fun s => D s ∨ s = t := by
  classical
  rintro s (hs | rfl)
  · obtain ⟨ks, hks⟩ := hr s hs
    refine ⟨ks, ?_⟩
    have hold : ks ≠ front ++ [k] := by
      rintro rfl
      rw [follow_snoc, hp] at hks
      exact absurd (hg.free.symm.trans hks) (Option.some_ne_none s).symm
    rw [hg.follow h hp, if_neg hold, hks]
  · exact ⟨front ++ [k], by rw [hg.follow h hp, if_pos rfl]⟩

end NameTree
