import Mathlib.Data.List.Chain
import Mathlib.Data.List.Nodup
import Mathlib.Logic.Function.Basic

/-!
# Doubly linked chains

Nodes in a heap, each with a link to the node before it and a link to the node behind it.
A path is a list of distinct nodes whose neighbours link to each other. Joining two paths
changes the two links between them; taking a node out and putting one in are joins.
-/

namespace Chain

structure Node (α : Type) where
  prev : α
  next : α

variable {α ρ σ : Type}

/-- The links between two neighbours, there and back. -/
def Linked (m : α → Node α) (a b : α) : Prop := (m a).next = b ∧ (m b).prev = a

structure Path (m : α → Node α) (l : List α) : Prop where
  linked : l.IsChain (Linked m)
  nodup : l.Nodup

/-- Only the last node's link forward and the first node's link back are free. -/
theorem isChain_imp_of_inner {R S : α → α → Prop} {l : List α} (h : l.IsChain R)
    (hi : ∀ a b, a ∈ l.dropLast → b ∈ l.tail → R a b → S a b) : l.IsChain S := by
  induction h with
  | nil => exact .nil
  | singleton a => exact .singleton a
  | @cons_cons a b l hr _ ih =>
    apply List.IsChain.cons_cons
    · exact hi a b (by simp) (by simp) hr
    · apply ih
      intro c d hc hd
      exact hi c d (by simp [hc]) (List.mem_of_mem_tail hd)

namespace Path

variable {m m' : α → Node α} {l u v : List α} {a b p n e : α}

theorem congr (h : Path m l) (hl : ∀ a ∈ l, m' a = m a) : Path m' l := by
  constructor
  · apply h.linked.imp_of_mem_imp
    intro a b ha hb hab
    rw [Linked, hl a ha, hl b hb]
    exact hab
  · exact h.nodup

theorem singleton (m : α → Node α) (a : α) : Path m [a] := by
  constructor
  · exact .singleton a
  · exact List.nodup_singleton a

/-- A path ends and another begins at every node of it. -/
theorem split (h : Path m (u ++ v)) : Path m u ∧ Path m v ∧ u.Disjoint v := by
  obtain ⟨h₁, h₂, -⟩ := List.isChain_append.mp h.linked
  obtain ⟨hn₁, hn₂, hd⟩ := List.nodup_append'.mp h.nodup
  exact ⟨⟨h₁, hn₁⟩, ⟨h₂, hn₂⟩, hd⟩

theorem neighbours (h : Path m (u ++ a :: b :: v)) : (m a).next = b ∧ (m b).prev = a :=
  (List.isChain_append_cons_cons.mp h.linked).2.1

end Path

section
variable [DecidableEq α]

def setPrev (m : α → Node α) (a x : α) : α → Node α := Function.update m a { m a with prev := x }

def setNext (m : α → Node α) (a x : α) : α → Node α := Function.update m a { m a with next := x }

/-- The links between `p` and `n`, there and back. -/
def join (m : α → Node α) (p n : α) : α → Node α := setPrev (setNext m p n) n p

variable {m : α → Node α} {l u v : List α} {a p n e b : α}

@[simp] theorem setPrev_next (m : α → Node α) (a x b : α) :
    (setPrev m a x b).next = (m b).next := by
  unfold setPrev
  by_cases h : b = a
  · simp [h]
  · simp [h]

@[simp] theorem setPrev_prev (m : α → Node α) (a x b : α) :
    (setPrev m a x b).prev = if b = a then x else (m b).prev := by
  unfold setPrev
  by_cases h : b = a
  · simp [h]
  · simp [h]

@[simp] theorem setNext_next (m : α → Node α) (a x b : α) :
    (setNext m a x b).next = if b = a then x else (m b).next := by
  unfold setNext
  by_cases h : b = a
  · simp [h]
  · simp [h]

@[simp] theorem setNext_prev (m : α → Node α) (a x b : α) :
    (setNext m a x b).prev = (m b).prev := by
  unfold setNext
  by_cases h : b = a
  · simp [h]
  · simp [h]

theorem join_next (m : α → Node α) (a p n : α) :
    (join m p n a).next = if a = p then n else (m a).next := by
  simp [join]

theorem join_prev (m : α → Node α) (a p n : α) :
    (join m p n a).prev = if a = n then p else (m a).prev := by
  simp [join]

theorem join_other (hp : a ≠ p) (hn : a ≠ n) : join m p n a = m a := by
  rw [join, setPrev, Function.update_of_ne hn, setNext, Function.update_of_ne hp]

/-- Two paths, one behind the other. -/
theorem Path.join (h₁ : Path m (u ++ [p])) (h₂ : Path m (n :: v))
    (hd : (u ++ [p]).Disjoint (n :: v)) : Path (join m p n) (u ++ p :: n :: v) := by
  have hnodup : (u ++ [p] ++ n :: v).Nodup := h₁.nodup.append h₂.nodup hd
  rw [List.append_assoc, List.singleton_append] at hnodup
  have hpn := List.nodup_append'.mp hnodup
  constructor
  · apply List.isChain_append_cons_cons.mpr
    refine ⟨isChain_imp_of_inner h₁.linked ?_, ?_, isChain_imp_of_inner h₂.linked ?_⟩
    · intro a b ha hb hab
      have hap : a ≠ p := by
        rintro rfl
        rw [List.dropLast_concat] at ha
        exact hpn.2.2 ha List.mem_cons_self
      have hbn : b ≠ n := by
        rintro rfl
        exact hd (List.mem_of_mem_tail hb) List.mem_cons_self
      rw [Linked, join_next, join_prev, if_neg hap, if_neg hbn]
      exact hab
    · rw [Linked, join_next, join_prev, if_pos rfl, if_pos rfl]
      exact ⟨rfl, rfl⟩
    · intro a b ha hb hab
      have hap : a ≠ p := by
        rintro rfl
        exact hd (List.mem_append_right u List.mem_cons_self) (List.dropLast_subset _ ha)
      have hbn : b ≠ n := by
        rintro rfl
        exact (List.nodup_cons.mp h₂.nodup).1 hb
      rw [Linked, join_next, join_prev, if_neg hap, if_neg hbn]
      exact hab
  · exact hnodup

/-- A path that is elsewhere. -/
theorem Path.join_frame (h : Path m l) (hp : p ∉ l) (hn : n ∉ l) : Path (Chain.join m p n) l := by
  apply h.congr
  intro a ha
  apply join_other
  · rintro rfl
    exact hp ha
  · rintro rfl
    exact hn ha

/-- A node that is on no path put in before `b`. -/
theorem Path.insert (h : Path m (u ++ p :: b :: v)) (he : e ∉ u ++ p :: b :: v) :
    Path (Chain.join (Chain.join m p e) e b) (u ++ p :: e :: b :: v) := by
  have hsplit : Path m ((u ++ [p]) ++ b :: v) := by simpa using h
  obtain ⟨h₁, h₂, hd⟩ := hsplit.split
  have hpn : p ∉ b :: v := fun hp => hd (by simp) hp
  have hin : Path (Chain.join m p e) (u ++ p :: [e]) := by
    apply h₁.join (Path.singleton m e)
    apply List.disjoint_singleton.mpr
    intro hm
    apply he
    simp only [List.mem_append, List.mem_cons, List.not_mem_nil, or_false] at hm ⊢
    tauto
  have hrest : Path (Chain.join m p e) (b :: v) :=
    h₂.join_frame hpn fun hm => he (List.mem_append_right _ (List.mem_cons_of_mem p hm))
  have hboth : Path (Chain.join (Chain.join m p e) e b) ((u ++ [p]) ++ e :: b :: v) := by
    apply Path.join (by simpa using hin) hrest
    intro x hx hx'
    rcases List.mem_append.mp hx with hx | hx
    · exact hd hx hx'
    · cases List.mem_singleton.mp hx
      exact he (List.mem_append_right _ (List.mem_cons_of_mem p hx'))
  simpa using hboth

/-- A node taken out. -/
theorem Path.erase (h : Path m (u ++ p :: e :: n :: v)) :
    Path (Chain.join m p n) (u ++ p :: n :: v) := by
  have hsplit : Path m ((u ++ [p]) ++ e :: n :: v) := by simpa using h
  obtain ⟨h₁, h₂, hd⟩ := hsplit.split
  have hrest : Path m ([e] ++ n :: v) := h₂
  apply h₁.join hrest.split.2.1
  intro x hx hx'
  exact hd hx (List.mem_cons_of_mem e hx')

end

/-! ## Loops over a path -/

section
variable [DecidableEq α]

/-- From node `elem` on to `stop`: the body goes on with what it has, or leaves the loop
with a result. `none`: the fuel was not enough. -/
def scan (m : α → Node α) (stop : α) (body : α → σ → Except ρ σ) :
    Nat → α → σ → Option (Except ρ σ)
  | 0, _, _ => none
  | fuel + 1, elem, s =>
    if elem = stop then some (.ok s)
    else match body elem s with
      | .error r => some (.error r)
      | .ok s => scan m stop body fuel (m elem).next s

/-- The loop goes over the path from its first node. -/
theorem scan_eq {m : α → Node α} {stop : α} (body : α → σ → Except ρ σ) {l : List α} {first : α}
    {fuel : Nat} (h : Path m (first :: l ++ [stop])) (hfuel : l.length < fuel) (s : σ) :
    scan m stop body fuel (m first).next s = some (l.foldlM (fun s a => body a s) s) := by
  induction l generalizing first fuel s with
  | nil =>
    obtain ⟨fuel, rfl⟩ := Nat.exists_eq_succ_of_ne_zero (by omega : fuel ≠ 0)
    have hnext : (m first).next = stop := (h.neighbours (u := [])).1
    rw [scan, if_pos hnext]
    rfl
  | cons a l ih =>
    obtain ⟨fuel, rfl⟩ := Nat.exists_eq_succ_of_ne_zero (by omega : fuel ≠ 0)
    have hnext : (m first).next = a := (h.neighbours (u := [])).1
    have htail : Path m (a :: l ++ [stop]) := (Path.split (u := [first]) h).2.1
    have hne : a ≠ stop := by
      rintro rfl
      exact (List.nodup_cons.mp htail.nodup).1 (by simp)
    rw [scan, hnext, if_neg hne, List.foldlM_cons]
    cases hb : body a s with
    | error r => rfl
    | ok s' =>
      simp only [List.length_cons] at hfuel
      exact ih htail (by omega) s'

end

end Chain
