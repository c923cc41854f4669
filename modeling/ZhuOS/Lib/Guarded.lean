/-!
# Systems that run under a guard

A system executes events; an execution can fail, and the guard says which
events a well-behaved environment issues in a state. An invariant that every
guarded event re-establishes, without failing, holds in every state a guarded
run reaches, and no guarded event fails there.
-/

namespace Guarded

variable {σ ε φ : Type}

structure System (σ ε φ : Type) where
  guard : σ → ε → Prop
  exec : σ → ε → Except φ σ

/-- `M` runs from the first state to the last through these events. -/
inductive Run (M : System σ ε φ) : σ → List ε → σ → Prop
  | nil (s : σ) : Run M s [] s
  | cons {s t u : σ} {e : ε} {es : List ε} :
      M.guard s e → M.exec s e = .ok t → Run M t es u → Run M s (e :: es) u

/-- Every guarded event executes and keeps `I`. -/
def Keeps (M : System σ ε φ) (I : σ → Prop) : Prop :=
  ∀ s e, I s → M.guard s e → ∃ t, M.exec s e = .ok t ∧ I t

/-- What executes keeps `I`; it may also fail. -/
def Preserves (M : System σ ε φ) (I : σ → Prop) : Prop :=
  ∀ s e t, I s → M.guard s e → M.exec s e = .ok t → I t

/-- The same system in an environment that also minds `P`. -/
def System.only (M : System σ ε φ) (P : σ → ε → Prop) : System σ ε φ :=
  ⟨fun s e => M.guard s e ∧ P s e, M.exec⟩

variable {M : System σ ε φ} {I : σ → Prop}

theorem Run.of_only {P : σ → ε → Prop} {s t : σ} {es : List ε} (h : Run (M.only P) s es t) :
    Run M s es t := by
  induction h with
  | nil s => exact .nil s
  | cons hg he _ ih => exact .cons hg.1 he ih

theorem Keeps.preserves (hk : Keeps M I) : Preserves M I := by
  intro s e t hs hg he
  obtain ⟨u, hu, hI⟩ := hk s e hs hg
  rw [he] at hu
  cases hu
  exact hI

theorem Run.preserved (hp : Preserves M I) {s t : σ} {es : List ε} (h : Run M s es t) (hs : I s) :
    I t := by
  induction h with
  | nil => exact hs
  | cons hg he _ ih => exact ih (hp _ _ _ hs hg he)

theorem Run.append {s t u : σ} {es es' : List ε} (h : Run M s es t) (h' : Run M t es' u) :
    Run M s (es ++ es') u := by
  induction h with
  | nil => exact h'
  | cons hg he _ ih => exact .cons hg he (ih h')

/-- Without a guard a run is what the events do one after the other. -/
theorem Run.of_foldlM (hg : ∀ s e, M.guard s e) {s t : σ} {es : List ε}
    (h : es.foldlM M.exec s = .ok t) : Run M s es t := by
  induction es generalizing s with
  | nil =>
    cases h
    exact .nil _
  | cons e es ih =>
    rw [List.foldlM_cons] at h
    cases he : M.exec s e with
    | error f =>
      rw [he] at h
      cases h
    | ok u =>
      rw [he] at h
      exact .cons (hg _ e) he (ih h)

/-- A run that is computed, and a check of where it ends. -/
theorem Run.of_check (hg : ∀ s e, M.guard s e) {s : σ} {es : List ε} {p : σ → Bool}
    (h : (es.foldlM M.exec s).toOption.any p = true) : ∃ t, Run M s es t ∧ p t = true := by
  cases hf : es.foldlM M.exec s with
  | error f =>
    rw [hf] at h
    cases h
  | ok t =>
    rw [hf] at h
    exact ⟨t, .of_foldlM hg hf, h⟩

/-- Some guarded run leads from the first state to the last. -/
def Reach (M : System σ ε φ) (s t : σ) : Prop := ∃ es, Run M s es t

theorem Reach.refl (s : σ) : Reach M s s := ⟨[], .nil s⟩

theorem Reach.trans {s t u : σ} (h : Reach M s t) (h' : Reach M t u) : Reach M s u := by
  obtain ⟨es, h⟩ := h
  obtain ⟨es', h'⟩ := h'
  exact ⟨es ++ es', h.append h'⟩

theorem Reach.single {s t : σ} (e : ε) (hg : M.guard s e) (he : M.exec s e = .ok t) :
    Reach M s t := ⟨[e], .cons hg he (.nil t)⟩

theorem Run.invariant (hk : Keeps M I) {s t : σ} {es : List ε} (h : Run M s es t) (hs : I s) :
    I t := h.preserved hk.preserves hs

theorem Run.safe (hk : Keeps M I) {s t : σ} {es : List ε} (h : Run M s es t) (hs : I s)
    {e : ε} (hg : M.guard t e) : ∃ u, M.exec t e = .ok u := by
  obtain ⟨u, hu, -⟩ := hk t e (h.invariant hk hs) hg
  exact ⟨u, hu⟩

/-- What these count for, one after the other. -/
def total {α : Type} (w : α → Nat) : List α → Nat
  | [] => 0
  | e :: es => w e + total w es

theorem total_cons (w : ε → Nat) (e : ε) (es : List ε) : total w (e :: es) = w e + total w es :=
  rfl

theorem total_congr {w w' : ε → Nat} {es : List ε} (h : ∀ e ∈ es, w e = w' e) :
    total w es = total w' es := by
  induction es with
  | nil => rfl
  | cons e es ih =>
    rw [total_cons, total_cons, h e List.mem_cons_self,
      ih fun e he => h e (List.mem_cons_of_mem _ he)]

/-- An event gains no more than the measure falls and what it costs, until the goal is met. A run
that gains more than the measure and its costs has met the goal. -/
theorem Run.meets {goal : σ → Prop} {μ : σ → Nat} {gain cost : ε → Nat}
    (hstep : ∀ s e t, I s → ¬ goal s → M.guard s e → M.exec s e = .ok t →
      gain e ≤ μ s + cost e ∧ (goal t ∨ I t ∧ μ t + gain e ≤ μ s + cost e))
    {s t : σ} {es : List ε} (h : Run M s es t) (hs : I s) :
    (∃ before after m, es = before ++ after ∧ Run M s before m ∧ Run M m after t ∧ goal m ∧
      total gain before ≤ μ s + total cost before) ∨
    I t ∧ μ t + total gain es ≤ μ s + total cost es := by
  induction h with
  | nil s => exact .inr ⟨hs, Nat.le_refl _⟩
  | @cons s u t e es hg he hrest ih =>
    by_cases hgoal : goal s
    · exact .inl ⟨[], e :: es, s, rfl, .nil s, .cons hg he hrest, hgoal, Nat.zero_le _⟩
    · obtain ⟨hgain, hmet | ⟨hu, hleft⟩⟩ := hstep s e u hs hgoal hg he
      · exact .inl ⟨[e], es, u, rfl, .cons hg he (.nil u), hrest, hmet, hgain⟩
      · obtain ⟨before, after, m, rfl, hbefore, hafter, hmet, hle⟩ | ⟨ht, hle⟩ := ih hu
        · refine .inl ⟨e :: before, after, m, rfl, .cons hg he hbefore, hafter, hmet, ?_⟩
          rw [total_cons, total_cons]
          omega
        · refine .inr ⟨ht, ?_⟩
          rw [total_cons, total_cons]
          omega

end Guarded
