import ZhuOS.Ledger

/-!
# The page tables in memory

`Tables` says the directories and tables of all processes are the ledger's. Each lemma
about a change of memory takes the ledger along, and the walk of an address is read off
the ledger at the end.
-/

namespace ZhuOS

open Assignment

theorem pageAddr_div (i : Nat) : pageAddr i / 4096 = 0xc0100 + i := by
  unfold pageAddr K_HEAP_START PG_SIZE
  omega

/-- An entry leads to the frame, or is not present. -/
def Leads (e : Nat) : Option Nat → Prop
  | some f => e = f * 4096 + 7
  | none => e % 2 = 0

/-- The frame of the directory of a process, whose page `dir` tells, or of the kernel's. -/
def dirFrame (F : Ledger) (dir : Nat → Option Nat) : Option Nat → Option Nat
  | none => some 0x100
  | some d => (dir d).bind fun i => F (.heap i)

structure Tables (phys : PhysMem) (dir : Nat → Option Nat) (F : Ledger) : Prop where
  self : ∀ o D, dirFrame F dir o = some D → phys D 1023 = D * 4096 + 7
  kernel : ∀ o D, dirFrame F dir o = some D → ∀ k < 255, phys D (768 + k) = (0x101 + k) * 4096 + 7
  heap : ∀ i f, F (.heap i) = some f →
    phys (0x101 + (256 + i) / 1024) ((256 + i) % 1024) = f * 4096 + 7
  entries : ∀ d D, dirFrame F dir (some d) = some D → ∀ k < 768, Leads (phys D k) (F (.table d k))
  pages : ∀ d k t, dir d ≠ none → F (.table d k) = some t → ∀ w < 1024,
    Leads (phys t w) (F (.user d (1024 * k + w)))
  /-- a page needs its table -/
  rooted : ∀ d k w, dir d ≠ none → w < 1024 → F (.table d k) = none →
    F (.user d (1024 * k + w)) = none
  dirs : ∀ d i, dir d = some i → F (.heap i) ≠ none
  own : ∀ d d' i, dir d = some i → dir d' = some i → d = d'

section dirFrame

variable {F F' : Ledger} {dir : Nat → Option Nat}

theorem dirFrame_some {d D : Nat} (h : dirFrame F dir (some d) = some D) :
    ∃ i, dir d = some i ∧ F (.heap i) = some D := by
  cases hd : dir d with
  | none => simp [dirFrame, hd] at h
  | some i => exact ⟨i, rfl, by simpa [dirFrame, hd] using h⟩

theorem dirFrame_eq {d i D : Nat} (hd : dir d = some i) (hF : F (.heap i) = some D) :
    dirFrame F dir (some d) = some D := by
  simp [dirFrame, hd, hF]

theorem dirFrame_live {d D : Nat} (h : dirFrame F dir (some d) = some D) : dir d ≠ none := by
  obtain ⟨i, hi, -⟩ := dirFrame_some h
  simp [hi]

/-- Only the pages of the directories matter. -/
theorem dirFrame_congr (h : ∀ d i, dir d = some i → F' (.heap i) = F (.heap i)) (o : Option Nat) :
    dirFrame F' dir o = dirFrame F dir o := by
  cases o with
  | none => rfl
  | some d =>
    cases hd : dir d with
    | none => simp [dirFrame, hd]
    | some i => simp [dirFrame, hd, h d i hd]

theorem dirFrame_update_table (d k : Nat) (v : Option Nat) (o : Option Nat) :
    dirFrame (Function.update F (.table d k) v) dir o = dirFrame F dir o :=
  dirFrame_congr (fun _ _ _ => Function.update_of_ne (by nofun) ..) o

theorem dirFrame_update_user (d p : Nat) (v : Option Nat) (o : Option Nat) :
    dirFrame (Function.update F (.user d p) v) dir o = dirFrame F dir o :=
  dirFrame_congr (fun _ _ _ => Function.update_of_ne (by nofun) ..) o

theorem dirFrame_update_heap {i : Nat} (hi : ∀ d, dir d ≠ some i) (v : Option Nat)
    (o : Option Nat) : dirFrame (Function.update F (.heap i) v) dir o = dirFrame F dir o := by
  refine dirFrame_congr (fun d j hd => Function.update_of_ne ?_ ..) o
  intro he
  cases he
  exact hi d hd

end dirFrame

namespace Sound

variable {F : Ledger} {dir : Nat → Option Nat}

theorem ne (h : Sound F) {u u' : Use} {f f' : Nat} (hu : F u = some f) (hu' : F u' = some f')
    (hne : u ≠ u') : f ≠ f' := fun he => hne (h.distinct u u' f hu (he ▸ hu'))

theorem assign (h : Sound F) {u : Use} {f : Nat} (hr : u.InRange) (hf : ¬ Taken F f)
    (hhigh : 0x200 ≤ f) : Sound (Function.update F u (some f)) := by
  refine ⟨h.distinct.assign hf, fun u' g hg => ?_, fun u' g hg => ?_⟩
  · by_cases he : u' = u
    · exact he ▸ hr
    · rw [Function.update_of_ne he] at hg
      exact h.inRange u' g hg
  · by_cases he : u' = u
    · rw [he, Function.update_self] at hg
      cases hg
      exact hhigh
    · rw [Function.update_of_ne he] at hg
      exact h.high u' g hg

/-- Directories lie above the loader's tables, but for its own below them. -/
theorem dirFrame_bounds (h : Sound F) {o : Option Nat} {D : Nat}
    (hD : dirFrame F dir o = some D) : D = 0x100 ∨ 0x200 ≤ D := by
  cases o with
  | none => exact .inl (Option.some.inj hD).symm
  | some d =>
    obtain ⟨i, -, hi⟩ := dirFrame_some hD
    exact .inr (h.high _ _ hi)

/-- A directory's frame has that use alone. -/
theorem dirFrame_ne (h : Sound F) {o : Option Nat} {D f : Nat} {u : Use}
    (hD : dirFrame F dir o = some D) (hu : F u = some f)
    (hne : ∀ d i, dir d = some i → u ≠ .heap i) :
    f ≠ D := by
  cases o with
  | none =>
    cases hD
    have := h.high u f hu
    omega
  | some d =>
    obtain ⟨i, hi, hF⟩ := dirFrame_some hD
    exact h.ne hu hF (hne d i hi)

theorem dirFrame_ne_table (h : Sound F) {o : Option Nat} {D d k t : Nat}
    (hD : dirFrame F dir o = some D) (ht : F (.table d k) = some t) : t ≠ D :=
  h.dirFrame_ne hD ht (fun _ _ _ => by nofun)

end Sound

namespace Tables

variable {m : Mmu} {dir : Nat → Option Nat} {F : Ledger}

theorem dirFrame_inj (h : Tables m.phys dir F) (hF : Sound F) {o o' : Option Nat} {D : Nat}
    (hD : dirFrame F dir o = some D) (hD' : dirFrame F dir o' = some D) : o = o' := by
  have hlow : ∀ d, dirFrame F dir (some d) = some D → D ≠ 0x100 := by
    intro d hd
    obtain ⟨i, -, hi⟩ := dirFrame_some hd
    have := hF.high _ _ hi
    omega
  cases o with
  | none =>
    cases o' with
    | none => rfl
    | some d' => exact absurd (Option.some.inj hD).symm (hlow d' hD')
  | some d =>
    cases o' with
    | none => exact absurd (Option.some.inj hD').symm (hlow d hD)
    | some d' =>
      obtain ⟨i, hi, hFi⟩ := dirFrame_some hD
      obtain ⟨j, hj, hFj⟩ := dirFrame_some hD'
      have he := hF.distinct _ _ _ hFi hFj
      cases he
      rw [h.own d d' i hi hj]

/-! ## Changes of memory -/

/-- The frames that hold directories or tables. -/
def Holds (F : Ledger) (dir : Nat → Option Nat) (f : Nat) : Prop :=
  f < 0x200 ∨ (∃ d, dirFrame F dir (some d) = some f) ∨
    ∃ d k, dir d ≠ none ∧ F (.table d k) = some f

theorem holds_dir {o : Option Nat} {D : Nat} (hD : dirFrame F dir o = some D) : Holds F dir D := by
  cases o with
  | none =>
    cases hD
    exact .inl (by decide)
  | some d => exact .inr (.inl ⟨d, hD⟩)

theorem holds_heap (hF : Sound F) {i f : Nat} (hi : F (.heap i) = some f) :
    Holds F dir (0x101 + (256 + i) / 1024) := by
  have hr : i < 260864 := hF.inRange _ _ hi
  exact .inl (by omega)

/-- Other frames can be written. -/
theorem congr (h : Tables m.phys dir F) (hF : Sound F) {phys : PhysMem}
    (hs : ∀ f, Holds F dir f → ∀ w, phys f w = m.phys f w) : Tables phys dir F := by
  refine ⟨fun o D hD => ?_, fun o D hD k hk => ?_, fun i f hi => ?_, fun d D hD k hk => ?_,
    fun d k t hd ht w hw => ?_, h.rooted, h.dirs, h.own⟩
  · rw [hs D (holds_dir hD)]
    exact h.self o D hD
  · rw [hs D (holds_dir hD)]
    exact h.kernel o D hD k hk
  · rw [hs _ (holds_heap hF hi)]
    exact h.heap i f hi
  · rw [hs D (holds_dir hD)]
    exact h.entries d D hD k hk
  · rw [hs t (.inr (.inr ⟨d, k, hd, ht⟩))]
    exact h.pages d k t hd ht w hw

/-- The entry of a heap page that is no directory is written. -/
theorem setHeap (h : Tables m.phys dir F) (hF : Sound F) {i e : Nat} {v : Option Nat}
    (hr : i < HEAP_PAGES) (hi : ∀ d, dir d ≠ some i) (hv : ∀ f, v = some f → e = f * 4096 + 7) :
    Tables (m.put (0x101 + (256 + i) / 1024) ((256 + i) % 1024) e).phys dir
      (Function.update F (.heap i) v) := by
  unfold HEAP_PAGES at hr
  have hsame : ∀ f, f = 0x100 ∨ 0x200 ≤ f → ∀ w,
      (m.put (0x101 + (256 + i) / 1024) ((256 + i) % 1024) e).phys f w = m.phys f w := by
    intro f hf w
    rw [Mmu.put_phys, if_neg (by omega)]
  refine ⟨fun o D hD => ?_, fun o D hD k hk => ?_, fun j f hj => ?_, fun d D hD k hk => ?_,
    fun d k t hd ht w hw => ?_, fun d k w hd hw ht => ?_, fun d j hd => ?_, h.own⟩
  · rw [dirFrame_update_heap hi] at hD
    rw [hsame D (hF.dirFrame_bounds hD)]
    exact h.self o D hD
  · rw [dirFrame_update_heap hi] at hD
    rw [hsame D (hF.dirFrame_bounds hD)]
    exact h.kernel o D hD k hk
  · rw [Mmu.put_phys]
    by_cases he : j = i
    · subst he
      rw [Function.update_self] at hj
      rw [if_pos ⟨rfl, rfl⟩]
      exact hv f hj
    · rw [Function.update_of_ne (by simpa using he)] at hj
      rw [if_neg (by omega)]
      exact h.heap j f hj
  · rw [dirFrame_update_heap hi] at hD
    rw [hsame D (hF.dirFrame_bounds hD), Function.update_of_ne (by nofun)]
    exact h.entries d D hD k hk
  · rw [Function.update_of_ne (by nofun)] at ht ⊢
    rw [hsame t (.inr (hF.high _ _ ht))]
    exact h.pages d k t hd ht w hw
  · rw [Function.update_of_ne (by nofun)] at ht ⊢
    exact h.rooted d k w hd hw ht
  · rw [Function.update_of_ne]
    · exact h.dirs d j hd
    · intro he
      cases he
      exact hi d hd

/-- The entry of a page of a process is written. -/
theorem setUser (h : Tables m.phys dir F) (hF : Sound F) {d k t w e : Nat} {v : Option Nat}
    (ht : F (.table d k) = some t) (hw : w < 1024) (hv : Leads e v) :
    Tables (m.put t w e).phys dir (Function.update F (.user d (1024 * k + w)) v) := by
  have hhigh := hF.high _ _ ht
  have hput : ∀ f x, ¬ (f = t ∧ x = w) → (m.put t w e).phys f x = m.phys f x := by
    intro f x hne
    rw [Mmu.put_phys, if_neg hne]
  refine ⟨fun o D hD => ?_, fun o D hD l hl => ?_, fun j f hj => ?_, fun d' D hD l hl => ?_,
    fun d' l t' hd' ht' x hx => ?_, fun d' l x hd' hx hn => ?_, fun d' j hd' => ?_, h.own⟩
  · rw [dirFrame_update_user] at hD
    rw [hput _ _ fun hn => hF.dirFrame_ne_table hD ht hn.1.symm]
    exact h.self o D hD
  · rw [dirFrame_update_user] at hD
    rw [hput _ _ fun hn => hF.dirFrame_ne_table hD ht hn.1.symm]
    exact h.kernel o D hD l hl
  · rw [Function.update_of_ne (by nofun)] at hj
    have hr : j < 260864 := hF.inRange _ _ hj
    rw [hput _ _ (by omega)]
    exact h.heap j f hj
  · rw [dirFrame_update_user] at hD
    rw [hput _ _ fun hn => hF.dirFrame_ne_table hD ht hn.1.symm, Function.update_of_ne (by nofun)]
    exact h.entries d' D hD l hl
  · rw [Function.update_of_ne (by nofun)] at ht'
    by_cases he : t' = t ∧ x = w
    · obtain ⟨rfl, rfl⟩ := he
      have hd := hF.distinct _ _ _ ht ht'
      cases hd
      rw [Function.update_self, Mmu.put_phys, if_pos ⟨rfl, rfl⟩]
      exact hv
    · rw [hput _ _ he, Function.update_of_ne]
      · exact h.pages d' l t' hd' ht' x hx
      · intro hu
        simp only [Use.user.injEq] at hu
        obtain ⟨rfl, hp⟩ := hu
        obtain rfl : l = k := by omega
        rw [ht] at ht'
        cases ht'
        exact he ⟨rfl, by omega⟩
  · rw [Function.update_of_ne (by nofun)] at hn
    rw [Function.update_of_ne]
    · exact h.rooted d' l x hd' hx hn
    · intro hu
      simp only [Use.user.injEq] at hu
      obtain ⟨rfl, hp⟩ := hu
      obtain rfl : l = k := by omega
      rw [ht] at hn
      cases hn
  · rw [Function.update_of_ne (by nofun)]
    exact h.dirs d' j hd'

/-- A process gets an empty table. -/
theorem addTable (h : Tables m.phys dir F) (hF : Sound F) {d D k t : Nat}
    (hD : dirFrame F dir (some d) = some D) (hk : k < 768) (hn : F (.table d k) = none)
    (ht : ¬ Taken F t) (hhigh : 0x200 ≤ t) :
    Tables (m.addTable D k t).phys dir (Function.update F (.table d k) (some t)) := by
  have htD : ∀ o D', dirFrame F dir o = some D' → D' ≠ t := by
    intro o D' hD' he
    cases o with
    | none =>
      cases hD'
      omega
    | some d' =>
      obtain ⟨i, -, hi⟩ := dirFrame_some hD'
      exact ht ⟨_, he ▸ hi⟩
  have hDt := htD _ _ hD
  have hdir : ∀ o D', dirFrame F dir o = some D' → ∀ w, ¬ (o = some d ∧ w = k) →
      (m.addTable D k t).phys D' w = m.phys D' w := by
    intro o D' hD' w hne
    by_cases he : D' = D
    · subst he
      have ho := h.dirFrame_inj hF hD' hD
      rw [Mmu.addTable_dir _ _ _ _ (Ne.symm hDt), if_neg fun hw => hne ⟨ho, hw⟩]
    · exact Mmu.addTable_other _ _ _ _ (htD o D' hD') he w
  have hlow : ∀ f < 0x200, f ≠ 0x100 → ∀ w, (m.addTable D k t).phys f w = m.phys f w := by
    intro f hf hne w
    have := hF.dirFrame_bounds hD
    exact Mmu.addTable_other _ _ _ _ (by omega) (by omega) w
  refine ⟨fun o D' hD' => ?_, fun o D' hD' l hl => ?_, fun j f hj => ?_, fun d' D' hD' l hl => ?_,
    fun d' l t' hd' ht' x hx => ?_, fun d' l x hd' hx hn' => ?_, fun d' j hd' => ?_, h.own⟩
  · rw [dirFrame_update_table] at hD'
    rw [hdir o D' hD' _ (by omega)]
    exact h.self o D' hD'
  · rw [dirFrame_update_table] at hD'
    rw [hdir o D' hD' _ (by omega)]
    exact h.kernel o D' hD' l hl
  · rw [Function.update_of_ne (by nofun)] at hj
    have hr : j < 260864 := hF.inRange _ _ hj
    rw [hlow _ (by omega) (by omega)]
    exact h.heap j f hj
  · rw [dirFrame_update_table] at hD'
    by_cases he : d' = d ∧ l = k
    · obtain ⟨rfl, rfl⟩ := he
      rw [hD] at hD'
      cases hD'
      rw [Function.update_self, Mmu.addTable_dir _ _ _ _ (Ne.symm hDt), if_pos rfl]
      rfl
    · rw [hdir _ D' hD' l (by simpa using he), Function.update_of_ne (by simpa using he)]
      exact h.entries d' D' hD' l hl
  · rw [Function.update_of_ne (by nofun)]
    by_cases he : d' = d ∧ l = k
    · obtain ⟨rfl, rfl⟩ := he
      rw [Function.update_self] at ht'
      cases ht'
      rw [Mmu.addTable_table _ _ _ _ hx, h.rooted d' l x hd' hx hn]
      rfl
    · rw [Function.update_of_ne (by simpa using he)] at ht'
      have hne : t' ≠ t := fun h' => ht ⟨_, h' ▸ ht'⟩
      rw [Mmu.addTable_other _ _ _ _ hne (hF.dirFrame_ne_table hD ht')]
      exact h.pages d' l t' hd' ht' x hx
  · rw [Function.update_of_ne (by nofun)]
    by_cases he : d' = d ∧ l = k
    · obtain ⟨rfl, rfl⟩ := he
      simp at hn'
    · rw [Function.update_of_ne (by simpa using he)] at hn'
      exact h.rooted d' l x hd' hx hn'
  · rw [Function.update_of_ne (by nofun)]
    exact h.dirs d' j hd'

/-- A heap page becomes the directory of a process that has nothing yet. -/
theorem addDir (h : Tables m.phys dir F) {d i D : Nat} (hi : F (.heap i) = some D)
    (hnew : ∀ d', dir d' ≠ some i) (hd : dir d = none) (htable : ∀ k, F (.table d k) = none)
    (huser : ∀ p, F (.user d p) = none) (hself : m.phys D 1023 = D * 4096 + 7)
    (hkernel : ∀ k < 255, m.phys D (768 + k) = (0x101 + k) * 4096 + 7)
    (hempty : ∀ k < 768, m.phys D k % 2 = 0) :
    Tables m.phys (Function.update dir d (some i)) F := by
  have hother : ∀ o D', dirFrame F (Function.update dir d (some i)) o = some D' →
      (o = some d ∧ D' = D) ∨ (o ≠ some d ∧ dirFrame F dir o = some D') := by
    intro o D' hD'
    cases o with
    | none => exact .inr ⟨by nofun, hD'⟩
    | some d' =>
      by_cases he : d' = d
      · subst he
        obtain ⟨j, hj, hFj⟩ := dirFrame_some hD'
        rw [Function.update_self] at hj
        cases hj
        rw [hi] at hFj
        cases hFj
        exact .inl ⟨rfl, rfl⟩
      · obtain ⟨j, hj, hFj⟩ := dirFrame_some hD'
        rw [Function.update_of_ne he] at hj
        exact .inr ⟨by simpa using he, dirFrame_eq hj hFj⟩
  have hlive : ∀ d', Function.update dir d (some i) d' ≠ none → d' = d ∨ dir d' ≠ none := by
    intro d' hd'
    by_cases he : d' = d
    · exact .inl he
    · rw [Function.update_of_ne he] at hd'
      exact .inr hd'
  refine ⟨fun o D' hD' => ?_, fun o D' hD' l hl => ?_, h.heap, fun d' D' hD' l hl => ?_,
    fun d' l t' hd' ht' x hx => ?_, fun d' l x hd' hx hn' => ?_, fun d' j hd' => ?_,
    fun d' e j hd' he => ?_⟩
  · obtain ⟨-, rfl⟩ | ⟨-, hD'⟩ := hother o D' hD'
    · exact hself
    · exact h.self o D' hD'
  · obtain ⟨-, rfl⟩ | ⟨-, hD'⟩ := hother o D' hD'
    · exact hkernel l hl
    · exact h.kernel o D' hD' l hl
  · obtain ⟨hd', rfl⟩ | ⟨-, hD'⟩ := hother _ D' hD'
    · cases hd'
      rw [htable]
      exact hempty l hl
    · exact h.entries d' D' hD' l hl
  · obtain rfl | hd' := hlive d' hd'
    · rw [htable] at ht'
      cases ht'
    · exact h.pages d' l t' hd' ht' x hx
  · obtain rfl | hd' := hlive d' hd'
    · exact huser _
    · exact h.rooted d' l x hd' hx hn'
  · by_cases he : d' = d
    · subst he
      rw [Function.update_self] at hd'
      cases hd'
      simp [hi]
    · rw [Function.update_of_ne he] at hd'
      exact h.dirs d' j hd'
  · by_cases hdd : d' = d
    · by_cases hed : e = d
      · exact hdd.trans hed.symm
      · rw [hdd, Function.update_self] at hd'
        rw [Function.update_of_ne hed] at he
        cases hd'
        exact absurd he (hnew e)
    · rw [Function.update_of_ne hdd] at hd'
      by_cases hed : e = d
      · rw [hed, Function.update_self] at he
        cases he
        exact absurd hd' (hnew d')
      · rw [Function.update_of_ne hed] at he
        exact h.own d' e j hd' he

/-- Processes can end. -/
theorem drop (h : Tables m.phys dir F) {dir' : Nat → Option Nat}
    (hs : ∀ d i, dir' d = some i → dir d = some i) : Tables m.phys dir' F := by
  have hframe : ∀ o D, dirFrame F dir' o = some D → dirFrame F dir o = some D := by
    intro o D hD
    cases o with
    | none => exact hD
    | some d =>
      obtain ⟨i, hi, hF⟩ := dirFrame_some hD
      exact dirFrame_eq (hs d i hi) hF
  have hlive : ∀ d, dir' d ≠ none → dir d ≠ none := by
    intro d hd
    obtain ⟨i, hi⟩ := Option.ne_none_iff_exists'.mp hd
    simp [hs d i hi]
  exact ⟨fun o D hD => h.self o D (hframe o D hD), fun o D hD => h.kernel o D (hframe o D hD),
    h.heap, fun d D hD => h.entries d D (hframe _ D hD), fun d k t hd => h.pages d k t (hlive d hd),
    fun d k w hd => h.rooted d k w (hlive d hd), fun d i hd => h.dirs d i (hs d i hd),
    fun d e i hd he => h.own d e i (hs d i hd) (hs e i he)⟩

/-! ## Walks -/

theorem root (h : Tables m.phys dir F) {o : Option Nat} {D : Nat} (hD : dirFrame F dir o = some D)
    (hc : m.cr3 = D * 4096) : RootMapped m D := by
  have hself := h.self o D hD
  exact ⟨by rw [hc]; exact Nat.mul_div_cancel _ (by decide), by rw [hself]; exact entry_present D,
    by rw [hself]; exact entry_div D⟩

/-- What the walk of a page of the heap meets. -/
theorem heapPage (h : Tables m.phys dir F) {o : Option Nat} {D i v : Nat}
    (hD : dirFrame F dir o = some D) (hi : i < HEAP_PAGES) (hv : v / 4096 = pageAddr i / 4096) :
    v < 2 ^ 32 ∧ m.phys D (v / 2 ^ 22) = (0x101 + (256 + i) / 1024) * 4096 + 7 ∧
      v / 4096 % 1024 = (256 + i) % 1024 := by
  rw [pageAddr_div] at hv
  unfold HEAP_PAGES at hi
  have hidx : v / 2 ^ 22 = 768 + (256 + i) / 1024 := by omega
  refine ⟨by omega, ?_, by omega⟩
  rw [hidx]
  exact h.kernel o D hD _ (by omega)

/-- The kernel's addresses do not depend on the directory. -/
theorem walk_kernel (h : Tables m.phys dir F) {o : Option Nat} {D a : Nat}
    (hD : dirFrame F dir o = some D) (hc : m.cr3 = D * 4096) (ha : 0xc0000000 ≤ a)
    (ha' : a < 0xffc00000) : m.walk a =
      if m.phys (0x101 + (a / 2 ^ 22 - 768)) (a / 4096 % 1024) % 2 = 0 then .error .badAddress
      else .ok (m.phys (0x101 + (a / 2 ^ 22 - 768)) (a / 4096 % 1024) / 4096) := by
  have hpde := h.kernel o D hD (a / 2 ^ 22 - 768) (by omega)
  have hidx : 768 + (a / 2 ^ 22 - 768) = a / 2 ^ 22 := by omega
  have hodd := entry_present (0x101 + (a / 2 ^ 22 - 768))
  rw [hidx] at hpde
  rw [(h.root hD hc).walk, hpde, if_neg (by omega), entry_div]

/-- A page of the heap that is in use. -/
theorem walk_heap (h : Tables m.phys dir F) (hF : Sound F) {o : Option Nat} {D a i f : Nat}
    (hD : dirFrame F dir o = some D) (hc : m.cr3 = D * 4096) (hi : F (.heap i) = some f)
    (ha : a / 4096 = pageAddr i / 4096) : m.walk a = .ok f := by
  obtain ⟨-, hpde, hword⟩ := h.heapPage hD (hF.inRange _ _ hi) ha
  have hodd := entry_present (0x101 + (256 + i) / 1024)
  have hodd' := entry_present f
  rw [(h.root hD hc).walk, hpde, if_neg (by omega), entry_div, hword, h.heap i f hi,
    if_neg (by omega), entry_div]

/-- The pages of a process are those the ledger has. -/
theorem walk_user (h : Tables m.phys dir F) {d D a : Nat}
    (hD : dirFrame F dir (some d) = some D) (hc : m.cr3 = D * 4096) (ha : a < 0xc0000000) :
    m.walk a = match F (.user d (a / 4096)) with
      | some f => .ok f
      | none => .error .badAddress := by
  have hlive := dirFrame_live hD
  have hk : a / 2 ^ 22 < 768 := by omega
  have hp : 1024 * (a / 2 ^ 22) + a / 4096 % 1024 = a / 4096 := by omega
  have hentry := h.entries d D hD _ hk
  rw [(h.root hD hc).walk]
  cases ht : F (.table d (a / 2 ^ 22)) with
  | none =>
    have hnone := h.rooted d (a / 2 ^ 22) (a / 4096 % 1024) hlive (by omega) ht
    rw [ht] at hentry
    rw [hp] at hnone
    have hentry : m.phys D (a / 2 ^ 22) % 2 = 0 := hentry
    rw [if_pos hentry, hnone]
  | some t =>
    have hpage := h.pages d _ t hlive ht (a / 4096 % 1024) (by omega)
    rw [ht] at hentry
    have hentry : m.phys D (a / 2 ^ 22) = t * 4096 + 7 := hentry
    have hodd := entry_present t
    rw [hp] at hpage
    rw [hentry, if_neg (by omega), entry_div]
    cases hu : F (.user d (a / 4096)) with
    | none =>
      rw [hu] at hpage
      exact if_pos hpage
    | some f =>
      rw [hu] at hpage
      have hpage : m.phys t (a / 4096 % 1024) = f * 4096 + 7 := hpage
      have hodd := entry_present f
      rw [hpage, if_neg (by omega), entry_div]

end Tables

end ZhuOS
