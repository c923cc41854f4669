import ZhuOS.PagingCalls

/-!
# Directories and the contents of pages

Copying and clearing pages, `create_page_dir` and `page_dir_activate`. Pages that hold
no directory and no table can have any contents.
-/

namespace ZhuOS

open Assignment

namespace Mmu

/-- Words `sw`, … of frame `g` are copied to words `dw`, … of frame `f`. -/
def blit (m : Mmu) (f dw g sw cnt : Nat) : Mmu :=
  { m with
    phys := fun x w =>
      if x = f ∧ dw ≤ w ∧ w < dw + cnt then m.phys g (sw + (w - dw)) else m.phys x w }

/-- Whatever frame `f` holds, the page of `a` is frame `g`. -/
def Fixed (m : Mmu) (f a g : Nat) : Prop :=
  ∀ phys : PhysMem, (∀ x, x ≠ f → ∀ w, phys x w = m.phys x w) →
    ∀ b, b / 4096 = a / 4096 → (Mmu.mk phys m.cr3).walk b = .ok g

variable {m : Mmu} {f g a : Nat}

theorem Fixed.walk (h : m.Fixed f a g) : m.walk a = .ok g := h m.phys (fun _ _ _ => rfl) a rfl

/-- A walk that does not go by way of frame `f`. -/
theorem Fixed.of_walk (hwalk : m.walk a = .ok g) (hdir : m.cr3 / 4096 ≠ f)
    (htable : m.phys (m.cr3 / 4096) (a / 2 ^ 22) / 4096 ≠ f) : m.Fixed f a g := by
  intro phys hp b hb
  have hidx : b / 2 ^ 22 = a / 2 ^ 22 := by omega
  simp only [Mmu.walk, hidx, hb, hp _ hdir, hp _ htable]
  exact hwalk

theorem Fixed.put (h : m.Fixed f a g) (w v : Nat) : (m.put f w v).Fixed f a g :=
  fun phys hp b hb => h phys (fun x hx w' => (hp x hx w').trans (if_neg fun hn => hx hn.1)) b hb

theorem Fixed.page (h : m.Fixed f a g) {b : Nat} (hb : b / 4096 = a / 4096) : m.Fixed f b g :=
  fun phys hp c hc => h phys hp c (hc.trans hb)

theorem ext_phys {m m' : Mmu} (hc : m.cr3 = m'.cr3) (h : ∀ x w, m.phys x w = m'.phys x w) :
    m = m' := by
  obtain ⟨phys, cr3⟩ := m
  obtain ⟨phys', cr3'⟩ := m'
  cases hc
  congr 1
  funext x w
  exact h x w

theorem blit_zero (m : Mmu) (f dw g sw : Nat) : m.blit f dw g sw 0 = m :=
  ext_phys rfl fun _ _ => if_neg (by omega)

/-- Frame `f` cleared. -/
def cleared (m : Mmu) (f : Nat) : Mmu :=
  { m with phys := fun x w => if x = f ∧ w < 1024 then 0 else m.phys x w }

theorem clearPages_one (h : m.walk a = .ok f) : m.clearPages 1 a = .ok (m.cleared f) := by
  simp only [clearPages, clearPage, h, ok_bind]
  rfl

/-- Frame `f` as a new directory, made under directory `g`. -/
def newDir (m : Mmu) (f g : Nat) : Mmu :=
  ((m.cleared f).blit f 768 g 768 256).put f 1023 (f * 4096 + 7)

theorem newDir_self (m : Mmu) (f g : Nat) : (m.newDir f g).phys f 1023 = f * 4096 + 7 :=
  if_pos ⟨rfl, rfl⟩

theorem newDir_kernel (m : Mmu) (hne : g ≠ f) {k : Nat} (hk : k < 255) :
    (m.newDir f g).phys f (768 + k) = m.phys g (768 + k) := by
  have hidx : 768 + (768 + k - 768) = 768 + k := by omega
  rw [newDir, put_phys, if_neg (by omega)]
  refine (if_pos ⟨rfl, by omega⟩).trans ?_
  rw [hidx]
  exact if_neg fun hn => hne hn.1

theorem newDir_user (m : Mmu) (f g : Nat) {k : Nat} (hk : k < 768) :
    (m.newDir f g).phys f k = 0 := by
  rw [newDir, put_phys, if_neg (by omega)]
  exact (if_neg (by omega)).trans (if_pos ⟨rfl, by omega⟩)

theorem newDir_other (m : Mmu) (g : Nat) {x : Nat} (hx : x ≠ f) (w : Nat) :
    (m.newDir f g).phys x w = m.phys x w := by
  simp [newDir, put_phys, blit, cleared, hx]

/-- The first word, and then the others. -/
theorem blit_succ (hne : g ≠ f) (dw sw cnt : Nat) :
    (m.put f dw (m.phys g sw)).blit f (dw + 1) g (sw + 1) cnt = m.blit f dw g sw (cnt + 1) := by
  refine ext_phys rfl fun x w => ?_
  simp only [blit, put_phys, hne, false_and, ↓reduceIte]
  by_cases hin : x = f ∧ dw + 1 ≤ w ∧ w < dw + 1 + cnt
  · have hidx : sw + 1 + (w - (dw + 1)) = sw + (w - dw) := by omega
    rw [if_pos hin, if_pos (by omega), hidx]
  · rw [if_neg hin]
    by_cases hx : x = f ∧ w = dw
    · rw [if_pos hx, if_pos (by omega), hx.2, Nat.sub_self, Nat.add_zero]
    · rw [if_neg hx, if_neg (by omega)]

/-- `memcpy` within two pages. -/
theorem copyWords_ok (cnt : Nat) {dst src : Nat} (hd : m.Fixed f dst f) (hs : m.Fixed f src g)
    (hne : g ≠ f) (hdst : dst % 4 = 0 ∧ dst < 2 ^ 32) (hsrc : src % 4 = 0 ∧ src < 2 ^ 32)
    (hdw : dst % 4096 / 4 + cnt ≤ 1024) (hsw : src % 4096 / 4 + cnt ≤ 1024) :
    copyWords cnt dst src m = .ok (m.blit f (dst % 4096 / 4) g (src % 4096 / 4) cnt) := by
  induction cnt generalizing m dst src with
  | zero => exact congrArg Except.ok (blit_zero ..).symm
  | succ cnt ih =>
    have hstep : copyWords (cnt + 1) dst src m = copyWords cnt (u32 (dst + 4)) (u32 (src + 4))
        (m.put f (dst % 4096 / 4) (m.phys g (src % 4096 / 4))) := by
      simp only [copyWords, load, store, hs.walk, hd.walk, ok_bind]
      rfl
    rw [hstep, ← blit_succ hne]
    cases cnt with
    | zero => exact congrArg Except.ok (blit_zero ..).symm
    | succ cnt =>
      -- the next words lie in the same pages
      have hdst' : u32 (dst + 4) = dst + 4 := u32_eq (by omega)
      have hsrc' : u32 (src + 4) = src + 4 := u32_eq (by omega)
      have hdw' : (dst + 4) % 4096 / 4 = dst % 4096 / 4 + 1 := by omega
      have hsw' : (src + 4) % 4096 / 4 = src % 4096 / 4 + 1 := by omega
      rw [hdst', hsrc', ih ((hd.put _ _).page (by omega)) ((hs.put _ _).page (by omega))
        ⟨by omega, by omega⟩ ⟨by omega, by omega⟩ (by omega) (by omega), hdw', hsw']

end Mmu

namespace Tables

variable {m : Mmu} {dir : Nat → Option Nat} {F : Ledger} {o : Option Nat} {D f g a : Nat}

theorem not_holds_heap (hF : Sound F) {i : Nat} (hi : F (.heap i) = some f)
    (hdir : ∀ d, dir d ≠ some i) : ¬ Holds F dir f := by
  have hhigh := hF.high _ _ hi
  rintro (hlow | ⟨d, hd⟩ | ⟨d, k, -, ht⟩)
  · omega
  · refine hF.dirFrame_ne hd hi (fun d' j hj => ?_) rfl
    rintro he
    cases he
    exact hdir d' hj
  · exact hF.ne hi ht (by nofun) rfl

theorem not_holds_user (hF : Sound F) {d p : Nat} (hu : F (.user d p) = some f) :
    ¬ Holds F dir f := by
  have hhigh := hF.high _ _ hu
  rintro (hlow | ⟨d', hd⟩ | ⟨d', k, -, ht⟩)
  · omega
  · exact hF.dirFrame_ne hd hu (fun _ _ _ => by nofun) rfl
  · exact hF.ne hu ht (by nofun) rfl

theorem congr_except (h : Tables m.phys dir F) (hF : Sound F) (hf : ¬ Holds F dir f)
    {phys : PhysMem} (hp : ∀ x, x ≠ f → ∀ w, phys x w = m.phys x w) : Tables phys dir F :=
  h.congr hF fun x hx w => hp x (fun he => hf (he ▸ hx)) w

theorem fixed_heap (h : Tables m.phys dir F) (hF : Sound F) (hD : dirFrame F dir o = some D)
    (hc : m.cr3 = D * 4096) (hf : ¬ Holds F dir f) {i : Nat} (hi : F (.heap i) = some g)
    (ha : a / 4096 = pageAddr i / 4096) : m.Fixed f a g := by
  intro phys hp b hb
  have h' : Tables (Mmu.mk phys m.cr3).phys dir F := h.congr_except hF hf hp
  exact h'.walk_heap hF hD hc hi (hb.trans ha)

theorem fixed_user (h : Tables m.phys dir F) (hF : Sound F) {d : Nat}
    (hD : dirFrame F dir (some d) = some D) (hc : m.cr3 = D * 4096) (hf : ¬ Holds F dir f)
    (ha : a < 0xc0000000) (hu : F (.user d (a / 4096)) = some g) : m.Fixed f a g := by
  intro phys hp b hb
  have h' : Tables (Mmu.mk phys m.cr3).phys dir F := h.congr_except hF hf hp
  rw [h'.walk_user hD hc (show b < 0xc0000000 by omega), hb, hu]

/-- The last page is the directory that is active. -/
theorem fixed_dir (h : Tables m.phys dir F) (hF : Sound F) (hD : dirFrame F dir o = some D)
    (hc : m.cr3 = D * 4096) (hf : ¬ Holds F dir f) (ha : a / 4096 = 0xfffff) : m.Fixed f a D := by
  intro phys hp b hb
  have h' : Tables (Mmu.mk phys m.cr3).phys dir F := h.congr_except hF hf hp
  have hself := h'.self o D hD
  have hodd := entry_present D
  have hdir : b / 2 ^ 22 = 1023 := by omega
  have hword : b / 4096 % 1024 = 1023 := by omega
  rw [(h'.root hD hc).walk, hdir, hword, hself, if_neg (by omega), entry_div, hself,
    if_neg (by omega), entry_div]

end Tables

theorem pageAddr_mod (i : Nat) : pageAddr i % 4096 = 0 := by
  unfold pageAddr K_HEAP_START PG_SIZE
  omega

namespace Books

variable {m m' : Memory} {dir : Nat → Option Nat} {F : Ledger} {o : Option Nat}

theorem cr3_eq (h : Books m dir F o) {D : Nat} (hD : dirFrame F dir o = some D) :
    m.mmu.cr3 = D * 4096 := by
  obtain ⟨D', hD', hc⟩ := h.active
  rw [hD] at hD'
  cases hD'
  exact hc

/-- The contents of a frame that holds no directory and no table are free. -/
theorem write (h : Books m dir F o) {f : Nat} (hf : ¬ Tables.Holds F dir f) (mmu : Mmu)
    (hp : ∀ x, x ≠ f → ∀ w, mmu.phys x w = m.mmu.phys x w) (hc : mmu.cr3 = m.mmu.cr3) :
    Books { m with mmu } dir F o :=
  ⟨h.toAccounts.congr (.of_mmu ..), h.tables.congr_except h.sound hf hp, by
    rw [hc]
    exact h.active⟩

/-- The directory of a process is found through any tables. -/
theorem pagedirPhyAddr_eq (h : Books m dir F o) {o' : Option Nat} {D : Nat}
    (hD : dirFrame F dir o' = some D) :
    pagedirPhyAddr m ((o'.bind dir).map pageAddr) = .ok (D * 4096) := by
  cases o' with
  | none =>
    cases hD
    rfl
  | some d =>
    obtain ⟨A, hA, hc⟩ := h.active
    obtain ⟨i, hi, hF⟩ := dirFrame_some hD
    have hv2p := addrV2p_heapPage h.tables h.sound hA hc hF (h.frame_lt hF) rfl
    rw [pageAddr_mod, Nat.add_zero] at hv2p
    simp only [pagedirPhyAddr, Option.bind_some, hi, Option.map_some, hv2p]

/-- `page_dir_activate`. -/
theorem activate (h : Books m dir F o) {o' : Option Nat} {D : Nat}
    (hD : dirFrame F dir o' = some D) :
    pageDirActivate m ((o'.bind dir).map pageAddr) =
      .ok { m with mmu := { m.mmu with cr3 := D * 4096 } } ∧
    Books { m with mmu := { m.mmu with cr3 := D * 4096 } } dir F o' := by
  refine ⟨?_, h.toAccounts.congr (.of_mmu ..), h.tables, D, hD, rfl⟩
  simp only [pageDirActivate, h.pagedirPhyAddr_eq hD, ok_bind]
  rfl

/-- The new directory gets the kernel's entries and leads back to itself. -/
theorem fillPageDir_ok (h : Books m dir F o) {D E i : Nat} (hD : dirFrame F dir o = some D)
    (hi : F (.heap i) = some E) (hE : ¬ Tables.Holds F dir E) :
    fillPageDir m (pageAddr i) = .ok { m with
      mmu := (m.mmu.blit E 768 D 768 256).put E 1023 (E * 4096 + 7) } := by
  have hc := h.cr3_eq hD
  have hne : D ≠ E := fun he => hE (he ▸ Tables.holds_dir hD)
  have hlt : pageAddr i < 2 ^ 32 := LoaderDir.pageAddr_lt (h.sound.inRange _ _ hi)
  have hmod := pageAddr_mod i
  have hdst : (pageAddr i + 0x300 * 4) % 4096 / 4 = 768 := by omega
  have hself : (pageAddr i + 1023 * 4) % 4096 / 4 = 1023 := by omega
  have hcopy := Mmu.copyWords_ok 256
    (h.tables.fixed_heap h.sound hD hc hE hi (a := pageAddr i + 0x300 * 4) (by omega))
    (h.tables.fixed_dir h.sound hD hc hE (a := 0xfffff000 + 0x300 * 4) (by decide)) hne
    ⟨by omega, by omega⟩ (by decide) (by omega) (by decide)
  rw [hdst] at hcopy
  have h₁ := h.write hE (m.mmu.blit E 768 D 768 256) (fun x hx w => if_neg (by simp [hx])) rfl
  have hv2p := addrV2p_heapPage h₁.tables h₁.sound hD hc hi (h.frame_lt hi) rfl
  rw [hmod, Nat.add_zero] at hv2p
  have hwalk := h₁.tables.walk_heap h₁.sound hD hc hi (a := pageAddr i + 1023 * 4) (by omega)
  have hcopy : Mmu.copyWords 256 (pageAddr i + 0x300 * 4) (0xfffff000 + 0x300 * 4) m.mmu =
      .ok (m.mmu.blit E 768 D 768 256) := hcopy
  simp only [fillPageDir, hcopy, ok_bind, hv2p, entry_eq (Nat.mul_mod_left E 4096), Mmu.store,
    hwalk, hself]
  rfl

/-- `create_page_dir`: its page is a directory for whatever process has nothing yet. -/
theorem createPageDir_ok (h : Books m dir F o) {r : Option Nat}
    (hm : createPageDir m = .ok (r, m')) : m'.running = m.running ∧
      (r = none ∧ Books m' dir F o ∨ ∃ i F', r = some (pageAddr i) ∧ AddsHeap F F' i 1 ∧
        ∀ d, dir d = none → (∀ k, F (.table d k) = none) → (∀ p, F (.user d p) = none) →
          Books m' (Function.update dir d (some i)) F' o) := by
  obtain ⟨⟨a, m₁⟩, hget, hm⟩ := bind_ok.mp hm
  obtain ⟨⟨a', m₂⟩, hmalloc, hget⟩ := bind_ok.mp hget
  obtain ⟨hrun, ⟨rfl, h₂⟩ | ⟨i, F', rfl, -, h₂, hadds⟩⟩ := h.mallocPage_heap hmalloc
  · cases hget
    cases hm
    exact ⟨hrun, .inl ⟨rfl, h₂⟩⟩
  obtain ⟨E, hE⟩ := Option.ne_none_iff_exists'.mp (hadds.used i (Nat.le_refl _) (by omega))
  have hdir := h.not_dir (hadds.fresh i (Nat.le_refl _) (by omega))
  have hholds := Tables.not_holds_heap h₂.sound hE hdir
  obtain ⟨D, hD, hc⟩ := h₂.active
  have hne : D ≠ E := fun he => hholds (he ▸ Tables.holds_dir hD)
  -- the page is cleared, and filled
  have hwalk := h₂.tables.walk_heap h₂.sound hD hc hE rfl
  simp only [Mmu.clearPages_one hwalk, ok_bind] at hget
  cases hget
  have h₃ := h₂.write hholds (m₂.mmu.cleared E) (fun x hx w => if_neg (by simp [hx])) rfl
  have hfill := h₃.fillPageDir_ok hD hE hholds
  simp only [hfill, ok_bind] at hm
  cases hm
  refine ⟨hrun, .inr ⟨i, F', rfl, hadds, fun d hd htable huser => ?_⟩⟩
  have h₄ := h₂.write hholds (m₂.mmu.newDir E D) (fun x hx w => m₂.mmu.newDir_other D hx w) rfl
  have hother : ∀ u, (∀ j, u ≠ .heap j) → F' u = F u := fun u hu =>
    hadds.other u fun j _ _ => hu j
  have hentries : ∀ k < 255, (m₂.mmu.newDir E D).phys E (768 + k) = (0x101 + k) * 4096 + 7 :=
    fun k hk => (m₂.mmu.newDir_kernel hne hk).trans (h₂.tables.kernel o D hD k hk)
  have hclear : ∀ k < 768, (m₂.mmu.newDir E D).phys E k % 2 = 0 := fun k hk => by
    rw [m₂.mmu.newDir_user E D hk]
  have hlive : ∀ d', dir d' ≠ none → d' ≠ d := by
    rintro d' hd' rfl
    exact hd' hd
  refine ⟨h₄.toAccounts, h₄.tables.addDir hE hdir hd (fun k => ?_) (fun p => ?_)
    (m₂.mmu.newDir_self E D) hentries hclear, D, ?_, hc⟩
  · rw [hother _ (by nofun)]
    exact htable k
  · rw [hother _ (by nofun)]
    exact huser p
  · cases o with
    | none => exact hD
    | some d' =>
      obtain ⟨j, hj, hFj⟩ := dirFrame_some hD
      refine dirFrame_eq ?_ hFj
      rw [Function.update_of_ne (hlive d' (by simp [hj]))]
      exact hj

end Books

end ZhuOS
