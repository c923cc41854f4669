import ZhuOS.Spaces

/-!
# `copy_body_stack3` copies an address space

Page by page the child gets what the parent has, in frames of its own, and the parent
keeps what it had. The range of marked pages can be any.
-/

namespace ZhuOS

open Assignment

/-- The tables of a directory, by its address. -/
def Memory.space (m : Memory) (pgdir : Option Nat) : Except Fault Mmu := do
  return { m.mmu with cr3 := ← pagedirPhyAddr m pgdir }

/-- The marked pages of a process are those that are mapped. -/
def MarksMapped (va : VirtualAddr) (m : Mmu) : Prop :=
  ∀ a, (∃ i < va.vaddrBitmap.size, va.vaddrBitmap.bit i = true ∧
      a = va.vaddrStart + i * PG_SIZE) ↔
    a < 0xc0000000 ∧ a % PG_SIZE = 0 ∧ ∃ f, m.walk a = .ok f

/-- The directory entries the marked pages lie behind. -/
def VirtualAddr.tables (va : VirtualAddr) : Finset Nat :=
  (va.marked.map fun i => (va.vaddrStart + i * PG_SIZE) / 2 ^ 22).toFinset

/-! ## The pages one after the other -/

/-- What was in use still is. -/
theorem AddsUser.mono {F F' : Ledger} {d p f x : Nat} {u : Use} (h : AddsUser F F' d p f)
    (hu : F u = some x) : F' u = some x := by
  by_cases hpage : u = .user d p
  · subst hpage
    rw [h.fresh] at hu
    cases hu
  · by_cases htable : u = .table d (p / 1024)
    · subst htable
      rw [h.table (by simp [hu]), hu]
    · rw [h.other u hpage htable, hu]

/-- The tables of process `c` that these pages lack. -/
def missing (F : Ledger) (c : Nat) (pages : List Nat) : Finset Nat :=
  (pages.map (· / 1024)).toFinset.filter fun k => F (.table c k) = none

/-- What the copies of pages to process `c` have done in the end. -/
structure CopiesPages (m m' : Memory) (dir : Nat → Option Nat) (F F' : Ledger)
    (d c b : Nat) (pages : List Nat) : Prop where
  keeps : KeepsOthers F F' c
  copied : ∀ p ∈ pages, ∃ f g, F (.user d p) = some g ∧ F' (.user c p) = some f ∧ ¬ Taken F f ∧
    ∀ w < 1024, m'.mmu.phys f w = m.mmu.phys g w
  rest : ∀ p, p ∉ pages → F' (.user c p) = F (.user c p)
  others : ∀ u x, F u = some x → u ≠ .heap b → (∀ i, dir c = some i → u ≠ .heap i) →
    (∀ k, u ≠ .table c k) → ∀ w, m'.mmu.phys x w = m.mmu.phys x w
  low : ∀ x < 0x200, ∀ w, m'.mmu.phys x w = m.mmu.phys x w
  userStart : m'.userPool.phyAddrStart = m.userPool.phyAddrStart
  userSize : m'.userPool.poolBitmap.size = m.userPool.poolBitmap.size

theorem CopiesPages.cons {m m₁ m' : Memory} {dir : Nat → Option Nat} {F F₁ F' : Ledger}
    {d c b p f g : Nat} {pages : List Nat} (hne : c ≠ d) (hg : F (.user d p) = some g)
    (hp : p ∉ pages) (h : CopiesPage m m₁ dir F F₁ c p b f g)
    (h' : CopiesPages m₁ m' dir F₁ F' d c b pages) :
    CopiesPages m m' dir F F' d c b (p :: pages) := by
  have hparent : ∀ q, F₁ (.user d q) = F (.user d q) := fun q =>
    h.other _ (fun he => hne (by simp only [Use.user.injEq] at he; exact he.1.symm)) (by nofun)
  refine ⟨h.keepsOthers.trans h'.keeps, fun q hq => ?_, fun q hq => ?_,
    fun u x hu hub huc hut w => ?_, fun x hx w => (h'.low x hx w).trans (h.low x hx w),
    h'.userStart.trans h.userStart, h'.userSize.trans h.userSize⟩
  · rcases List.mem_cons.mp hq with rfl | hq
    · refine ⟨f, g, hg, (h'.rest q hp).trans h.page, h.unused, fun w hw => ?_⟩
      rw [h'.others _ f h.page (by nofun) (fun _ _ => by nofun) (fun _ => by nofun)]
      exact h.contents w hw
    · obtain ⟨f', g', hg', hf', hnot, hcontents⟩ := h'.copied q hq
      rw [hparent] at hg'
      refine ⟨f', g', hg', hf', fun ⟨u, hu⟩ => hnot ⟨u, h.mono hu⟩, fun w hw => ?_⟩
      rw [hcontents w hw]
      exact h.others _ g' hg' (by nofun) (fun _ _ => by nofun) (fun _ => by nofun) w
  · rw [List.mem_cons, not_or] at hq
    rw [h'.rest q hq.2]
    exact h.other _ (by simpa using hq.1) (by nofun)
  · rw [h'.others u x (h.mono hu) hub huc hut]
    exact h.others u x hu hub huc hut w

/-- One page takes a table from those that are missing, if it takes one at all. -/
theorem missing_cons {F F' : Ledger} {c p f : Nat} (h : AddsUser F F' c p f)
    (ht : F' (.table c (p / 1024)) ≠ none) (pages : List Nat) :
    (missing F' c pages).card + (if F (.table c (p / 1024)) = none then 1 else 0) ≤
      (missing F c (p :: pages)).card := by
  have hsub : missing F' c pages ⊆ (missing F c (p :: pages)).erase (p / 1024) := by
    intro k hk
    simp only [missing, Finset.mem_filter, Finset.mem_erase, List.map_cons,
      List.toFinset_cons, Finset.mem_insert] at hk ⊢
    have hne : k ≠ p / 1024 := by
      rintro rfl
      exact ht hk.2
    refine ⟨hne, .inr hk.1, ?_⟩
    rw [← h.other (.table c k) (by nofun) (by simpa using hne)]
    exact hk.2
  have hcard := Finset.card_le_card hsub
  by_cases hn : F (.table c (p / 1024)) = none
  · have hmem : p / 1024 ∈ missing F c (p :: pages) := by
      simp [missing, hn]
    have herase := Finset.card_erase_add_one hmem
    rw [if_pos hn]
    omega
  · have herase := Finset.card_erase_le (s := missing F c (p :: pages)) (a := p / 1024)
    rw [if_neg hn]
    omega

namespace Books

variable {m : Memory} {dir : Nat → Option Nat} {F : Ledger}

theorem copyPages_total {d c b B E : Nat} (h : Books m dir F (some d)) (hne : c ≠ d)
    (hb : Buffer dir F b B) (hE : dirFrame F dir (some c) = some E) (addr : Nat → Nat)
    (idxs : List Nat) (haddr : ∀ i ∈ idxs, addr i < 0xc0000000 ∧ addr i % 4096 = 0)
    (hnodup : (idxs.map (addr · / 4096)).Nodup)
    (hsource : ∀ i ∈ idxs, F (.user d (addr i / 4096)) ≠ none)
    (hfresh : ∀ i ∈ idxs, F (.user c (addr i / 4096)) = none)
    (huser : idxs.length ≤ m.userPool.poolBitmap.free.card)
    (hkernel : (missing F c (idxs.map (addr · / 4096))).card ≤ m.kernelPool.poolBitmap.free.card) :
    ∃ m' F', idxs.foldlM (fun m i => copyPage ((dir c).map pageAddr) ((dir d).map pageAddr)
        (pageAddr b) (addr i) m) m = .ok m' ∧ Books m' dir F' (some d) ∧
      CopiesPages m m' dir F F' d c b (idxs.map (addr · / 4096)) := by
  induction idxs generalizing m F with
  | nil =>
    exact ⟨m, F, rfl, h, .refl F c, nofun, fun _ _ => rfl, fun _ _ _ _ _ _ _ => rfl,
      fun _ _ _ => rfl, rfl, rfl⟩
  | cons i idxs ih =>
    simp only [List.forall_mem_cons] at haddr hsource hfresh
    rw [List.map_cons, List.nodup_cons] at hnodup
    rw [List.length_cons] at huser
    obtain ⟨g, hg⟩ := Option.ne_none_iff_exists'.mp hsource.1
    have hk : F (.table c (addr i / 4096 / 1024)) = none →
        0 < m.kernelPool.poolBitmap.free.card := by
      intro hn
      refine Nat.lt_of_lt_of_le (Finset.card_pos.mpr ⟨addr i / 4096 / 1024, ?_⟩) hkernel
      simp [missing, hn]
    obtain ⟨m₁, hcopy⟩ := h.copyPage_total hb hg haddr.1.1 haddr.1.2 hE hfresh.1 (by omega) hk
    obtain ⟨f, F₁, h₁, hone⟩ := h.copyPage_ok hb hg haddr.1.1 haddr.1.2 hE hcopy
    have hheap : ∀ j, F₁ (.heap j) = F (.heap j) := fun j => hone.other _ (by nofun) (by nofun)
    have hE₁ : dirFrame F₁ dir (some c) = some E := by
      rw [dirFrame_congr fun _ j _ => hheap j]
      exact hE
    have ht : F₁ (.table c (addr i / 4096 / 1024)) ≠ none := fun hn => by
      have hpage := h₁.tables.rooted c _ (addr i / 4096 % 1024) (dirFrame_live hE) (by omega) hn
      rw [Nat.div_add_mod, hone.page] at hpage
      cases hpage
    have hmissing := missing_cons hone.toAddsUser ht (idxs.map (addr · / 4096))
    have huserFree := hone.userFree
    have hkernelFree := hone.kernelFree
    rw [List.map_cons] at hkernel
    obtain ⟨m', F', hfold, h', hrest⟩ := ih h₁ (buffer_of hb (hheap b)) hE₁ haddr.2 hnodup.2
      (fun j hj => by
        rw [hone.other _ (fun he => hne (by simp only [Use.user.injEq] at he; exact he.1.symm))
          (by nofun)]
        exact hsource.2 j hj)
      (fun j hj => by
        rw [hone.other _ (fun he => hnodup.1 (List.mem_map.mpr ⟨j, hj, by simpa using he⟩))
          (by nofun)]
        exact hfresh.2 j hj)
      (by omega) (by omega)
    refine ⟨m', F', ?_, h', .cons hne hg hnodup.1 hone hrest⟩
    rw [List.foldlM_cons, hcopy]
    exact hfold

end Books

/-! ## The address spaces -/

/-- What the copy leaves: `child` is the child's address space, `m` and `m'` are memory
before and after. -/
structure Forked (m m' : Memory) (child : Mmu) : Prop where
  /-- the child reads what the parent reads, and can read nothing else -/
  same : ∀ a < 0xc0000000, child.load a = m.mmu.load a
  unused : ∀ a < 0xc0000000, ∀ f, child.walk a = .ok f → ∃ k < m.userPool.poolBitmap.size,
    m.userPool.poolBitmap.bit k = false ∧ f = m.frame .PF_USER k
  own : ∀ a < 0xc0000000, ∀ a' < 0xc0000000, ∀ f, child.walk a = .ok f → child.walk a' = .ok f →
    a / PG_SIZE = a' / PG_SIZE
  directory : m'.mmu.cr3 = m.mmu.cr3
  walk : ∀ a < 2 ^ 32, m'.mmu.walk a = m.mmu.walk a
  /-- the parent's pages, and its tables as they are seen at the end of the addresses -/
  parent : ∀ a < 2 ^ 32, a < 0xc0000000 ∨ 0xffc00000 ≤ a → m'.mmu.load a = m.mmu.load a

namespace CopiesPages

variable {m m' : Memory} {dir : Nat → Option Nat} {F F' : Ledger} {d c b : Nat} {pages : List Nat}

/-- The directory of the parent, its tables and its pages are as they were. -/
theorem parent_frame (h : CopiesPages m m' dir F F' d c b pages) (hne : c ≠ d) {u : Use} {x : Nat}
    (hu : F u = some x) (hud : (∃ k, u = .table d k) ∨ ∃ p, u = .user d p) (w : Nat) :
    m'.mmu.phys x w = m.mmu.phys x w := by
  rcases hud with ⟨k, rfl⟩ | ⟨p, rfl⟩
  · refine h.others _ x hu (by nofun) (fun _ _ => by nofun) (fun l he => hne ?_) w
    simp only [Use.table.injEq] at he
    exact he.1.symm
  · exact h.others _ x hu (by nofun) (fun _ _ => by nofun) (fun _ => by nofun) w

theorem parent_dir (h : CopiesPages m m' dir F F' d c b pages) (hne : c ≠ d)
    (ht : Tables m.mmu.phys dir F) (hb : ∀ d, dir d ≠ some b) {D : Nat}
    (hD : dirFrame F dir (some d) = some D) (w : Nat) : m'.mmu.phys D w = m.mmu.phys D w := by
  obtain ⟨i, hi, hF⟩ := dirFrame_some hD
  refine h.others _ D hF (fun he => ?_) (fun j hj he => ?_) (fun _ => by nofun) w
  · cases he
    exact hb d hi
  · cases he
    exact hne (ht.own c d i hj hi)

/-- So are the frames its directory leads to. -/
theorem parent_entry (h : CopiesPages m m' dir F F' d c b pages) (hne : c ≠ d)
    (ht : Tables m.mmu.phys dir F) (hb : ∀ d, dir d ≠ some b) {D k : Nat}
    (hD : dirFrame F dir (some d) = some D) (hk : k < 1024) (hp : m.mmu.phys D k % 2 ≠ 0)
    (w : Nat) : m'.mmu.phys (m.mmu.phys D k / 4096) w = m.mmu.phys (m.mmu.phys D k / 4096) w := by
  by_cases hlow : k < 768
  · have hentry := ht.entries d D hD k hlow
    cases hF : F (.table d k) with
    | none =>
      rw [hF] at hentry
      exact absurd hentry hp
    | some t =>
      rw [hF] at hentry
      have hentry : m.mmu.phys D k = t * 4096 + 7 := hentry
      rw [hentry, entry_div]
      exact h.parent_frame hne hF (.inl ⟨k, rfl⟩) w
  · by_cases hself : k = 1023
    · rw [hself, ht.self _ D hD, entry_div]
      exact h.parent_dir hne ht hb hD w
    · have hentry := ht.kernel _ D hD (k - 768) (by omega)
      have hidx : 768 + (k - 768) = k := by omega
      rw [hidx] at hentry
      rw [hentry, entry_div]
      exact h.low _ (by omega) w

theorem parent_walk (h : CopiesPages m m' dir F F' d c b pages) (hne : c ≠ d)
    (ht : Tables m.mmu.phys dir F) (ht' : Tables m'.mmu.phys dir F') (hb : ∀ d, dir d ≠ some b)
    {D : Nat} (hD : dirFrame F dir (some d) = some D) (hD' : dirFrame F' dir (some d) = some D)
    (hc : m.mmu.cr3 = D * 4096) (hc' : m'.mmu.cr3 = D * 4096) {a : Nat} (ha : a < 2 ^ 32) :
    m'.mmu.walk a = m.mmu.walk a := by
  rw [(ht.root hD hc).walk, (ht'.root hD' hc').walk, h.parent_dir hne ht hb hD]
  by_cases hp : m.mmu.phys D (a / 2 ^ 22) % 2 = 0
  · rw [if_pos hp, if_pos hp]
  · rw [if_neg hp, if_neg hp, h.parent_entry hne ht hb hD (by omega) hp]

theorem parent_load (h : CopiesPages m m' dir F F' d c b pages) (hne : c ≠ d)
    (ht : Tables m.mmu.phys dir F) (ht' : Tables m'.mmu.phys dir F') (hb : ∀ d, dir d ≠ some b)
    {D : Nat} (hD : dirFrame F dir (some d) = some D) (hD' : dirFrame F' dir (some d) = some D)
    (hc : m.mmu.cr3 = D * 4096) (hc' : m'.mmu.cr3 = D * 4096) {a : Nat} (ha : a < 2 ^ 32)
    (hown : a < 0xc0000000 ∨ 0xffc00000 ≤ a) : m'.mmu.load a = m.mmu.load a := by
  have hwalk := h.parent_walk hne ht ht' hb hD hD' hc hc' ha
  have hframe : ∀ f, m.mmu.walk a = .ok f → ∀ w, m'.mmu.phys f w = m.mmu.phys f w := by
    intro f hf w
    rcases hown with hlow | hhigh
    · rw [ht.walk_user hD hc hlow] at hf
      cases hu : F (.user d (a / 4096)) with
      | none =>
        rw [hu] at hf
        cases hf
      | some g =>
        rw [hu] at hf
        cases hf
        exact h.parent_frame hne hu (.inr ⟨_, rfl⟩) w
    · -- an entry of the directory, seen as a page
      have hself := ht.self _ D hD
      have hodd := entry_present D
      have hidx : a / 2 ^ 22 = 1023 := by omega
      rw [(ht.root hD hc).walk, hidx, hself, if_neg (by omega), entry_div] at hf
      split at hf
      · cases hf
      · rename_i hp
        cases hf
        exact h.parent_entry hne ht hb hD (Nat.mod_lt _ (by decide)) hp w
  simp only [Mmu.load, hwalk]
  cases hf : m.mmu.walk a with
  | error e => rfl
  | ok f =>
    simp only [ok_bind, hframe f hf]

end CopiesPages

/-- The address of a bit of the range, as the loops compute it. -/
def VirtualAddr.addr (va : VirtualAddr) (i : Nat) : Nat := u32 (i * PG_SIZE + va.vaddrStart)

/-- The numbers of the marked pages. -/
def VirtualAddr.pages (va : VirtualAddr) : List Nat := va.marked.map (va.addr · / 4096)

/-- The parent runs with its pages marked, the child's directory is new, page `b` of the heap
is the buffer, and there are frames enough. -/
structure ForkReady (m : Memory) (dir : Nat → Option Nat) (F : Ledger) (d c b : Nat)
    (child : Mmu) : Prop where
  books : Books m dir F (some d)
  parent : m.running.pgdir = (dir d).map pageAddr
  marks : MarksMapped m.running.userprogVaddr m.mmu
  other : c ≠ d
  live : dir c ≠ none
  space : m.space ((dir c).map pageAddr) = .ok child
  fresh : ∀ a < 0xc0000000, child.walk a = .error .badAddress
  buffer : ∃ B, Buffer dir F b B
  userFrames : m.running.userprogVaddr.marked.length ≤ m.userPool.poolBitmap.free.card
  /-- a frame for each table -/
  kernelFrames : m.running.userprogVaddr.tables.card ≤ m.kernelPool.poolBitmap.free.card

namespace ForkReady

variable {m : Memory} {dir : Nat → Option Nat} {F : Ledger} {d c b : Nat} {child : Mmu}

theorem child_dir (h : ForkReady m dir F d c b child) :
    ∃ E, dirFrame F dir (some c) = some E ∧ child = ⟨m.mmu.phys, E * 4096⟩ := by
  obtain ⟨i, hi⟩ := Option.ne_none_iff_exists'.mp h.live
  obtain ⟨E, hF⟩ := Option.ne_none_iff_exists'.mp (h.books.tables.dirs c i hi)
  have hE : dirFrame F dir (some c) = some E := dirFrame_eq hi hF
  have hspace := h.books.pagedirPhyAddr_eq hE
  rw [Option.bind_some] at hspace
  have hchild := h.space
  simp only [Memory.space, hspace, ok_bind] at hchild
  cases hchild
  exact ⟨E, hE, rfl⟩

/-- The child has no page yet. -/
theorem child_empty (h : ForkReady m dir F d c b child) {p : Nat} (hp : p < 768 * 1024) :
    F (.user c p) = none := by
  obtain ⟨E, hE, rfl⟩ := h.child_dir
  have htables : Tables (Mmu.mk m.mmu.phys (E * 4096)).phys dir F := h.books.tables
  have hwalk := h.fresh (p * 4096) (by omega)
  have hdiv : p * 4096 / 4096 = p := Nat.mul_div_cancel p (by decide)
  rw [htables.walk_user hE rfl (by omega), hdiv] at hwalk
  cases hF : F (.user c p) with
  | none => rfl
  | some f =>
    rw [hF] at hwalk
    cases hwalk

/-- The loops come to the addresses the marks stand for. -/
theorem addr_eq (h : ForkReady m dir F d c b child) {i : Nat}
    (hi : i ∈ m.running.userprogVaddr.marked) :
    m.running.userprogVaddr.addr i = m.running.userprogVaddr.vaddrStart + i * PG_SIZE ∧
    m.running.userprogVaddr.addr i < 0xc0000000 ∧ m.running.userprogVaddr.addr i % 4096 = 0 ∧
    ∃ f, m.mmu.walk (m.running.userprogVaddr.addr i) = .ok f := by
  obtain ⟨hlt, hbit⟩ := VirtualAddr.mem_marked.mp hi
  have hmapped := (h.marks _).mp ⟨i, hlt, hbit, rfl⟩
  have haddr : m.running.userprogVaddr.addr i =
      m.running.userprogVaddr.vaddrStart + i * PG_SIZE := by
    have hlow := hmapped.1
    rw [VirtualAddr.addr, Nat.add_comm, u32_eq (by omega)]
  rw [haddr]
  exact ⟨rfl, hmapped⟩

theorem pages_nodup (h : ForkReady m dir F d c b child) :
    m.running.userprogVaddr.pages.Nodup := by
  refine List.Nodup.map_on (fun i hi j hj he => ?_) (VirtualAddr.marked_nodup _)
  rw [(h.addr_eq hi).1, (h.addr_eq hj).1] at he
  unfold PG_SIZE at he
  omega

/-- The pages that are copied are those of the parent. -/
theorem mem_pages (h : ForkReady m dir F d c b child) {p : Nat} (hp : p < 768 * 1024) :
    p ∈ m.running.userprogVaddr.pages ↔ F (.user d p) ≠ none := by
  obtain ⟨D, hD, hc⟩ := h.books.active
  have hdiv : p * 4096 / 4096 = p := Nat.mul_div_cancel p (by decide)
  constructor
  · intro hin hn
    obtain ⟨i, hi, rfl⟩ := List.mem_map.mp hin
    obtain ⟨-, hlt, -, f, hf⟩ := h.addr_eq hi
    rw [h.books.tables.walk_user hD hc hlt, hn] at hf
    cases hf
  · intro hF
    obtain ⟨g, hg⟩ := Option.ne_none_iff_exists'.mp hF
    have hwalk : m.mmu.walk (p * 4096) = .ok g := by
      rw [h.books.tables.walk_user hD hc (by omega), hdiv, hg]
    obtain ⟨i, hi, hbit, ha⟩ := (h.marks (p * 4096)).mpr
      ⟨by omega, Nat.mul_mod_left .., g, hwalk⟩
    have hmem := VirtualAddr.mem_marked.mpr ⟨hi, hbit⟩
    refine List.mem_map.mpr ⟨i, hmem, ?_⟩
    rw [(h.addr_eq hmem).1, ← ha, hdiv]

theorem missing_le (h : ForkReady m dir F d c b child) :
    (missing F c m.running.userprogVaddr.pages).card ≤
      m.running.userprogVaddr.tables.card := by
  apply Finset.card_le_card
  intro k hk
  obtain ⟨hk, -⟩ := Finset.mem_filter.mp hk
  rw [List.mem_toFinset, VirtualAddr.pages, List.map_map, List.mem_map] at hk
  obtain ⟨i, hi, rfl⟩ := hk
  rw [VirtualAddr.tables, List.mem_toFinset, List.mem_map]
  refine ⟨i, hi, ?_⟩
  rw [← (h.addr_eq hi).1]
  dsimp only [Function.comp]
  omega

theorem copies (h : ForkReady m dir F d c b child) :
    ∃ m' F', copyBodyStack3 m ((dir c).map pageAddr) (pageAddr b) = .ok m' ∧
      Books m' dir F' (some d) ∧
      CopiesPages m m' dir F F' d c b m.running.userprogVaddr.pages := by
  obtain ⟨E, hE, -⟩ := h.child_dir
  obtain ⟨B, hb⟩ := h.buffer
  have hpage : ∀ i ∈ m.running.userprogVaddr.marked,
      m.running.userprogVaddr.addr i / 4096 < 768 * 1024 := fun i hi => by
    have := (h.addr_eq hi).2.1
    omega
  obtain ⟨m', F', hfold, h', hcopies⟩ := h.books.copyPages_total h.other hb hE
    m.running.userprogVaddr.addr m.running.userprogVaddr.marked
    (fun i hi => ⟨(h.addr_eq hi).2.1, (h.addr_eq hi).2.2.1⟩) h.pages_nodup
    (fun i hi => (h.mem_pages (hpage i hi)).mp (List.mem_map.mpr ⟨i, hi, rfl⟩))
    (fun i hi => h.child_empty (hpage i hi)) h.userFrames
    (Nat.le_trans h.missing_le h.kernelFrames)
  refine ⟨m', F', ?_, h', hcopies⟩
  rw [copyBodyStack3_eq, h.parent]
  exact hfold

/-- Each page is in both address spaces, with the same contents, or in none. -/
theorem copied_page (h : ForkReady m dir F d c b child) {m' : Memory} {F' : Ledger}
    (hcopies : CopiesPages m m' dir F F' d c b m.running.userprogVaddr.pages) {p : Nat}
    (hp : p < 768 * 1024) : (F (.user d p) = none ∧ F' (.user c p) = none) ∨
      ∃ f g, F (.user d p) = some g ∧ F' (.user c p) = some f ∧ ¬ Taken F f ∧
        ∀ w < 1024, m'.mmu.phys f w = m.mmu.phys g w := by
  by_cases hin : p ∈ m.running.userprogVaddr.pages
  · exact .inr (hcopies.copied p hin)
  · have hn : F (.user d p) = none := by
      by_contra hF
      exact hin ((h.mem_pages hp).mpr hF)
    exact .inl ⟨hn, (hcopies.rest p hin).trans (h.child_empty hp)⟩

/-- A frame that has got its first use was free. -/
theorem unused_free (h : ForkReady m dir F d c b child) {m' : Memory} {F' : Ledger} {p f : Nat}
    (h' : Books m' dir F' (some d))
    (hcopies : CopiesPages m m' dir F F' d c b m.running.userprogVaddr.pages)
    (hf : F' (.user c p) = some f) (hnot : ¬ Taken F f) :
    ∃ k < m.userPool.poolBitmap.size, m.userPool.poolBitmap.bit k = false ∧
      f = m.frame .PF_USER k := by
  obtain ⟨k, hk, he⟩ := h'.frames _ _ hf
  have hk : k < m.userPool.poolBitmap.size := hcopies.userSize ▸ hk
  have he : f = m.frame .PF_USER k := by
    apply he.trans
    show m'.userPool.phyAddrStart / PG_SIZE + k = _
    rw [hcopies.userStart]
    rfl
  refine ⟨k, hk, ?_, he⟩
  cases hbit : m.userPool.poolBitmap.bit k with
  | false => rfl
  | true => exact absurd ((h.books.marked .PF_USER k hk).mp hbit) (he ▸ hnot)

theorem forked (h : ForkReady m dir F d c b child) {m' : Memory} {F' : Ledger}
    (h' : Books m' dir F' (some d))
    (hcopies : CopiesPages m m' dir F F' d c b m.running.userprogVaddr.pages) {E : Nat}
    (hE' : dirFrame F' dir (some c) = some E) : Forked m m' ⟨m'.mmu.phys, E * 4096⟩ := by
  obtain ⟨D, hD, hc⟩ := h.books.active
  obtain ⟨B, hb⟩ := h.buffer
  have hheap : ∀ j, F' (.heap j) = F (.heap j) := fun j => hcopies.keeps _ (by nofun) (by nofun)
  have hD' : dirFrame F' dir (some d) = some D := by
    rw [dirFrame_congr fun _ j _ => hheap j]
    exact hD
  have hc' := h'.cr3_eq hD'
  have htables' : Tables (Mmu.mk m'.mmu.phys (E * 4096)).phys dir F' := h'.tables
  have hwalk : ∀ a < 0xc0000000, ∀ f, (Mmu.mk m'.mmu.phys (E * 4096)).walk a = .ok f →
      F' (.user c (a / 4096)) = some f := by
    intro a ha f hf
    rw [htables'.walk_user hE' rfl ha] at hf
    cases hu : F' (.user c (a / 4096)) with
    | none =>
      rw [hu] at hf
      cases hf
    | some x =>
      rw [hu] at hf
      cases hf
      rfl
  refine ⟨fun a ha => ?_, fun a ha f hf => ?_, fun a ha a' ha' f hf hf' => ?_, hc'.trans hc.symm,
    fun a ha => hcopies.parent_walk h.other h.books.tables h'.tables hb.plain hD hD' hc hc' ha,
    fun a ha => hcopies.parent_load h.other h.books.tables h'.tables hb.plain hD hD' hc hc' ha⟩
  · rw [Mmu.load, Mmu.load, htables'.walk_user hE' rfl ha, h.books.tables.walk_user hD hc ha]
    rcases h.copied_page hcopies (show a / 4096 < 768 * 1024 by omega) with
      ⟨hn, hn'⟩ | ⟨f, g, hg, hf, -, hcontents⟩
    · rw [hn, hn']
      rfl
    · rw [hg, hf]
      simp only [ok_bind]
      exact congrArg Except.ok (hcontents _ (by omega))
  · have hu := hwalk a ha f hf
    rcases h.copied_page hcopies (show a / 4096 < 768 * 1024 by omega) with
      ⟨-, hn⟩ | ⟨f', g, -, hf', hnot, -⟩
    · rw [hn] at hu
      cases hu
    · rw [hf'] at hu
      cases hu
      exact h.unused_free h' hcopies hf' hnot
  · have he := h'.distinct _ _ _ (hwalk a ha f hf) (hwalk a' ha' f hf')
    simp only [Use.user.injEq, true_and] at he
    exact he

end ForkReady

/-- A state the system has reached is ready when the marks are right and frames are left. -/
theorem Balanced.forkReady {w : Processes} {dir : Nat → Option Nat} {F : Ledger} {d c bufPage : Nat}
    {child : Mmu} (h : Balanced w dir F) (hd : w.current = some d)
    (hg : w.guard (.copyBodyStack3 c bufPage))
    (hmarks : MarksMapped w.mem.running.userprogVaddr w.mem.mmu)
    (hspace : w.space (some c) = .ok child)
    (hfresh : ∀ a < 0xc0000000, child.walk a = .error .badAddress)
    (huser : w.mem.running.userprogVaddr.marked.length ≤ w.mem.userPool.poolBitmap.free.card)
    (hkernel : w.mem.running.userprogVaddr.tables.card ≤
      w.mem.kernelPool.poolBitmap.free.card) :
    ∃ b, bufPage = pageAddr b ∧ ForkReady w.mem dir F d c b child := by
  obtain ⟨-, hne, hc, hal, hwrite⟩ := hg
  obtain ⟨b, B, rfl, hb⟩ := h.writable hwrite hal
  have hbooks := h.books
  rw [hd] at hbooks hne
  have hpgdir : w.pgdir c = (dir c).map pageAddr := h.pgdir c
  refine ⟨b, rfl, hbooks, ?_, hmarks, fun he => hne (congrArg some he.symm), ?_, ?_, hfresh,
    ⟨B, hb⟩, huser, hkernel⟩
  · rw [h.running, hd]
    exact h.pgdir d
  · intro hn
    rw [hpgdir, hn] at hc
    exact hc rfl
  · rw [← hpgdir]
    exact hspace

/-- The copy goes through: the child has the parent's pages in frames that were free, and the
parent's address space is what it was. -/
theorem copyBodyStack3_forks {m : Memory} {dir : Nat → Option Nat} {F : Ledger} {d c b : Nat}
    {child : Mmu} (h : ForkReady m dir F d c b child) :
    ∃ m' child', copyBodyStack3 m ((dir c).map pageAddr) (pageAddr b) = .ok m' ∧
      m'.space ((dir c).map pageAddr) = .ok child' ∧ Forked m m' child' := by
  obtain ⟨m', F', hcopy, h', hcopies⟩ := h.copies
  obtain ⟨E, hE, -⟩ := h.child_dir
  have hE' : dirFrame F' dir (some c) = some E := by
    rw [dirFrame_congr fun _ j _ => hcopies.keeps _ (by nofun) (by nofun)]
    exact hE
  refine ⟨m', _, hcopy, ?_, h.forked h' hcopies hE'⟩
  have hdir := h'.pagedirPhyAddr_eq hE'
  rw [Option.bind_some] at hdir
  simp only [Memory.space, hdir, ok_bind]
  rfl

/-! ## A parent with one page -/

def oneParent : Ledger
  | .heap 0 => some 0x200
  | .heap 1 => some 0x201
  | .heap 2 => some 0x202
  | .table 0 32 => some 0x203
  | .user 0 32841 => some 0x208
  | _ => none

def twoDirs : Nat → Option Nat
  | 0 => some 0
  | 1 => some 1
  | _ => none

/-- The directories are in frames 0x200 and 0x201, the buffer is in 0x202, and page 0x8049 of
the parent, behind the table in 0x203, is the first frame of the user pool. -/
def oneParentMemory : Memory where
  mmu :=
    { cr3 := 0x200 * 4096
      phys := fun f w =>
        if f = 0x100 ∨ f = 0x200 ∨ f = 0x201 then
          if w = 1023 then f * 4096 + 7
          else if 768 ≤ w then (0x101 + (w - 768)) * 4096 + 7
          else if f = 0x200 ∧ w = 32 then 0x203 * 4096 + 7 else 0
        else if f = 0x101 ∧ 256 ≤ w ∧ w < 259 then (0x200 + (w - 256)) * 4096 + 7
        else if f = 0x203 ∧ w = 73 then 0x208 * 4096 + 7
        else if f = 0x208 then w else 0 }
  kernelPool := ⟨⟨1, fun _ => 0x0f⟩, USED_MEM, 0x8000, 0⟩
  userPool := ⟨⟨1, fun _ => 0x01⟩, 0x208000, 0x8000, 0⟩
  kernelVaddr := ⟨⟨1, fun _ => 0x07⟩, K_HEAP_START⟩
  running := ⟨some K_HEAP_START, userRange fun i => if i = 0 then 0x02 else 0⟩

theorem oneParent_some {u : Use} {f : Nat} (h : oneParent u = some f) :
    u = .heap 0 ∧ f = 0x200 ∨ u = .heap 1 ∧ f = 0x201 ∨ u = .heap 2 ∧ f = 0x202 ∨
      u = .table 0 32 ∧ f = 0x203 ∨ u = .user 0 32841 ∧ f = 0x208 := by
  unfold oneParent at h
  split at h <;> simp_all

theorem twoDirs_some {d i : Nat} (h : twoDirs d = some i) : d = 0 ∧ i = 0 ∨ d = 1 ∧ i = 1 := by
  unfold twoDirs at h
  split at h <;> simp_all

theorem oneParent_taken (f : Nat) : Taken oneParent f ↔
    0x200 ≤ f ∧ f ≤ 0x203 ∨ f = 0x208 := by
  constructor
  · rintro ⟨u, hu⟩
    have := oneParent_some hu
    omega
  · intro h
    obtain rfl | rfl | rfl | rfl | rfl :
        f = 0x200 ∨ f = 0x201 ∨ f = 0x202 ∨ f = 0x203 ∨ f = 0x208 := by omega
    · exact ⟨.heap 0, rfl⟩
    · exact ⟨.heap 1, rfl⟩
    · exact ⟨.heap 2, rfl⟩
    · exact ⟨.table 0 32, rfl⟩
    · exact ⟨.user 0 32841, rfl⟩

theorem oneParent_accounts : Accounts oneParentMemory oneParent := by
  refine ⟨⟨rfl, by decide, rfl, by decide, rfl, by decide⟩, fun u u' f hu hu' => ?_,
    fun u f hu => ?_, fun u f hu => ?_, fun pf k hk => ?_⟩
  · have h := oneParent_some hu
    have h' := oneParent_some hu'
    rcases h with ⟨rfl, rfl⟩ | ⟨rfl, rfl⟩ | ⟨rfl, rfl⟩ | ⟨rfl, rfl⟩ | ⟨rfl, rfl⟩ <;>
      exact (show u' = _ by simpa using h').symm
  · rcases oneParent_some hu with ⟨rfl, -⟩ | ⟨rfl, -⟩ | ⟨rfl, -⟩ | ⟨rfl, -⟩ | ⟨rfl, -⟩ <;>
      simp [Use.InRange, HEAP_PAGES]
  · rcases oneParent_some hu with ⟨rfl, rfl⟩ | ⟨rfl, rfl⟩ | ⟨rfl, rfl⟩ | ⟨rfl, rfl⟩ | ⟨rfl, rfl⟩
    · exact ⟨0, by decide, rfl⟩
    · exact ⟨1, by decide, rfl⟩
    · exact ⟨2, by decide, rfl⟩
    · exact ⟨3, by decide, rfl⟩
    · exact ⟨0, by decide, rfl⟩
  · rw [oneParent_taken]
    cases pf with
    | PF_KERNEL =>
      have hk : k < 8 := hk
      revert k
      decide
    | PF_USER =>
      have hk : k < 8 := hk
      revert k
      decide

theorem oneParent_dir {o : Option Nat} {D : Nat} (h : dirFrame oneParent twoDirs o = some D) :
    o = none ∧ D = 0x100 ∨ o = some 0 ∧ D = 0x200 ∨ o = some 1 ∧ D = 0x201 := by
  cases o with
  | none => exact .inl ⟨rfl, (Option.some.inj h).symm⟩
  | some d =>
    obtain ⟨i, hi, hF⟩ := dirFrame_some h
    rcases twoDirs_some hi with ⟨rfl, rfl⟩ | ⟨rfl, rfl⟩
    · exact .inr (.inl ⟨rfl, (Option.some.inj hF).symm⟩)
    · exact .inr (.inr ⟨rfl, (Option.some.inj hF).symm⟩)

theorem oneParent_tables : Tables oneParentMemory.mmu.phys twoDirs oneParent := by
  refine ⟨fun o D hD => ?_, fun o D hD k hk => ?_, fun i f hi => ?_, fun d D hD k hk => ?_,
    fun d k t hd ht w hw => ?_, fun d k w hd hw hn => ?_, fun d i hd => ?_, fun d d' i hd hd' => ?_⟩
  · rcases oneParent_dir hD with ⟨-, rfl⟩ | ⟨-, rfl⟩ | ⟨-, rfl⟩ <;> rfl
  · have hdir : D = 0x100 ∨ D = 0x200 ∨ D = 0x201 := by
      have := oneParent_dir hD
      omega
    have hidx : 768 + k - 768 = k := by omega
    simp only [oneParentMemory, hdir, ↓reduceIte]
    rw [if_neg (by omega), if_pos (by omega), hidx]
  · rcases oneParent_some hi with ⟨he, rfl⟩ | ⟨he, rfl⟩ | ⟨he, rfl⟩ | ⟨he, -⟩ | ⟨he, -⟩ <;>
      cases he <;> rfl
  · have hdir : D = 0x100 ∨ D = 0x200 ∨ D = 0x201 := by
      have := oneParent_dir hD
      omega
    have hword : oneParentMemory.mmu.phys D k =
        if D = 0x200 ∧ k = 32 then 0x203 * 4096 + 7 else 0 := by
      simp only [oneParentMemory, hdir, ↓reduceIte]
      rw [if_neg (by omega), if_neg (by omega)]
    rw [hword]
    cases ht : oneParent (.table d k) with
    | some t =>
      rcases oneParent_some ht with ⟨he, -⟩ | ⟨he, -⟩ | ⟨he, -⟩ | ⟨he, rfl⟩ | ⟨he, -⟩ <;> cases he
      cases hD
      rfl
    | none =>
      rw [if_neg]
      · rfl
      · rintro ⟨rfl, rfl⟩
        rcases oneParent_dir hD with ⟨he, -⟩ | ⟨he, -⟩ | ⟨-, he⟩
        · cases he
        · cases he
          cases ht
        · cases he
  · rcases oneParent_some ht with ⟨he, -⟩ | ⟨he, -⟩ | ⟨he, -⟩ | ⟨he, rfl⟩ | ⟨he, -⟩ <;> cases he
    have hword : oneParentMemory.mmu.phys 0x203 w = if w = 73 then 0x208 * 4096 + 7 else 0 := by
      simp [oneParentMemory]
    rw [hword]
    cases hu : oneParent (.user 0 (1024 * 32 + w)) with
    | some f =>
      have hp := oneParent_some hu
      simp only [reduceCtorEq, false_and, Use.user.injEq, true_and, false_or] at hp
      rw [if_pos (by omega), hp.2]
      rfl
    | none =>
      rw [if_neg]
      · rfl
      · rintro rfl
        cases hu
  · cases hu : oneParent (.user d (1024 * k + w)) with
    | none => rfl
    | some f =>
      have hp := oneParent_some hu
      simp only [reduceCtorEq, false_and, Use.user.injEq, false_or] at hp
      obtain ⟨⟨rfl, hp⟩, -⟩ := hp
      obtain rfl : k = 32 := by omega
      cases hn
  · rcases twoDirs_some hd with ⟨-, rfl⟩ | ⟨-, rfl⟩ <;> nofun
  · have := twoDirs_some hd
    have := twoDirs_some hd'
    omega

/-- One page of the parent is marked, page 0x8049. -/
theorem oneParent_bit (i : Nat) :
    oneParentMemory.running.userprogVaddr.vaddrBitmap.bit i = true ↔ i = 1 := by
  show PackedBits.bit (fun i => if i = 0 then 0x02 else 0) i = true ↔ i = 1
  by_cases hi : i < 8
  · revert i
    decide
  · have hbyte : i / 8 ≠ 0 := by omega
    simp only [PackedBits.bit, if_neg hbyte]
    simp
    omega

theorem oneParent_books : Books oneParentMemory twoDirs oneParent (some 0) :=
  ⟨oneParent_accounts, oneParent_tables, 0x200, rfl, rfl⟩

theorem oneParent_walk {a : Nat} (ha : a < 0xc0000000) (f : Nat) :
    oneParentMemory.mmu.walk a = .ok f ↔ oneParent (.user 0 (a / 4096)) = some f := by
  have htables := oneParent_tables
  have hD : dirFrame oneParent twoDirs (some 0) = some 0x200 := rfl
  rw [htables.walk_user hD rfl ha]
  cases oneParent (.user 0 (a / 4096)) with
  | none => simp
  | some g => simp

theorem oneParent_marks :
    MarksMapped oneParentMemory.running.userprogVaddr oneParentMemory.mmu := by
  intro a
  have hstart : oneParentMemory.running.userprogVaddr.vaddrStart = 0x8048000 := rfl
  simp only [oneParent_bit, hstart]
  unfold PG_SIZE
  constructor
  · rintro ⟨i, -, rfl, rfl⟩
    exact ⟨by decide, rfl, 0x208, (oneParent_walk (by decide) _).mpr rfl⟩
  · rintro ⟨ha, hmod, f, hf⟩
    rw [oneParent_walk ha] at hf
    have hpage := oneParent_some hf
    simp only [reduceCtorEq, false_and, Use.user.injEq, true_and, false_or] at hpage
    exact ⟨1, by decide, rfl, by omega⟩

theorem oneParent_marked : oneParentMemory.running.userprogVaddr.marked.length ≤ 1 := by
  have hone : oneParentMemory.running.userprogVaddr.marked ⊆ [1] := fun i hi =>
    List.mem_singleton.mpr ((oneParent_bit i).mp (VirtualAddr.mem_marked.mp hi).2)
  exact ((VirtualAddr.marked_nodup _).subperm hone).length_le

theorem oneParent_ready :
    ForkReady oneParentMemory twoDirs oneParent 0 1 2 ⟨oneParentMemory.mmu.phys, 0x201 * 4096⟩ := by
  have hE : dirFrame oneParent twoDirs (some 1) = some 0x201 := rfl
  refine ⟨oneParent_books, rfl, oneParent_marks, by decide, by decide, ?_, fun a ha => ?_,
    ⟨0x202, rfl, fun d hd => ?_⟩, ?_, ?_⟩
  · have hdir := oneParent_books.pagedirPhyAddr_eq hE
    rw [Option.bind_some] at hdir
    simp only [Memory.space, hdir, ok_bind]
    rfl
  · have htables : Tables (Mmu.mk oneParentMemory.mmu.phys (0x201 * 4096)).phys twoDirs oneParent :=
      oneParent_tables
    have hnone : oneParent (.user 1 (a / 4096)) = none := rfl
    rw [htables.walk_user hE rfl ha, hnone]
  · have := twoDirs_some hd
    omega
  · exact Nat.le_trans oneParent_marked (by decide)
  · apply Nat.le_trans (List.toFinset_card_le _)
    rw [List.length_map]
    exact Nat.le_trans oneParent_marked (by decide)

/-- The page of the parent is copied. -/
theorem copyBodyStack3_forks_one : ∃ m' child',
    copyBodyStack3 oneParentMemory ((twoDirs 1).map pageAddr) (pageAddr 2) = .ok m' ∧
      m'.space ((twoDirs 1).map pageAddr) = .ok child' ∧ Forked oneParentMemory m' child' :=
  copyBodyStack3_forks oneParent_ready

end ZhuOS
