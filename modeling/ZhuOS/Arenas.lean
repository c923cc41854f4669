import ZhuOS.Heap

/-!
# The arenas of a heap

`Arenas` ties the live blocks of a thread to its page ranges, their headers and the free lists
of the descriptors of `o`: a size class is a `Slab.FreeList` over the pages whose headers name
the class, and the counters count the slots on the list. Nothing is said about page tables.
-/

namespace ZhuOS

open PackedBits Slab

/-- A block a caller holds, and the size it asked for. -/
structure Block where
  addr : Nat
  size : Nat
  deriving DecidableEq, Repr

def Used (live : List Block) (b : Nat) : Prop := ∃ x ∈ live, x.addr = b

/-- The blocks of an arena of class `d`. -/
def slots (d a : Nat) : List Nat :=
  (List.range (blockDescInit d).blocksPerArena).map (arena2block (blockDescInit d).blockSize a)

def LargeHeader (h : Heap) (r : PageRange) : Prop := h.arenaAt r.vaddr = ⟨none, r.pgCnt, true⟩

/-- The arena at `a` belongs to class `d` of `o`. -/
def ArenaIn (o : Option Nat) (h : Heap) (own : List PageRange) (d a : Nat) : Prop :=
  ∃ r ∈ own, r.vaddr = a ∧ (h.arenaAt a).desc = some ⟨o, d⟩

/-- A live block is a block of a small arena's class or the room of a large one. -/
def PlacedIn (o : Option Nat) (h : Heap) (own : List PageRange) (x : Block) : Prop :=
  (∃ d < DESC_CNT, ∃ a, ArenaIn o h own d a ∧ x.addr ∈ slots d a ∧
    x.size ≤ (blockDescInit d).blockSize) ∨
  ∃ r ∈ own, LargeHeader h r ∧ x.addr = r.vaddr + SIZEOF_ARENA ∧
    x.size + SIZEOF_ARENA ≤ r.pgCnt * PG_SIZE

/-- Whole pages with 32-bit addresses, no page in two ranges. -/
structure Ranges (own : List PageRange) : Prop where
  whole : ∀ r ∈ own, r.vaddr % 4096 = 0 ∧ 1 ≤ r.pgCnt ∧ r.vaddr + 4096 * r.pgCnt ≤ 2 ^ 32
  apart : own.Pairwise PageRange.Apart

/-- The arenas are the ranges `own`, and the descriptors those of `o`. -/
structure Arenas (o : Option Nat) (h : Heap) (own : List PageRange) (live : List Block) :
    Prop where
  ranges : Ranges own
  classes : ∀ d < DESC_CNT, (h.descs ⟨o, d⟩).blockSize = (blockDescInit d).blockSize ∧
    (h.descs ⟨o, d⟩).blocksPerArena = (blockDescInit d).blocksPerArena
  headers : ∀ r ∈ own, (∃ d < DESC_CNT, ∃ cnt, r.pgCnt = 1 ∧
    h.arenaAt r.vaddr = ⟨some ⟨o, d⟩, cnt, false⟩) ∨ LargeHeader h r
  slab : ∀ d < DESC_CNT,
    FreeList (slots d) (ArenaIn o h own d) (Used live) (h.descs ⟨o, d⟩).freeList
  cnt : ∀ d < DESC_CNT, ∀ a, ArenaIn o h own d a →
    (h.arenaAt a).cnt = count block2arena (h.descs ⟨o, d⟩).freeList a
  placed : ∀ x ∈ live, PlacedIn o h own x
  once : (live.map (·.addr)).Nodup
  large : ∀ r ∈ own, LargeHeader h r → Used live (r.vaddr + SIZEOF_ARENA)

/-! ## Addresses -/

theorem blocksPerArena_mul_le (d : Nat) :
    (blockDescInit d).blocksPerArena * (blockDescInit d).blockSize ≤ 4084 :=
  Nat.div_mul_le_self 4084 (16 * 2 ^ d)

theorem blockSize_pos (d : Nat) : 16 ≤ (blockDescInit d).blockSize :=
  Nat.le_mul_of_pos_right 16 (Nat.two_pow_pos d)

theorem slot_inside {d i : Nat} (hi : i < (blockDescInit d).blocksPerArena) :
    (i + 1) * (blockDescInit d).blockSize ≤ 4084 :=
  (Nat.mul_le_mul_right _ hi).trans (blocksPerArena_mul_le d)

theorem blocksPerArena_lt (d : Nat) : (blockDescInit d).blocksPerArena < 256 := by
  have hmul := blocksPerArena_mul_le d
  have hbs := blockSize_pos d
  have := Nat.mul_le_mul_left (blockDescInit d).blocksPerArena hbs
  omega

theorem block2arena_eq (a b : Nat) (ha : a % 4096 = 0) (hlt : a < 2 ^ 32) (hb : b < 4096) :
    block2arena (a + b) = a := by
  have := and_field (a + b) 20 12
  rw [show (2 ^ 20 - 1) <<< 12 = 0xfffff000 by decide] at this
  unfold block2arena
  rw [this]
  omega

theorem block2arena_slot {d a i : Nat} (ha : a % 4096 = 0) (hlt : a < 2 ^ 32)
    (hi : i < (blockDescInit d).blocksPerArena) :
    block2arena (arena2block (blockDescInit d).blockSize a i) = a := by
  have hin := slot_inside hi
  have hbs := blockSize_pos d
  rw [Nat.succ_mul] at hin
  unfold arena2block SIZEOF_ARENA
  rw [Nat.add_assoc]
  exact block2arena_eq _ _ ha hlt (by omega)

theorem arena2block_inj {bs a i j : Nat} (hbs : 0 < bs)
    (h : arena2block bs a i = arena2block bs a j) : i = j := by
  unfold arena2block at h
  exact Nat.eq_of_mul_eq_mul_right hbs (Nat.add_left_cancel h)

theorem slots_nodup (d a : Nat) : (slots d a).Nodup :=
  (List.nodup_range).map fun _ _ h =>
    arena2block_inj (Nat.lt_of_lt_of_le (by decide) (blockSize_pos d)) h

theorem mem_slots {d a b : Nat} : b ∈ slots d a ↔
    ∃ i < (blockDescInit d).blocksPerArena, arena2block (blockDescInit d).blockSize a i = b := by
  simp [slots]

@[simp] theorem slots_length (d a : Nat) :
    (slots d a).length = (blockDescInit d).blocksPerArena := by
  simp [slots]

theorem findDesc_fits {descs : Nat → MemBlockDesc} {size : Nat} (left idx : Nat)
    (hfit : size ≤ (descs (idx + left)).blockSize) :
    findDesc descs size (left + 1) idx ≤ idx + left ∧
      size ≤ (descs (findDesc descs size (left + 1) idx)).blockSize := by
  induction left generalizing idx with
  | zero =>
    rw [Nat.add_zero] at hfit ⊢
    simp only [findDesc, if_pos hfit]
    exact ⟨Nat.le_refl _, hfit⟩
  | succ left ih =>
    rw [findDesc]
    by_cases hin : size ≤ (descs idx).blockSize
    · rw [if_pos hin]; exact ⟨by omega, hin⟩
    · rw [if_neg hin]
      obtain ⟨hle, hsize⟩ := ih (idx + 1) (by rwa [Nat.add_assoc, Nat.add_comm 1])
      exact ⟨by omega, hsize⟩

theorem appendBlocks_ok {bs a : Nat} (hbs : 0 < bs) (left idx : Nat) (l : List Nat)
    (hnew : ∀ i, idx ≤ i → i < idx + left → arena2block bs a i ∉ l) :
    appendBlocks bs a left idx l = .ok (l ++ (List.range' idx left).map (arena2block bs a)) := by
  induction left generalizing idx l with
  | zero => simp [appendBlocks]; rfl
  | succ left ih =>
    have hrest : ∀ i, idx + 1 ≤ i → i < idx + 1 + left →
        arena2block bs a i ∉ l ++ [arena2block bs a idx] := by
      intro i hi hlt hmem
      rcases List.mem_append.mp hmem with hmem | hmem
      · exact hnew i (by omega) (by omega) hmem
      · have := arena2block_inj hbs (List.mem_singleton.mp hmem)
        omega
    simp only [appendBlocks, ASSERT_true (hnew idx (Nat.le_refl _) (by omega)), ok_bind,
      ih (idx + 1) _ hrest, List.range'_succ, List.map_cons, List.append_assoc,
      List.singleton_append]

theorem removeBlocks_ok {bs a : Nat} (hbs : 0 < bs) (left idx : Nat) (l : List Nat)
    (hin : ∀ i, idx ≤ i → i < idx + left → arena2block bs a i ∈ l) :
    removeBlocks bs a left idx l =
      .ok (l.diff ((List.range' idx left).map (arena2block bs a))) := by
  induction left generalizing idx l with
  | zero => simp [removeBlocks]; rfl
  | succ left ih =>
    have hrest : ∀ i, idx + 1 ≤ i → i < idx + 1 + left →
        arena2block bs a i ∈ l.erase (arena2block bs a idx) := by
      intro i hi hlt
      refine (List.mem_erase_of_ne fun he => ?_).mpr (hin i (by omega) (by omega))
      have := arena2block_inj hbs he
      omega
    simp only [removeBlocks, ASSERT_true (hin idx (Nat.le_refl _) (by omega)), ok_bind,
      ih (idx + 1) _ hrest, List.range'_succ, List.map_cons, List.diff_cons]

/-! ## The blocks in use -/

section

variable {live : List Block} {b size x : Nat}

theorem used_cons : Used (⟨b, size⟩ :: live) x ↔ x = b ∨ Used live x := by
  simp [Used, eq_comm]

theorem used_erase {x : Block} (hnd : (live.map (·.addr)).Nodup) (hx : x ∈ live) (b : Nat) :
    Used (live.erase x) b ↔ b ≠ x.addr ∧ Used live b := by
  have hnodup : live.Nodup := List.Nodup.of_map _ hnd
  constructor
  · rintro ⟨y, hy, rfl⟩
    obtain ⟨hyx, hy⟩ := hnodup.mem_erase_iff.mp hy
    exact ⟨fun he => hyx (List.inj_on_of_nodup_map hnd hy hx he), y, hy, rfl⟩
  · rintro ⟨hne, y, hy, rfl⟩
    exact ⟨y, hnodup.mem_erase_iff.mpr ⟨fun he => hne (he ▸ rfl), hy⟩, rfl⟩

end

section

variable {o : Option Nat} {h h' : Heap} {own : List PageRange} {live : List Block}
  {d e a : Nat} {r : PageRange}

namespace Ranges

theorem eq_of_vaddr (ho : Ranges own) {r s : PageRange} (hr : r ∈ own) (hs : s ∈ own)
    (hv : r.vaddr = s.vaddr) : r = s := by
  by_contra hne
  have hrp := (ho.whole r hr).2.1
  have hsp := (ho.whole s hs).2.1
  have hap := ho.apart.forall hr hs hne
  unfold PageRange.Apart PG_SIZE at hap
  omega

theorem nodup (ho : Ranges own) : own.Nodup := by
  refine ho.apart.imp_of_mem fun hr _ hap he => ?_
  have := (ho.whole _ hr).2.1
  subst he
  unfold PageRange.Apart PG_SIZE at hap
  omega

theorem home (ho : Ranges own) (hr : r ∈ own) {b : Nat} (hb : b < 4096) :
    block2arena (r.vaddr + b) = r.vaddr := by
  have hw := ho.whole r hr
  exact block2arena_eq _ _ hw.1 (by omega) hb

theorem erase (ho : Ranges own) (r : PageRange) : Ranges (own.erase r) :=
  ⟨fun s hs => ho.whole s (List.mem_of_mem_erase hs), ho.apart.sublist List.erase_sublist⟩

end Ranges

theorem ArenaIn.class_eq (hd : ArenaIn o h own d a) (he : ArenaIn o h own e a) : d = e := by
  obtain ⟨_, -, -, hd⟩ := hd
  obtain ⟨_, -, -, he⟩ := he
  rw [hd] at he
  simpa using he

theorem ArenaIn.not_large (ha : ArenaIn o h own d a) (hl : LargeHeader h r) : r.vaddr ≠ a := by
  rintro rfl
  obtain ⟨_, -, -, hdesc⟩ := ha
  rw [hl] at hdesc
  cases hdesc

/-- Changing only the counter of an arena keeps every class. -/
theorem arenaIn_setCnt {cnt : Nat}
    (hat : h'.arenaAt = Function.update h.arenaAt a { h.arenaAt a with cnt }) (x : Nat) :
    ArenaIn o h' own e x ↔ ArenaIn o h own e x := by
  unfold ArenaIn
  rw [hat]
  by_cases hx : x = a
  · subst hx
    simp
  · simp [Function.update_of_ne hx]

theorem largeHeader_update {hd : Arena} (hne : r.vaddr ≠ a)
    (hat : h'.arenaAt = Function.update h.arenaAt a hd) :
    LargeHeader h' r ↔ LargeHeader h r := by
  unfold LargeHeader
  rw [hat, Function.update_of_ne hne]

namespace Arenas

theorem addr (hok : Arenas o h own live) (ha : ArenaIn o h own d a) :
    a % 4096 = 0 ∧ a < 2 ^ 32 := by
  obtain ⟨r, hr, rfl, -⟩ := ha
  have := hok.ranges.whole r hr
  omega

theorem large_home (hok : Arenas o h own live) (hr : r ∈ own) :
    block2arena (r.vaddr + SIZEOF_ARENA) = r.vaddr := hok.ranges.home hr (by decide)

theorem layout (hok : Arenas o h own live) (d : Nat) :
    Layout block2arena (slots d) (ArenaIn o h own d) := by
  refine ⟨fun a _ => slots_nodup d a, fun a b ha hb => ?_⟩
  obtain ⟨hal, hlt⟩ := hok.addr ha
  obtain ⟨i, hi, rfl⟩ := mem_slots.mp hb
  exact block2arena_slot hal hlt hi

/-- The header of a small arena. -/
theorem header (hok : Arenas o h own live) (ha : ArenaIn o h own d a) :
    ⟨a, 1⟩ ∈ own ∧ ∃ cnt, h.arenaAt a = ⟨some ⟨o, d⟩, cnt, false⟩ := by
  obtain ⟨r, hr, rfl, hdesc⟩ := ha
  rcases hok.headers r hr with ⟨e, he, cnt, hone, hhead⟩ | hlarge
  · rw [hhead] at hdesc
    obtain ⟨v, n⟩ := r
    dsimp only at hone
    subst hone
    exact ⟨hr, cnt, by rw [hhead, ← hdesc]⟩
  · rw [hlarge] at hdesc
    cases hdesc

/-- An address of another arena is no block of the class. -/
theorem not_slot (hok : Arenas o h own live) {y : Nat}
    (hy : ¬ ArenaIn o h own e (block2arena y)) (a b : Nat) (ha : ArenaIn o h own e a)
    (hb : b ∈ slots e a) : b ≠ y := by
  rintro rfl
  exact hy ((hok.layout e).home a b ha hb ▸ ha)

theorem used_home (hok : Arenas o h own live) {y : Nat} (hy : Used live y) :
    ∃ s ∈ own, s.vaddr = block2arena y := by
  obtain ⟨x, hx, rfl⟩ := hy
  rcases hok.placed x hx with ⟨e, -, c, hc, hin, -⟩ | ⟨s, hs, -, haddr, -⟩
  · have hhome := (hok.layout e).home c _ hc hin
    obtain ⟨s, hs, hv, -⟩ := hc
    exact ⟨s, hs, hv.trans hhome.symm⟩
  · exact ⟨s, hs, by rw [haddr, hok.large_home hs]⟩

/-- A live block in a small arena is one of its slots. -/
theorem slot_of_home (hok : Arenas o h own live) (ha : ArenaIn o h own d a) {y : Nat}
    (hy : Used live y) (hh : block2arena y = a) : y ∈ slots d a := by
  obtain ⟨x, hx, rfl⟩ := hy
  rcases hok.placed x hx with ⟨e, he, c, hc, hin, -⟩ | ⟨s, hs, hl, haddr, -⟩
  · obtain rfl := ((hok.layout e).home c _ hc hin).symm.trans hh
    rwa [ha.class_eq hc]
  · exact absurd (by rw [haddr, hok.large_home hs] at hh; exact hh) (ha.not_large hl)

/-! ## The lists change -/

/-- A new free list for one class, and the counter that goes with it. -/
theorem relist (hok : Arenas o h own live) (hd : d < DESC_CNT) (ha : ArenaIn o h own d a)
    (live' : List Block) (mem : Memory) {cnt : Nat} {l : List Nat}
    (hslab : FreeList (slots d) (ArenaIn o h own d) (Used live') l)
    (hused : ∀ x, block2arena x ≠ a → (Used live' x ↔ Used live x))
    (hcnt : cnt = count block2arena l a)
    (hcount : ∀ c, c ≠ a →
      count block2arena l c = count block2arena (h.descs ⟨o, d⟩).freeList c)
    (hplaced : ∀ x ∈ live', PlacedIn o h own x) (honce : (live'.map (·.addr)).Nodup) :
    Arenas o { (h.setFreeList ⟨o, d⟩ l).setArena a { h.arenaAt a with cnt } with mem }
      own live' := by
  have hof : ∀ e x, ArenaIn o { (h.setFreeList ⟨o, d⟩ l).setArena a { h.arenaAt a with cnt }
      with mem } own e x ↔ ArenaIn o h own e x := fun e x => arenaIn_setCnt rfl x
  have hlg : ∀ r, LargeHeader { (h.setFreeList ⟨o, d⟩ l).setArena a { h.arenaAt a with cnt }
      with mem } r ↔ LargeHeader h r := by
    intro r
    by_cases hr : r.vaddr = a
    · obtain ⟨-, c, hc⟩ := hok.header ha
      simp [LargeHeader, Heap.setArena, hr, hc]
    · exact largeHeader_update hr rfl
  refine ⟨hok.ranges, ?_, ?_, ?_, ?_, ?_, honce, ?_⟩
  · intro e he
    by_cases hed : e = d
    · subst hed
      simpa [Heap.setArena, Heap.setFreeList] using hok.classes e he
    · simpa [Heap.setArena, Heap.setFreeList, hed] using hok.classes e he
  · intro r hr
    rcases hok.headers r hr with ⟨e, he, c, hone, hhead⟩ | hlarge
    · refine .inl ⟨e, he, ?_⟩
      by_cases hra : r.vaddr = a
      · exact ⟨cnt, hone, by rw [hra] at hhead ⊢; simp [Heap.setArena, hhead]⟩
      · exact ⟨c, hone, by
          simpa [Heap.setArena, Heap.setFreeList, Function.update_of_ne hra] using hhead⟩
    · exact .inr ((hlg r).mpr hlarge)
  · intro e he
    by_cases hed : e = d
    · subst hed
      simpa [Heap.setArena, Heap.setFreeList] using
        hslab.congr (hof e) fun _ _ _ _ => Iff.rfl
    · have hne : ¬ ArenaIn o h own e a := fun hae => hed (hae.class_eq ha)
      have hfree := (hok.slab e he).congr (hof e) fun c b hc hb =>
        hused b fun hba => hne (hba ▸ (hok.layout e).home c b hc hb ▸ hc)
      simpa [Heap.setArena, Heap.setFreeList, hed] using hfree
  · intro e he c hc
    replace hc := (hof e c).mp hc
    by_cases hed : e = d
    · subst hed
      by_cases hca : c = a
      · subst hca
        simpa [Heap.setArena, Heap.setFreeList] using hcnt
      · simpa [Heap.setArena, Heap.setFreeList, hca, hcount c hca] using hok.cnt e he c hc
    · have hca : c ≠ a := by
        rintro rfl
        exact hed (hc.class_eq ha)
      simpa [Heap.setArena, Heap.setFreeList, hca, hed] using hok.cnt e he c hc
  · intro x hx
    rcases hplaced x hx with ⟨e, he, c, hc, hin⟩ | ⟨r, hr, hl, hin⟩
    · exact .inl ⟨e, he, c, (hof e c).mpr hc, hin⟩
    · exact .inr ⟨r, hr, (hlg r).mpr hl, hin⟩
  · intro r hr hl
    have hl := (hlg r).mp hl
    refine (hused _ ?_).mpr (hok.large r hr hl)
    rw [hok.large_home hr]
    exact ha.not_large hl

end Arenas

/-! ## An arena joins -/

/-- The headers once `r` is cleared and given the header `hd`. -/
def adoptAt (h : Heap) (r : PageRange) (hd : Arena) : Nat → Arena :=
  Function.update (clearArenas r.vaddr r.pgCnt h.arenaAt) r.vaddr hd

variable {hd : Arena}

namespace Ranges

/-- No other arena starts in the pages of `r`. -/
theorem outside (ho : Ranges (r :: own)) {s : PageRange} (hs : s ∈ own) :
    s.vaddr ≠ r.vaddr ∧ ¬ (r.vaddr ≤ s.vaddr ∧ s.vaddr < r.vaddr + r.pgCnt * PG_SIZE) := by
  have hap := (List.pairwise_cons.mp ho.apart).1 s hs
  have hr := (ho.whole r List.mem_cons_self).2.1
  have hs := (ho.whole s (List.mem_cons_of_mem _ hs)).2.1
  unfold PageRange.Apart PG_SIZE at hap
  unfold PG_SIZE
  omega

theorem adoptAt_own (ho : Ranges (r :: own)) {s : PageRange} (hs : s ∈ own) :
    adoptAt h r hd s.vaddr = h.arenaAt s.vaddr := by
  obtain ⟨hne, hout⟩ := ho.outside hs
  unfold adoptAt clearArenas
  rw [Function.update_of_ne hne, if_neg hout]

theorem arenaIn_adopt (ho : Ranges (r :: own)) (hat : h'.arenaAt = adoptAt h r hd) (x : Nat) :
    ArenaIn o h' (r :: own) e x ↔
      (x = r.vaddr ∧ hd.desc = some ⟨o, e⟩) ∨ ArenaIn o h own e x := by
  unfold ArenaIn
  simp only [List.mem_cons, exists_eq_or_imp, hat]
  refine or_congr ?_ (exists_congr fun s => and_congr_right fun hs => and_congr_right fun hv => ?_)
  · constructor
    · rintro ⟨rfl, hdesc⟩
      exact ⟨rfl, by simpa [adoptAt] using hdesc⟩
    · rintro ⟨rfl, hdesc⟩
      exact ⟨rfl, by simpa [adoptAt] using hdesc⟩
  · subst hv
    rw [ho.adoptAt_own hs]

theorem largeHeader_adopt (ho : Ranges (r :: own)) (hat : h'.arenaAt = adoptAt h r hd)
    {s : PageRange} (hs : s ∈ own) : LargeHeader h' s ↔ LargeHeader h s := by
  unfold LargeHeader
  rw [hat, ho.adoptAt_own hs]

theorem placedIn_adopt (ho : Ranges (r :: own)) (hat : h'.arenaAt = adoptAt h r hd) {x : Block}
    (hx : PlacedIn o h own x) : PlacedIn o h' (r :: own) x := by
  rcases hx with ⟨e, he, c, hc, hin⟩ | ⟨s, hs, hl, hin⟩
  · exact .inl ⟨e, he, c, (ho.arenaIn_adopt hat c).mpr (.inr hc), hin⟩
  · exact .inr ⟨s, List.mem_cons_of_mem _ hs, (ho.largeHeader_adopt hat hs).mpr hl, hin⟩

end Ranges

namespace Arenas

theorem headers_adopt (hok : Arenas o h own live) (ho : Ranges (r :: own))
    (hat : h'.arenaAt = adoptAt h r hd) {s : PageRange} (hs : s ∈ own) :
    (∃ d < DESC_CNT, ∃ cnt, s.pgCnt = 1 ∧ h'.arenaAt s.vaddr = ⟨some ⟨o, d⟩, cnt, false⟩) ∨
      LargeHeader h' s := by
  rw [ho.largeHeader_adopt hat hs, hat, ho.adoptAt_own hs]
  exact hok.headers s hs

/-- A page for a size class whose list is empty. -/
theorem adoptSmall (hok : Arenas o h own live) (hd : d < DESC_CNT)
    (hempty : (h.descs ⟨o, d⟩).freeList = []) (ho : Ranges (⟨a, 1⟩ :: own))
    (hat : h'.arenaAt = adoptAt h ⟨a, 1⟩ ⟨some ⟨o, d⟩, (h.descs ⟨o, d⟩).blocksPerArena, false⟩)
    (hdescs : h'.descs = (h.setFreeList ⟨o, d⟩ (slots d a)).descs) :
    Arenas o h' (⟨a, 1⟩ :: own) live := by
  have hof : ∀ e x, ArenaIn o h' (⟨a, 1⟩ :: own) e x ↔ (x = a ∧ e = d) ∨ ArenaIn o h own e x := by
    intro e x
    rw [ho.arenaIn_adopt hat x]
    simp [eq_comm]
  have hold : ∀ {s}, s ∈ own → h'.arenaAt s.vaddr = h.arenaAt s.vaddr := fun hs => by
    rw [hat, ho.adoptAt_own hs]
  have hnew : h'.arenaAt a = ⟨some ⟨o, d⟩, (h.descs ⟨o, d⟩).blocksPerArena, false⟩ := by
    simp [hat, adoptAt]
  have hself : h'.descs ⟨o, d⟩ = { h.descs ⟨o, d⟩ with freeList := slots d a } := by
    rw [hdescs, Heap.setFreeList_self]
  have hother : ∀ e, e ≠ d → h'.descs ⟨o, e⟩ = h.descs ⟨o, e⟩ := by
    intro e hed
    simp [hdescs, Heap.setFreeList, hed]
  have hnot : ∀ e, ¬ ArenaIn o h own e a := by
    rintro e ⟨s, hs, hv, -⟩
    exact (ho.outside hs).1 hv
  have hlay : Layout block2arena (slots d) fun x => x = a ∨ ArenaIn o h own d x := by
    refine ⟨fun a _ => slots_nodup d a, fun c b hc hb => ?_⟩
    rcases hc with rfl | hc
    · obtain ⟨j, hj, rfl⟩ := mem_slots.mp hb
      obtain ⟨hal, hone, hlt⟩ := ho.whole _ List.mem_cons_self
      dsimp only at hal hone hlt
      exact block2arena_slot hal (by omega) hj
    · exact (hok.layout d).home c b hc hb
  have hunused : ∀ b ∈ slots d a, ¬ Used live b := by
    intro b hb hu
    obtain ⟨s, hs, hv⟩ := hok.used_home hu
    exact (ho.outside hs).1 (hv.trans (hlay.home _ b (.inl rfl) hb))
  have hgrow := (hempty ▸ hok.slab d hd).grow hlay (hnot d) hunused
  obtain ⟨hbs, hcnt⟩ := hok.classes d hd
  refine ⟨ho, ?_, ?_, ?_, ?_, ?_, hok.once, ?_⟩
  · intro e he
    by_cases hed : e = d
    · subst hed
      rw [hself]
      exact ⟨hbs, hcnt⟩
    · rw [hother e hed]
      exact hok.classes e he
  · intro s hs
    rcases List.mem_cons.mp hs with rfl | hs
    · exact .inl ⟨d, hd, _, rfl, hnew⟩
    · exact hok.headers_adopt ho hat hs
  · intro e he
    by_cases hed : e = d
    · subst hed
      rw [hself]
      exact hgrow.congr (fun x => by rw [hof]; simp) fun _ _ _ _ => Iff.rfl
    · rw [hother e hed]
      exact (hok.slab e he).congr (fun x => by rw [hof]; simp [hed]) fun _ _ _ _ => Iff.rfl
  · intro e he c hc
    rcases (hof e c).mp hc with ⟨rfl, rfl⟩ | hc
    · simp [hself, hnew, count_slots hlay (.inl rfl), hcnt]
    · have hcntOld := hok.cnt e he c hc
      obtain ⟨s, hs, rfl, -⟩ := hc
      rw [hold hs, hcntOld]
      by_cases hed : e = d
      · subst hed
        rw [hempty, hself]
        simp [count_slots hlay (.inl rfl), (ho.outside hs).1]
      · rw [hother e hed]
  · exact fun x hx => ho.placedIn_adopt hat (hok.placed x hx)
  · intro s hs hl
    rcases List.mem_cons.mp hs with rfl | hs
    · have hl : h'.arenaAt a = ⟨none, 1, true⟩ := hl
      rw [hnew] at hl
      cases hl
    · exact hok.large s hs ((ho.largeHeader_adopt hat hs).mp hl)

/-- Pages for one large block. -/
theorem adoptLarge (hok : Arenas o h own live) (ho : Ranges (r :: own)) {size : Nat}
    (hat : h'.arenaAt = adoptAt h r ⟨none, r.pgCnt, true⟩) (hdescs : h'.descs = h.descs)
    (hfit : size + SIZEOF_ARENA ≤ r.pgCnt * PG_SIZE) :
    Arenas o h' (r :: own) (⟨r.vaddr + SIZEOF_ARENA, size⟩ :: live) := by
  have hof : ∀ e x, ArenaIn o h' (r :: own) e x ↔ ArenaIn o h own e x := by
    intro e x
    rw [ho.arenaIn_adopt hat x]
    simp
  have hold : ∀ {s}, s ∈ own → h'.arenaAt s.vaddr = h.arenaAt s.vaddr := fun hs => by
    rw [hat, ho.adoptAt_own hs]
  have hhome : block2arena (r.vaddr + SIZEOF_ARENA) = r.vaddr :=
    ho.home List.mem_cons_self (by decide)
  have hnot : ∀ e, ¬ ArenaIn o h own e (block2arena (r.vaddr + SIZEOF_ARENA)) := by
    rintro e ⟨s, hs, hv, -⟩
    exact (ho.outside hs).1 (hv.trans hhome)
  have hlarge : LargeHeader h' r := by simp [LargeHeader, hat, adoptAt]
  refine ⟨ho, hdescs ▸ hok.classes, ?_, ?_, ?_, ?_, ?_, ?_⟩
  · intro s hs
    rcases List.mem_cons.mp hs with rfl | hs
    · exact .inr hlarge
    · exact hok.headers_adopt ho hat hs
  · intro e he
    rw [hdescs]
    exact (hok.slab e he).congr (hof e) fun a b ha hb => by
      rw [used_cons, or_iff_right (hok.not_slot (hnot e) a b ha hb)]
  · intro e he c hc
    replace hc := (hof e c).mp hc
    have hcntOld := hok.cnt e he c hc
    obtain ⟨s, hs, rfl, -⟩ := hc
    rw [hold hs, hdescs]
    exact hcntOld
  · refine List.forall_mem_cons.mpr ⟨?_, fun x hx => ho.placedIn_adopt hat (hok.placed x hx)⟩
    exact .inr ⟨r, List.mem_cons_self, hlarge, rfl, hfit⟩
  · refine List.nodup_cons.mpr ⟨fun hmem => ?_, hok.once⟩
    obtain ⟨s, hs, hv⟩ := hok.used_home (List.mem_map.mp hmem)
    exact (ho.outside hs).1 (hv.trans hhome)
  · intro s hs hl
    rw [used_cons]
    rcases List.mem_cons.mp hs with rfl | hs
    · exact .inl rfl
    · exact .inr (hok.large s hs ((ho.largeHeader_adopt hat hs).mp hl))

/-! ## An arena leaves -/

/-- A small arena leaves with its pages. -/
theorem arenaIn_erase (hok : Arenas o h own live) (hr : r ∈ own) (e x : Nat) :
    ArenaIn o h (own.erase r) e x ↔ x ≠ r.vaddr ∧ ArenaIn o h own e x := by
  have hnd := hok.ranges.nodup
  constructor
  · rintro ⟨s, hs, rfl, hdesc⟩
    obtain ⟨hne, hs⟩ := hnd.mem_erase_iff.mp hs
    exact ⟨fun hv => hne (hok.ranges.eq_of_vaddr hs hr hv), s, hs, rfl, hdesc⟩
  · rintro ⟨hne, s, hs, rfl, hdesc⟩
    exact ⟨s, hnd.mem_erase_iff.mpr ⟨fun he => hne (he ▸ rfl), hs⟩, rfl, hdesc⟩

/-- A whole range goes back to the page pool, with the blocks that were in it. -/
theorem leave (hok : Arenas o h own live) (hr : r ∈ own) (mem : Memory)
    (descs' : DescPtr → MemBlockDesc) (live' : List Block)
    (hsizes : ∀ e, (descs' e).blockSize = (h.descs e).blockSize ∧
      (descs' e).blocksPerArena = (h.descs e).blocksPerArena)
    (hslab : ∀ e < DESC_CNT, FreeList (slots e) (fun x => x ≠ r.vaddr ∧ ArenaIn o h own e x)
      (Used live') (descs' ⟨o, e⟩).freeList)
    (hcount : ∀ e < DESC_CNT, ∀ x, x ≠ r.vaddr → ArenaIn o h own e x →
      count block2arena (descs' ⟨o, e⟩).freeList x =
        count block2arena (h.descs ⟨o, e⟩).freeList x)
    (hlive : ∀ x, Used live' x ↔ block2arena x ≠ r.vaddr ∧ Used live x)
    (hsub : live'.Sublist live) :
    Arenas o { h with mem, descs := descs' } (own.erase r) live' := by
  have hof := hok.arenaIn_erase hr
  have hmem : ∀ s, s ∈ own.erase r → s ∈ own := fun s => List.mem_of_mem_erase
  have hnd := hok.ranges.nodup
  refine ⟨hok.ranges.erase r, ?_, ?_, ?_, ?_, ?_, hok.once.sublist (hsub.map _), ?_⟩
  · exact fun e he => ⟨(hsizes _).1.trans (hok.classes e he).1,
      (hsizes _).2.trans (hok.classes e he).2⟩
  · exact fun s hs => hok.headers s (hmem s hs)
  · exact fun e he => (hslab e he).congr (hof e) fun _ _ _ _ => Iff.rfl
  · intro e he x hx
    obtain ⟨hne, hx⟩ := (hof e x).mp hx
    exact (hok.cnt e he x hx).trans (hcount e he x hne hx).symm
  · intro x hx
    have hx' : Used live' x.addr := ⟨x, hx, rfl⟩
    obtain ⟨hne, -⟩ := (hlive _).mp hx'
    rcases hok.placed x (hsub.subset hx) with ⟨e, he, c, hc, hin⟩ | ⟨s, hs, hl, haddr, hin⟩
    · have hhome := (hok.layout e).home c _ hc hin.1
      exact .inl ⟨e, he, c, (hof e c).mpr ⟨hhome ▸ hne, hc⟩, hin⟩
    · refine .inr ⟨s, hnd.mem_erase_iff.mpr ⟨?_, hs⟩, hl, haddr, hin⟩
      rintro rfl
      exact hne (by rw [haddr, hok.large_home hs])
  · intro s hs hl
    have hs' := hmem s hs
    refine (hlive _).mpr ⟨?_, hok.large s hs' hl⟩
    rw [hok.large_home hs']
    intro hv
    exact (hnd.mem_erase_iff.mp hs).1 (hok.ranges.eq_of_vaddr hs' hr hv)

/-! ## The parts of a call -/

/-- The first free block of a class is taken. -/
theorem take (hok : Arenas o h own live) (hd : d < DESC_CNT) {b size : Nat} {l : List Nat}
    (hl : (h.descs ⟨o, d⟩).freeList = b :: l) (hsize : size ≤ (blockDescInit d).blockSize)
    (mem : Memory) : ArenaIn o h own d (block2arena b) ∧
      Arenas o { (h.setFreeList ⟨o, d⟩ l).setArena (block2arena b) { h.arenaAt (block2arena b) with
        cnt := sub32 (h.arenaAt (block2arena b)).cnt 1 } with mem } own (⟨b, size⟩ :: live) ∧
      sub32 (h.arenaAt (block2arena b)).cnt 1 < (blockDescInit d).blocksPerArena := by
  have hslab := hok.slab d hd
  rw [hl] at hslab
  obtain ⟨⟨a, ha, hba⟩, hnew⟩ := (hslab.exact b).mp List.mem_cons_self
  have hhome : block2arena b = a := (hok.layout d).home a b ha hba
  rw [hhome]
  have hcnt : (h.arenaAt a).cnt = count block2arena l a + 1 := by
    rw [hok.cnt d hd a ha, hl, count_cons, if_pos hhome]
  have hbound : (h.arenaAt a).cnt ≤ (blockDescInit d).blocksPerArena := by
    have hle := hslab.count_le (a := a) (hok.layout d)
    rwa [count_cons, if_pos hhome, slots_length, ← hcnt] at hle
  have hlt := blocksPerArena_lt d
  have hdec : sub32 (h.arenaAt a).cnt 1 = count block2arena l a := by
    rw [sub32_eq (by omega) (by omega)]
    omega
  have hx : PlacedIn o h own ⟨b, size⟩ := .inl ⟨d, hd, a, ha, hba, hsize⟩
  have hpop : FreeList (slots d) (ArenaIn o h own d) (Used (⟨b, size⟩ :: live)) l :=
    hslab.pop.congr (fun _ => Iff.rfl) fun _ _ _ _ => used_cons
  have honce : ((⟨b, size⟩ :: live : List Block).map (·.addr)).Nodup :=
    List.nodup_cons.mpr ⟨fun hmem => hnew (List.mem_map.mp hmem), hok.once⟩
  refine ⟨ha, ?_, by omega⟩
  apply hok.relist hd ha _ mem hpop _ hdec _ (List.forall_mem_cons.mpr ⟨hx, hok.placed⟩) honce
  · intro y hy
    rw [used_cons, or_iff_right]
    rintro rfl
    exact hy hhome
  · intro c hc
    rw [hl, count_cons, hhome, if_neg (Ne.symm hc), Nat.add_zero]

/-- A small block goes back to its class. -/
theorem give (hok : Arenas o h own live) {x : Block} (hx : x ∈ live) (hd : d < DESC_CNT)
    (ha : ArenaIn o h own d a) (hin : x.addr ∈ slots d a) (mem : Memory) :
    Arenas o { (h.setFreeList ⟨o, d⟩ ((h.descs ⟨o, d⟩).freeList ++ [x.addr])).setArena a
        { h.arenaAt a with cnt := u32 ((h.arenaAt a).cnt + 1) } with mem } own (live.erase x) := by
  have hhome : block2arena x.addr = a := (hok.layout d).home a _ ha hin
  have hused := used_erase hok.once hx
  have hle := (hok.slab d hd).count_le (a := a) (hok.layout d)
  rw [slots_length, ← hok.cnt d hd a ha] at hle
  have hbpa := blocksPerArena_lt d
  have hcnt : u32 ((h.arenaAt a).cnt + 1) =
      count block2arena ((h.descs ⟨o, d⟩).freeList ++ [x.addr]) a := by
    rw [u32_eq (by omega), count_push, hhome, if_pos rfl, hok.cnt d hd a ha]
  have hslab : FreeList (slots d) (ArenaIn o h own d) (Used (live.erase x))
      ((h.descs ⟨o, d⟩).freeList ++ [x.addr]) :=
    ((hok.slab d hd).push ha hin ⟨x, hx, rfl⟩).congr (fun _ => Iff.rfl) fun _ b _ _ => hused b
  apply hok.relist hd ha (live.erase x) mem hslab _ hcnt _
    (fun y hy => hok.placed y (List.mem_of_mem_erase hy))
    (hok.once.sublist (List.erase_sublist.map _))
  · intro y hy
    rw [hused, and_iff_right]
    rintro rfl
    exact hy hhome
  · intro c hc
    rw [count_push, hhome, if_neg (Ne.symm hc), Nat.add_zero]

/-- An arena whose blocks are all free leaves with its page. -/
theorem drop (hok : Arenas o h own live) (hd : d < DESC_CNT) (ha : ArenaIn o h own d a)
    (hfull : (h.arenaAt a).cnt = (blockDescInit d).blocksPerArena) (mem : Memory) :
    ∃ l, removeBlocks (h.descs ⟨o, d⟩).blockSize a (h.descs ⟨o, d⟩).blocksPerArena 0
        (h.descs ⟨o, d⟩).freeList = .ok l ∧
      Arenas o { h.setFreeList ⟨o, d⟩ l with mem } (own.erase ⟨a, 1⟩) live := by
  have hlay := hok.layout d
  have hslab := hok.slab d hd
  obtain ⟨hr, -⟩ := hok.header ha
  obtain ⟨hbs, hbpa⟩ := hok.classes d hd
  have hall : ∀ b ∈ slots d a, b ∈ (h.descs ⟨o, d⟩).freeList :=
    hslab.all_free hlay (by rw [← hok.cnt d hd a ha, hfull, slots_length])
  have hremove : removeBlocks (h.descs ⟨o, d⟩).blockSize a (h.descs ⟨o, d⟩).blocksPerArena 0
      (h.descs ⟨o, d⟩).freeList = .ok ((h.descs ⟨o, d⟩).freeList.diff (slots d a)) := by
    rw [hbs, hbpa, removeBlocks_ok (by have := blockSize_pos d; omega), ← List.range_eq_range']
    · rfl
    · exact fun i _ hi => hall _ (mem_slots.mpr ⟨i, by omega, rfl⟩)
  have hgone : ∀ y, Used live y ↔ block2arena y ≠ a ∧ Used live y := by
    refine fun y => ⟨fun hy => ⟨fun hh => ?_, hy⟩, And.right⟩
    exact ((hslab.exact y).mp (hall y (hok.slot_of_home ha hy hh))).2 hy
  refine ⟨_, hremove, ?_⟩
  apply hok.leave hr mem (h.setFreeList ⟨o, d⟩ ((h.descs ⟨o, d⟩).freeList.diff (slots d a))).descs
    live _ _ _ hgone (List.Sublist.refl _)
  · intro e
    by_cases hed : e = ⟨o, d⟩
    · subst hed
      simp
    · simp [Heap.setFreeList, Function.update_of_ne hed]
  · intro e he
    by_cases hed : e = d
    · subst hed
      simpa using hslab.shrink hlay ha
    · have hfree : FreeList (slots e) (fun x => x ≠ a ∧ ArenaIn o h own e x) (Used live) _ :=
        (hok.slab e he).congr
          (fun x => and_iff_right_of_imp fun hx => by rintro rfl; exact hed (hx.class_eq ha))
          fun _ _ _ _ => Iff.rfl
      simpa [Heap.setFreeList, hed] using hfree
  · intro e he y hy _
    by_cases hed : e = d
    · subst hed
      simpa using hslab.count_shrink hlay ha hy
    · simp [Heap.setFreeList, hed]

/-- The pages of a large block go back. -/
theorem dropLarge (hok : Arenas o h own live) {x : Block} (hx : x ∈ live) (hr : r ∈ own)
    (hl : LargeHeader h r) (haddr : x.addr = r.vaddr + SIZEOF_ARENA) (mem : Memory) :
    Arenas o { h with mem } (own.erase r) (live.erase x) := by
  have hused := used_erase hok.once hx
  have hhome : block2arena x.addr = r.vaddr := by rw [haddr, hok.large_home hr]
  have hnot : ∀ e, ¬ ArenaIn o h own e (block2arena x.addr) := fun e ha =>
    ha.not_large hl hhome.symm
  have honly : ∀ y, Used live y → block2arena y = r.vaddr → y = x.addr := by
    rintro _ ⟨z, hz, rfl⟩ hh
    rcases hok.placed z hz with ⟨e, he, c, hc, hin, -⟩ | ⟨s, hs, -, hzaddr, -⟩
    · have := (hok.layout e).home c _ hc hin
      exact absurd (hh.symm.trans this) (hc.not_large hl)
    · rw [hzaddr, hok.large_home hs] at hh
      rw [hzaddr, haddr, hh]
  apply hok.leave hr mem h.descs (live.erase x) (fun _ => ⟨rfl, rfl⟩) _ (fun _ _ _ _ _ => rfl) _
    List.erase_sublist
  · intro e he
    refine (hok.slab e he).congr (fun c => ?_) fun c b hc hb => ?_
    · exact and_iff_right_of_imp fun hc => (hc.not_large hl).symm
    · rw [hused, and_iff_right (hok.not_slot (hnot e) c b hc hb)]
  · intro y
    rw [hused]
    refine and_congr_left fun hy => not_congr ⟨?_, honly y hy⟩
    rintro rfl
    exact hhome

end Arenas

end

end ZhuOS
