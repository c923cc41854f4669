import ZhuOS.Loader

/-!
# The kernel as the loader finds it

The image is an ELF file: a table of program headers, each with a range of the file and the
addresses it belongs to.
-/

namespace ZhuOS

open ByteMem

namespace Loader

/-- Where the image lies. -/
def BASE : Nat := 0x70000

def phoff (m : Bytes) : Nat := (getWord m (BASE + 28)).toNat
def phentsize (m : Bytes) : Nat := half m (BASE + 42)
def phnum (m : Bytes) : Nat := half m (BASE + 44)

/-- The address of a program header. -/
def headerAt (m : Bytes) (i : Nat) : Nat := BASE + phoff m + i * phentsize m

structure ProgramHeader where
  type : Nat
  offset : Nat
  vaddr : Nat
  filesz : Nat
  memsz : Nat

def programHeader (m : Bytes) (i : Nat) : ProgramHeader :=
  let p := headerAt m i
  ⟨(getWord m p).toNat, (getWord m (p + 4)).toNat, (getWord m (p + 8)).toNat,
    (getWord m (p + 16)).toNat, (getWord m (p + 20)).toNat⟩

namespace ProgramHeader

/-- What the loader takes for a segment. -/
def Copied (h : ProgramHeader) : Prop := h.type % 256 ≠ 0 ∧ 0xc0001500 ≤ h.vaddr

/-- What is one: `PT_LOAD`, and not below the entry of the kernel. -/
def Loadable (h : ProgramHeader) : Prop := h.type = 1 ∧ 0xc0001500 ≤ h.vaddr

/-- The addresses of the bytes that are in the file. -/
def InFile (h : ProgramHeader) (a : Nat) : Prop := h.vaddr ≤ a ∧ a < h.vaddr + h.filesz

def InMem (h : ProgramHeader) (a : Nat) : Prop := h.vaddr ≤ a ∧ a < h.vaddr + h.memsz

instance (h : ProgramHeader) : Decidable h.Copied := by unfold Copied; infer_instance

instance (h : ProgramHeader) (a : Nat) : Decidable (h.InFile a) := by
  unfold InFile
  infer_instance

variable {h : ProgramHeader} {a : Nat}

theorem Loadable.copied (hl : h.Loadable) : h.Copied := ⟨by rw [hl.1]; decide, hl.2⟩

theorem Copied.high (hc : h.Copied) (ha : h.vaddr ≤ a) : ∃ p, a = 0xc0000000 + p :=
  Nat.exists_eq_add_of_le (by have hlow := hc.2; omega)

end ProgramHeader

/-- An image of `size` bytes, below the page directory. -/
structure ElfImage (m : Bytes) (size : Nat) : Prop where
  header : 52 ≤ size
  room : BASE + size ≤ 0x100000
  table : ∀ i < phnum m, phoff m + i * phentsize m + 32 ≤ size
  file : ∀ i < phnum m, (programHeader m i).type ≠ 0 →
    (programHeader m i).offset + (programHeader m i).filesz ≤ size
  sizes : ∀ i < phnum m, (programHeader m i).Loadable →
    (programHeader m i).filesz ≤ (programHeader m i).memsz

/-- What the address leads to is no byte of the image. -/
def OffImage (size a : Nat) : Prop := ∀ p, phys a = some p → p < BASE ∨ BASE + size ≤ p

/-- The segments overlap neither each other nor the image. -/
structure Apart (m : Bytes) (size : Nat) : Prop where
  segments : ∀ i < phnum m, ∀ j < phnum m, i ≠ j → (programHeader m i).Loadable →
    (programHeader m j).Loadable → ∀ a, (programHeader m i).InMem a → ¬ (programHeader m j).InMem a
  image : ∀ i < phnum m, (programHeader m i).Loadable →
    ∀ a, (programHeader m i).InMem a → OffImage size a

/-- The image byte that belongs to an address. -/
def fileByte (m : Bytes) (h : ProgramHeader) (a : Nat) : UInt8 :=
  m (BASE + h.offset + (a - h.vaddr))

/-- Each header is visited once, and then every segment is at its place, with zeros behind what
is in the file, and all other memory is as it was. -/
def Loads (m : Bytes) : Prop := ∃ m',
  kernelInit m = .ok (m', (List.range (phnum m)).map fun i => .ofNat (headerAt m i)) ∧
  (∀ i < phnum m, (programHeader m i).Loadable → ∀ a, (programHeader m i).InMem a →
    ∃ p, phys a = some p ∧
      m' p = if (programHeader m i).InFile a then fileByte m (programHeader m i) a else 0) ∧
  ∀ p, (∀ i < phnum m, (programHeader m i).Loadable → ∀ a, (programHeader m i).InMem a →
    phys a ≠ some p) → m' p = m p

/-! ## What the copies leave -/

variable {m m' : Bytes} {size i j n p a : Nat}

/-- The file bytes of this header are copied over the address. -/
def Over (m : Bytes) (j a : Nat) : Prop :=
  (programHeader m j).Copied ∧ (programHeader m j).InFile a

/-- Of the first `n` headers this one is the last that is copied over the address. -/
structure LastOver (m : Bytes) (n j a : Nat) : Prop where
  lt : j < n
  covers : Over m j a
  last : ∀ l, j < l → l < n → ¬ Over m l a

theorem lastOver_or (m : Bytes) (n a : Nat) :
    (∃ j, LastOver m n j a) ∨ ∀ j < n, ¬ Over m j a := by
  induction n with
  | zero => exact .inr fun j hj => absurd hj (Nat.not_lt_zero j)
  | succ n ih =>
    by_cases hn : Over m n a
    · exact .inl ⟨n, Nat.lt_succ_self n, hn, fun l hl hl' => absurd hl' (by omega)⟩
    · obtain ⟨j, hj⟩ | hnone := ih
      · refine .inl ⟨j, Nat.lt_succ_of_lt hj.lt, hj.covers, fun l hl hl' => ?_⟩
        obtain hlt | rfl := Nat.lt_succ_iff_lt_or_eq.mp hl'
        · exact hj.last l hl hlt
        · exact hn
      · refine .inr fun j hj => ?_
        obtain hlt | rfl := Nat.lt_succ_iff_lt_or_eq.mp hj
        · exact hnone j hlt
        · exact hn

/-- The memory behind the first headers, if the image stays as it is. -/
def done (m : Bytes) : Nat → Bytes
  | 0 => m
  | i + 1 =>
    let h := programHeader m i
    if h.Copied then blit (done m i) (h.vaddr - 0xc0000000) m (BASE + h.offset) h.filesz
    else done m i

theorem done_over (h : Over m i (0xc0000000 + p)) :
    done m (i + 1) p = fileByte m (programHeader m i) (0xc0000000 + p) := by
  obtain ⟨hcopied, hle, hlt⟩ := h
  have hbase := hcopied.2
  simp only [done, if_pos hcopied]
  rw [blit_in (by omega) (by omega), fileByte]
  exact congrArg m (by omega)

theorem done_not_over (h : ¬ Over m i (0xc0000000 + p)) : done m (i + 1) p = done m i p := by
  simp only [done]
  by_cases hcopied : (programHeader m i).Copied
  · have hbase := hcopied.2
    have hout : ¬ (programHeader m i).InFile (0xc0000000 + p) := fun hin => h ⟨hcopied, hin⟩
    unfold ProgramHeader.InFile at hout
    rw [if_pos hcopied, blit_out (by omega)]
  · rw [if_neg hcopied]

theorem done_last (h : LastOver m n j (0xc0000000 + p)) :
    done m n p = fileByte m (programHeader m j) (0xc0000000 + p) := by
  have hlt := h.lt
  induction n with
  | zero => exact absurd hlt (Nat.not_lt_zero j)
  | succ n ih =>
    obtain hlt | rfl := Nat.lt_succ_iff_lt_or_eq.mp hlt
    · rw [done_not_over (h.last n hlt (Nat.lt_succ_self n))]
      exact ih ⟨hlt, h.covers, fun l hl hl' => h.last l hl (Nat.lt_succ_of_lt hl')⟩ hlt
    · exact done_over h.covers

theorem done_none (h : ∀ j < n, ¬ Over m j (0xc0000000 + p)) : done m n p = m p := by
  induction n with
  | zero => rfl
  | succ n ih =>
    rw [done_not_over (h n (Nat.lt_succ_self n))]
    exact ih fun j hj => h j (Nat.lt_succ_of_lt hj)

/-! ## The run -/

theorem phnum_lt (m : Bytes) : phnum m < 2 ^ 16 := by
  have h0 := (m (BASE + 44)).toNat_lt
  have h1 := (m (BASE + 44 + 1)).toNat_lt
  unfold phnum half
  omega

/-- The addresses of these headers. -/
def visits (m : Bytes) (i r : Nat) : List UInt32 :=
  (List.range' i r).map fun j => .ofNat (headerAt m j)

theorem headerAt_succ (m : Bytes) (i : Nat) :
    UInt32.ofNat (headerAt m i) + .ofNat (phentsize m) = .ofNat (headerAt m (i + 1)) := by
  have hnext : headerAt m (i + 1) = headerAt m i + phentsize m := by
    rw [headerAt, headerAt, Nat.succ_mul, Nat.add_assoc, Nat.add_assoc, Nat.add_assoc]
  rw [hnext, UInt32.ofNat_add]

/-- What a header brings to the image is there already. -/
def Keeps (m : Bytes) (size j : Nat) : Prop :=
  (programHeader m j).Copied → ∀ a, (programHeader m j).InFile a →
    ∀ p, phys a = some p → BASE ≤ p → p < BASE + size → fileByte m (programHeader m j) a = m p

/-- A header's bytes are copied to memory that is mapped. -/
def Fits (m : Bytes) (i : Nat) : Prop :=
  (programHeader m i).Copied → ∀ a, (programHeader m i).InFile a → a < 0xc0100000

section
variable (himg : ElfImage m size) (hkeep : ∀ j < phnum m, Keeps m size j)
include himg

/-- What a round does with the header it is at. -/
theorem segment_reads (hi : i < phnum m) (hsame : Same m' m BASE size) :
    segment (.ofNat (headerAt m i)) m' =
      if (programHeader m i).Copied then
        repMovsb (programHeader m i).filesz (getWord m (headerAt m i + 4) + KERNEL_BIN_BASE_ADDR)
          (getWord m (headerAt m i + 8)) m'
      else .ok m' := by
  have hroom := himg.room
  have htable := himg.table i hi
  have hat : headerAt m i = BASE + phoff m + i * phentsize m := rfl
  have hnext : ∀ k, UInt32.ofNat (headerAt m i) + UInt32.ofNat k = .ofNat (headerAt m i + k) :=
    fun k => (UInt32.ofNat_add _ k).symm
  have htype : load m' (.ofNat (headerAt m i) + 0) = .ok (m (headerAt m i)) := by
    rw [UInt32.add_zero, load_low (by omega), hsame _ (by omega) (by omega)]
  have hword : ∀ k, k + 4 ≤ 32 →
      load32 m' (.ofNat (headerAt m i + k)) = .ok (getWord m (headerAt m i + k)) := by
    intro k hk
    rw [load32_low (by omega), hsame.getWord (by omega) (by omega)]
  have h4 : load32 m' (.ofNat (headerAt m i) + 4) = .ok (getWord m (headerAt m i + 4)) :=
    (congrArg _ (hnext 4)).trans (hword 4 (by decide))
  have h8 : load32 m' (.ofNat (headerAt m i) + 8) = .ok (getWord m (headerAt m i + 8)) :=
    (congrArg _ (hnext 8)).trans (hword 8 (by decide))
  have h16 : load32 m' (.ofNat (headerAt m i) + 16) = .ok (getWord m (headerAt m i + 16)) :=
    (congrArg _ (hnext 16)).trans (hword 16 (by decide))
  have hnull : m (headerAt m i) = PT_NULL ↔ (programHeader m i).type % 256 = 0 := by
    have hlow : (programHeader m i).type % 256 = (m (headerAt m i)).toNat := getWord_low ..
    rw [hlow]
    exact UInt8.toNat_inj.symm
  have hbelow : getWord m (headerAt m i + 8) < KERNEL_ENTER_ADDR ↔
      (programHeader m i).vaddr < 0xc0001500 := UInt32.lt_iff_toNat_lt
  simp only [segment, htype, h4, h8, h16, ok_bind, hnull, hbelow, memCpy]
  by_cases hzero : (programHeader m i).type % 256 = 0
  · rw [if_pos hzero, if_neg fun h => h.1 hzero]
    rfl
  · rw [if_neg hzero]
    by_cases hlow : (programHeader m i).vaddr < 0xc0001500
    · rw [if_pos hlow, if_neg fun h => absurd h.2 (by omega)]
      rfl
    · rw [if_neg hlow, if_pos ⟨hzero, by omega⟩]
      rfl

include hkeep

/-- The loader still reads the image it has been given. -/
theorem done_image (hn : n ≤ phnum m) : Same (done m n) m BASE size := by
  intro p hp hp'
  have hroom := himg.room
  obtain ⟨j, hj⟩ | hnone := lastOver_or m n (0xc0000000 + p)
  · rw [done_last hj]
    have hlt := hj.lt
    exact hkeep j (by omega) hj.covers.1 _ hj.covers.2 p (phys_high (by omega)) hp hp'
  · exact done_none hnone

omit hkeep in
/-- The bytes of a header come from the image. -/
theorem copied_range (hi : i < phnum m) (hcopied : (programHeader m i).Copied) :
    (getWord m (headerAt m i + 4) + KERNEL_BIN_BASE_ADDR).toNat =
        BASE + (programHeader m i).offset ∧
      (programHeader m i).offset + (programHeader m i).filesz ≤ size := by
  have hroom := himg.room
  have hfile := himg.file i hi fun hzero => hcopied.1 (by rw [hzero])
  have hbase : KERNEL_BIN_BASE_ADDR.toNat = BASE := rfl
  have hoffset : (getWord m (headerAt m i + 4)).toNat = (programHeader m i).offset := rfl
  refine ⟨?_, hfile⟩
  rw [UInt32.toNat_add, hoffset, hbase]
  omega

/-- Where a copy reads what it overwrites, it writes what is there. -/
theorem copied_overlap (hi : i < phnum m) (hcopied : (programHeader m i).Copied)
    (hfits : Fits m i) : ∀ k < (programHeader m i).filesz,
      BASE + (programHeader m i).offset ≤ (programHeader m i).vaddr - 0xc0000000 + k →
      (programHeader m i).vaddr - 0xc0000000 + k <
        BASE + (programHeader m i).offset + (programHeader m i).filesz →
      done m i (BASE + (programHeader m i).offset + k) =
        done m i ((programHeader m i).vaddr - 0xc0000000 + k) := by
  have hsame := done_image himg hkeep (Nat.le_of_lt hi)
  obtain ⟨-, hin⟩ := copied_range himg hi hcopied
  have hkept := hkeep i hi hcopied
  have hmapped := hfits hcopied
  have hbase := hcopied.2
  generalize programHeader m i = h at *
  intro k hk hle hlt
  have haddr : 0xc0000000 + (h.vaddr - 0xc0000000 + k) = h.vaddr + k := by omega
  have hhigh := hmapped (h.vaddr + k) ⟨Nat.le_add_right .., by omega⟩
  have hbyte := hkept (0xc0000000 + (h.vaddr - 0xc0000000 + k)) ⟨by omega, by omega⟩ _
    (phys_high (by omega)) (by omega) (by omega)
  rw [hsame _ (by omega) (by omega), hsame _ (by omega) (by omega), ← hbyte, fileByte, haddr,
    Nat.add_sub_cancel_left]

/-- A round copies what belongs to its header. -/
theorem segment_done (hi : i < phnum m) (hfits : Fits m i) :
    segment (.ofNat (headerAt m i)) (done m i) = .ok (done m (i + 1)) := by
  have hsame := done_image himg hkeep (Nat.le_of_lt hi)
  rw [segment_reads himg hi hsame]
  by_cases hcopied : (programHeader m i).Copied
  · obtain ⟨hsrc, hin⟩ := copied_range himg hi hcopied
    have hoverlap := copied_overlap himg hkeep hi hcopied hfits
    have hmapped := hfits hcopied
    have hbase := hcopied.2
    have hroom := himg.room
    have hdst : (getWord m (headerAt m i + 8)).toNat =
        0xc0000000 + ((programHeader m i).vaddr - 0xc0000000) := by
      have hvaddr : (getWord m (headerAt m i + 8)).toNat = (programHeader m i).vaddr := rfl
      omega
    simp only [if_pos hcopied, done]
    generalize programHeader m i = h at *
    by_cases hnone : h.filesz = 0
    · rw [hnone, blit_none]
      rfl
    · have hlast := hmapped (h.vaddr + h.filesz - 1) ⟨by omega, by omega⟩
      rw [repMovsb_blit _ _ hsrc hdst (by omega) (by omega) hoverlap]
      exact congrArg _ (blit_congr fun k hk => hsame _ (by omega) (by omega))
  · simp only [if_neg hcopied, done]

/-- A round without a fault copied to mapped memory. -/
theorem segment_fits (hi : i < phnum m)
    (hrun : segment (.ofNat (headerAt m i)) (done m i) = .ok m') : Fits m i := by
  intro hcopied a ha
  rw [segment_reads himg hi (done_image himg hkeep (Nat.le_of_lt hi)), if_pos hcopied] at hrun
  have hvaddr : (getWord m (headerAt m i + 8)).toNat = (programHeader m i).vaddr := rfl
  have hbase := hcopied.2
  obtain ⟨hle, hlt⟩ := ha
  have hmapped := repMovsb_mapped _ _ (by omega) hrun (a - (programHeader m i).vaddr) (by omega)
  omega

/-- From a header on, the rounds copy what belongs to it and to the headers behind it. -/
theorem eachSegment_done (r : Nat) (hr : i + r + 1 = phnum m)
    (hfits : ∀ j, i ≤ j → j < phnum m → Fits m j) :
    eachSegment (.ofNat (phentsize m)) (.ofNat (r + 1)) (.ofNat (headerAt m i)) (done m i) =
      .ok (done m (phnum m), visits m i (r + 1)) := by
  have hphnum := phnum_lt m
  induction r generalizing i with
  | zero =>
    have hround := segment_done himg hkeep (by omega) (hfits i (Nat.le_refl i) (by omega))
    rw [eachSegment_step 0 (by decide), hround, ok_bind, if_pos rfl, ← hr]
    rfl
  | succ r ih =>
    have hround := segment_done himg hkeep (by omega) (hfits i (Nat.le_refl i) (by omega))
    have hrest := ih (i := i + 1) (by omega) fun j hj => hfits j (by omega)
    rw [eachSegment_step _ (by omega), hround, ok_bind, if_neg (Nat.succ_ne_zero r), headerAt_succ,
      hrest]
    rfl

/-- Rounds without a fault copied to mapped memory. -/
theorem eachSegment_fits (r : Nat) (hr : i + r + 1 = phnum m) {out : Bytes × List UInt32}
    (hrun : eachSegment (.ofNat (phentsize m)) (.ofNat (r + 1)) (.ofNat (headerAt m i))
      (done m i) = .ok out) : ∀ j, i ≤ j → j < phnum m → Fits m j := by
  have hphnum := phnum_lt m
  induction r generalizing i out with
  | zero =>
    rw [eachSegment_step 0 (by decide)] at hrun
    obtain ⟨m₁, hround, -⟩ := bind_ok.mp hrun
    intro j hj hj'
    obtain rfl : j = i := by omega
    exact segment_fits himg hkeep hj' hround
  | succ r ih =>
    rw [eachSegment_step _ (by omega)] at hrun
    obtain ⟨m₁, hround, hrun⟩ := bind_ok.mp hrun
    have hfits := segment_fits himg hkeep (by omega) hround
    rw [segment_done himg hkeep (by omega) hfits] at hround
    obtain rfl := Except.ok.inj hround
    rw [if_neg (Nat.succ_ne_zero r), headerAt_succ] at hrun
    obtain ⟨⟨m₂, visited⟩, hrest, -⟩ := bind_ok.mp hrun
    intro j hj hj'
    obtain rfl | hlt := Nat.eq_or_lt_of_le hj
    · exact hfits
    · exact ih (by omega) hrest j hlt hj'

omit hkeep in
/-- The first header is the one at `e_phoff`. -/
theorem kernelInit_eq : kernelInit m =
    eachSegment (.ofNat (phentsize m)) (.ofNat (phnum m)) (.ofNat (headerAt m 0)) (done m 0) := by
  have hheader := himg.header
  have hroom := himg.room
  have h42 : load16 m (KERNEL_BIN_BASE_ADDR + 42) = .ok (.ofNat (phentsize m)) :=
    load16_low (p := BASE + 42) (by omega)
  have h44 : load16 m (KERNEL_BIN_BASE_ADDR + 44) = .ok (.ofNat (phnum m)) :=
    load16_low (p := BASE + 44) (by omega)
  have h28 : load32 m (KERNEL_BIN_BASE_ADDR + 28) = .ok (getWord m (BASE + 28)) :=
    load32_low (p := BASE + 28) (by omega)
  have hfirst : getWord m (BASE + 28) + KERNEL_BIN_BASE_ADDR = .ofNat (headerAt m 0) := by
    have hat : headerAt m 0 = phoff m + BASE := by unfold headerAt; omega
    rw [hat, UInt32.ofNat_add, phoff, UInt32.ofNat_toNat]
    rfl
  simp only [kernelInit, h42, h28, h44, ok_bind, hfirst, done]

/-- With a header and room for the copies all headers are visited. -/
theorem kernelInit_done (hphnum : phnum m ≠ 0) (hfits : ∀ j < phnum m, Fits m j) :
    kernelInit m = .ok (done m (phnum m), visits m 0 (phnum m)) := by
  obtain ⟨r, hr⟩ := Nat.exists_eq_add_one_of_ne_zero hphnum
  have hrun := eachSegment_done himg hkeep (i := 0) r (by omega) fun j _ hj => hfits j hj
  rw [kernelInit_eq himg]
  rwa [← hr] at hrun

/-- A run without a fault had room, and leaves what the copies leave. -/
theorem kernelInit_ok (hphnum : phnum m ≠ 0) {visited : List UInt32}
    (hrun : kernelInit m = .ok (m', visited)) :
    (∀ j < phnum m, Fits m j) ∧ m' = done m (phnum m) := by
  obtain ⟨r, hr⟩ := Nat.exists_eq_add_one_of_ne_zero hphnum
  have hloop := kernelInit_eq himg ▸ hrun
  rw [hr] at hloop
  have hfits : ∀ j < phnum m, Fits m j := fun j hj =>
    eachSegment_fits himg hkeep (i := 0) r (by omega) hloop j (Nat.zero_le j) hj
  rw [kernelInit_done himg hkeep hphnum hfits] at hrun
  exact ⟨hfits, (congrArg Prod.fst (Except.ok.inj hrun)).symm⟩

end

/-! ## When the kernel is loaded -/

/-- The byte that an address is to hold: that of its segment, and elsewhere the one it held. -/
structure Wanted (m : Bytes) (a : Nat) (v : UInt8) : Prop where
  segment : ∀ i < phnum m, (programHeader m i).Loadable → (programHeader m i).InMem a →
    v = if (programHeader m i).InFile a then fileByte m (programHeader m i) a else 0
  rest : (∀ i < phnum m, (programHeader m i).Loadable → ¬ (programHeader m i).InMem a) →
    v = m (a - 0xc0000000)

/-- What is copied and no segment brings nothing new to the image. -/
def OthersKeep (m : Bytes) (size : Nat) : Prop :=
  ∀ j < phnum m, ¬ (programHeader m j).Loadable → Keeps m size j

/-- There is a header; all that is copied or to be filled is mapped; where nothing is copied to a
segment there are zeros already; and what is no segment brings nothing new to the image, and the
byte that is wanted to where no header behind it is copied. -/
structure Suffices (m : Bytes) (size : Nat) : Prop where
  headers : phnum m ≠ 0
  fits : ∀ i < phnum m, Fits m i
  room : ∀ i < phnum m, (programHeader m i).Loadable →
    ∀ a, (programHeader m i).InMem a → a < 0xc0100000
  others : OthersKeep m size
  tails : ∀ i < phnum m, (programHeader m i).Loadable → ∀ a, (programHeader m i).InMem a →
    (∀ j < phnum m, ¬ Over m j a) → m (a - 0xc0000000) = 0
  last : ∀ j a, LastOver m (phnum m) j a → ¬ (programHeader m j).Loadable →
    Wanted m a (fileByte m (programHeader m j) a)

section
variable (himg : ElfImage m size) (hapart : Apart m size)
include himg hapart

omit hapart in
/-- Without headers one is visited all the same. -/
theorem Loads.headers (h : Loads m) : phnum m ≠ 0 := by
  obtain ⟨m', hrun, -⟩ := h
  rw [kernelInit_eq himg] at hrun
  intro hzero
  rw [hzero] at hrun
  exact eachSegment_visits hrun rfl

theorem keeps (hothers : OthersKeep m size) : ∀ j < phnum m, Keeps m size j := by
  intro j hj
  by_cases hload : (programHeader m j).Loadable
  · have hsizes := himg.sizes j hj hload
    intro _ a ⟨hle, hlt⟩ p hp hin hin'
    have hoff := hapart.image j hj hload a ⟨hle, by omega⟩ p hp
    omega
  · exact hothers j hj hload

/-- The copies leave what is wanted. -/
theorem Suffices.wanted (h : Suffices m size) (p : Nat) :
    Wanted m (0xc0000000 + p) (done m (phnum m) p) := by
  obtain ⟨j, hj⟩ | hnone := lastOver_or m (phnum m) (0xc0000000 + p)
  · rw [done_last hj]
    by_cases hload : (programHeader m j).Loadable
    · obtain ⟨-, hle, hlt⟩ := hj.covers
      have hsizes := himg.sizes j hj.lt hload
      have hin : (programHeader m j).InMem (0xc0000000 + p) := ⟨hle, by omega⟩
      refine ⟨fun i hi hload' hin' => ?_, fun hout => absurd hin (hout j hj.lt hload)⟩
      by_cases hij : i = j
      · subst hij
        rw [if_pos ⟨hle, hlt⟩]
      · exact absurd hin (hapart.segments i hi j hj.lt hij hload' hload _ hin')
    · exact h.last j _ hj hload
  · rw [done_none hnone]
    refine ⟨fun i hi hload hin => ?_, fun _ => ?_⟩
    · have hzero := h.tails i hi hload _ hin hnone
      rw [Nat.add_sub_cancel_left] at hzero
      rw [if_neg fun hfile => hnone i hi ⟨hload.copied, hfile⟩, hzero]
    · rw [Nat.add_sub_cancel_left]

theorem Suffices.loads (h : Suffices m size) : Loads m := by
  have hkeep := keeps himg hapart h.others
  refine ⟨done m (phnum m), ?_, ?_, ?_⟩
  · rw [kernelInit_done himg hkeep h.headers h.fits, visits, List.range_eq_range']
  · intro i hi hload a ha
    have hhigh := h.room i hi hload a ha
    obtain ⟨p, rfl⟩ := hload.copied.high ha.1
    exact ⟨p, phys_high (by omega), (h.wanted himg hapart p).segment i hi hload ha⟩
  · intro p hp
    have hrest := (h.wanted himg hapart p).rest fun i hi hload hin => ?_
    · rwa [Nat.add_sub_cancel_left] at hrest
    · have hhigh := h.room i hi hload _ hin
      exact hp i hi hload _ hin (phys_high (by omega))

/-- A kernel that is loaded shows all of it, as long as the image is what it was. -/
theorem Loads.suffices (h : Loads m) (hothers : OthersKeep m size) : Suffices m size := by
  have hkeep := keeps himg hapart hothers
  have hphnum := h.headers himg
  obtain ⟨m', hrun, hsegment, hrest⟩ := h
  obtain ⟨hfits, rfl⟩ := kernelInit_ok himg hkeep hphnum hrun
  have hroom : ∀ i < phnum m, (programHeader m i).Loadable →
      ∀ a, (programHeader m i).InMem a → a < 0xc0100000 := by
    intro i hi hload a ha
    have hlow := hload.2
    obtain ⟨p, hp, -⟩ := hsegment i hi hload a ha
    by_contra hge
    rw [phys, if_neg (by omega), if_neg (by omega)] at hp
    cases hp
  have hwanted : ∀ p, Wanted m (0xc0000000 + p) (done m (phnum m) p) := by
    intro p
    refine ⟨fun i hi hload hin => ?_, fun hout => ?_⟩
    · obtain ⟨q, hq, hbyte⟩ := hsegment i hi hload _ hin
      have hhigh := hroom i hi hload _ hin
      rw [phys_high (by omega)] at hq
      cases hq
      exact hbyte
    · rw [Nat.add_sub_cancel_left]
      refine hrest p fun i hi hload a ha hphys => hout i hi hload ?_
      have hlow := hload.2
      have hle := ha.1
      rwa [← phys_back (by omega) hphys]
  refine ⟨hphnum, hfits, hroom, hothers, ?_, ?_⟩
  · intro i hi hload a ha hnone
    obtain ⟨p, rfl⟩ := hload.copied.high ha.1
    have hbyte := (hwanted p).segment i hi hload ha
    rw [done_none hnone, if_neg fun hfile => hnone i hi ⟨hload.copied, hfile⟩] at hbyte
    rwa [Nat.add_sub_cancel_left]
  · intro j a hj _
    obtain ⟨p, rfl⟩ := hj.covers.1.high hj.covers.2.1
    rw [← done_last hj]
    exact hwanted p

/-- The kernel is loaded if that suffices, and only then while the image is what it was. -/
theorem kernelInit_loads_iff :
    (Suffices m size → Loads m) ∧ (OthersKeep m size → (Loads m ↔ Suffices m size)) :=
  ⟨Suffices.loads himg hapart, fun hothers =>
    ⟨fun h => h.suffices himg hapart hothers, Suffices.loads himg hapart⟩⟩

end

/-- An image with one header: one byte of the file, and one behind it that is to be zero. -/
def smallImage : List UInt8 :=
  [0x7f, 0x45, 0x4c, 0x46, 1, 1, 1, 0, 0, 0, 0, 0, 0, 0, 0, 0, 2, 0, 3, 0, 1, 0, 0, 0,
    0, 0x15, 0, 0xc0, 52, 0, 0, 0, 0, 0, 0, 0, 0, 0, 0, 0, 52, 0, 32, 0, 1, 0, 0, 0, 0, 0, 0, 0,
    1, 0, 0, 0, 84, 0, 0, 0, 0, 0x15, 0, 0xc0, 0, 0x15, 0, 0xc0, 1, 0, 0, 0, 2, 0, 0, 0,
    7, 0, 0, 0, 0, 0, 0, 0, 0xf4]

/-- The memory with it; `old` is the byte at the segment's second address. -/
def smallKernel (old : UInt8) : Bytes := fun a =>
  if BASE ≤ a then smallImage.getD (a - BASE) 0 else if a = 0x1501 then old else 0

theorem smallKernel_header (old : UInt8) :
    programHeader (smallKernel old) 0 = ⟨1, 84, 0xc0001500, 1, 2⟩ := by
  simp [programHeader, headerAt, phoff, getWord, smallKernel, smallImage, BASE]

theorem smallKernel_first {old : UInt8} {i : Nat} (hi : i < phnum (smallKernel old)) : i = 0 :=
  Nat.lt_one_iff.mp hi

theorem smallKernel_image (old : UInt8) : ElfImage (smallKernel old) 85 where
  header := by decide
  room := by decide
  table i hi := by
    have hphoff : phoff (smallKernel old) = 52 := by
      simp [phoff, getWord, smallKernel, smallImage, BASE]
    rw [smallKernel_first hi, hphoff, Nat.zero_mul]
    decide
  file i hi _ := by
    rw [smallKernel_first hi, smallKernel_header]
    decide
  sizes i hi _ := by
    rw [smallKernel_first hi, smallKernel_header]
    decide

theorem smallKernel_apart (old : UInt8) : Apart (smallKernel old) 85 where
  segments i hi j hj hij := absurd ((smallKernel_first hi).trans (smallKernel_first hj).symm) hij
  image i hi _ a ha p hp := by
    rw [smallKernel_first hi, smallKernel_header] at ha
    obtain ⟨hle, hlt⟩ := ha
    dsimp only at hle hlt
    have hback := phys_back (by omega) hp
    have hbase : BASE = 0x70000 := rfl
    omega

theorem smallKernel_loadable (old : UInt8) : (programHeader (smallKernel old) 0).Loadable := by
  rw [smallKernel_header]
  exact ⟨rfl, by decide⟩

theorem smallKernel_others (old : UInt8) : OthersKeep (smallKernel old) 85 := by
  intro j hj hload
  rw [smallKernel_first hj] at hload
  exact absurd (smallKernel_loadable old) hload

theorem smallKernel_suffices : Suffices (smallKernel 0) 85 where
  headers := by decide
  fits i hi _ a ha := by
    rw [smallKernel_first hi, smallKernel_header] at ha
    exact Nat.lt_trans ha.2 (by decide)
  room i hi _ a ha := by
    rw [smallKernel_first hi, smallKernel_header] at ha
    exact Nat.lt_trans ha.2 (by decide)
  others := smallKernel_others 0
  tails i hi hload a ha hnone := by
    rw [smallKernel_first hi, smallKernel_header] at ha
    obtain ⟨hle, hlt⟩ := ha
    dsimp only at hle hlt
    by_cases hfile : a = 0xc0001500
    · refine absurd ⟨(smallKernel_loadable 0).copied, ?_⟩ (hnone 0 (by decide))
      rw [smallKernel_header]
      exact ⟨hle, by dsimp only; omega⟩
    · obtain rfl : a = 0xc0001501 := by omega
      decide
  last j a hj hload := by
    rw [smallKernel_first hj.lt] at hload
    exact absurd (smallKernel_loadable 0) hload

/-- The byte behind the file is to be zero and is. -/
theorem kernelInit_loads_small : Loads (smallKernel 0) :=
  (kernelInit_loads_iff (smallKernel_image 0) (smallKernel_apart 0)).1 smallKernel_suffices

/-- It is not, and stays as it is. -/
theorem kernelInit_leaves_tail : ElfImage (smallKernel 0xaa) 85 ∧ Apart (smallKernel 0xaa) 85 ∧
    ¬ Loads (smallKernel 0xaa) := by
  refine ⟨smallKernel_image _, smallKernel_apart _, fun h => ?_⟩
  have hall := h.suffices (smallKernel_image _) (smallKernel_apart _) (smallKernel_others _)
  have hzero := hall.tails 0 (by decide) (smallKernel_loadable _) 0xc0001501 ?_ ?_
  · exact absurd hzero (by decide)
  · rw [smallKernel_header]
    exact ⟨by decide, by decide⟩
  · rintro j hj ⟨-, hin⟩
    rw [smallKernel_first hj, smallKernel_header] at hin
    exact absurd hin.2 (by decide)

end Loader

end ZhuOS
