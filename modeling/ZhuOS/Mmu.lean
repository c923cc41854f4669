import Mathlib.Data.Nat.Bitwise
import ZhuOS.Machine

/-!
# Two-level paging with the directory mapped onto itself

Physical memory is a word for each frame number and word index. The last
directory entry points at the directory, so `ptePtr v` and `pdePtr v` are
virtual addresses that the hardware resolves through the tables they lead to.
The TLB is taken as coherent.
-/

namespace ZhuOS

def PG_SIZE : Nat := 4096
def PG_P_1 : Nat := 1
def PG_RW_W : Nat := 2
def PG_US_U : Nat := 4

/-- Physical memory: the 32-bit word `w` of frame `f`. -/
abbrev PhysMem := Nat → Nat → Nat

/-- What the CPU translates with: physical memory and `cr3`. -/
structure Mmu where
  phys : PhysMem
  cr3 : Nat

def pdeIdx (addr : Nat) : Nat := (addr &&& 0xffc00000) >>> 22
def pteIdx (addr : Nat) : Nat := (addr &&& 0x003ff000) >>> 12

/-- The virtual address at which `vaddr`'s page-table entry is seen. -/
def ptePtr (vaddr : Nat) : Nat := 0xffc00000 + ((vaddr &&& 0xffc00000) >>> 10) + pteIdx vaddr * 4

/-- The virtual address at which `vaddr`'s directory entry is seen. -/
def pdePtr (vaddr : Nat) : Nat := 0xfffff000 + pdeIdx vaddr * 4

namespace Mmu

/-- The hardware walk: the frame a virtual address lies in. -/
def walk (m : Mmu) (a : Nat) : Except Fault Nat :=
  let pde := m.phys (m.cr3 / 4096) (a / 2 ^ 22)
  if pde % 2 = 0 then .error .badAddress
  else
    let pte := m.phys (pde / 4096) (a / 4096 % 1024)
    if pte % 2 = 0 then .error .badAddress else .ok (pte / 4096)

/-- Reading the word at a virtual address. -/
def load (m : Mmu) (a : Nat) : Except Fault Nat := do
  let f ← m.walk a
  return m.phys f (a % 4096 / 4)

def put (m : Mmu) (f w v : Nat) : Mmu :=
  { m with phys := fun f' w' => if f' = f ∧ w' = w then v else m.phys f' w' }

/-- Writing the word at a virtual address. -/
def store (m : Mmu) (a v : Nat) : Except Fault Mmu := do
  let f ← m.walk a
  return m.put f (a % 4096 / 4) v

/-- `memset(page, 0, PG_SIZE)` on the page at a virtual address. -/
def clearPage (m : Mmu) (a : Nat) : Except Fault Mmu := do
  let f ← m.walk a
  return { m with phys := fun f' w => if f' = f ∧ w < 1024 then 0 else m.phys f' w }

@[simp] theorem put_cr3 (m : Mmu) (f w v : Nat) : (m.put f w v).cr3 = m.cr3 := rfl

theorem put_phys (m : Mmu) (f w v f' w' : Nat) :
    (m.put f w v).phys f' w' = if f' = f ∧ w' = w then v else m.phys f' w' := rfl

end Mmu

/-- Masking a bit field keeps its value in place. -/
theorem and_field (a n s : Nat) : a &&& ((2 ^ n - 1) <<< s) = (a / 2 ^ s % 2 ^ n) * 2 ^ s := by
  rw [← Nat.and_two_pow_sub_one_eq_mod, ← Nat.shiftLeft_eq, ← Nat.shiftRight_eq_div_pow]
  apply Nat.eq_of_testBit_eq
  intro i
  simp only [Nat.testBit_and, Nat.testBit_shiftLeft, Nat.testBit_shiftRight]
  by_cases hi : s ≤ i
  · simp [hi, show s + (i - s) = i by omega]
  · simp [hi]

theorem pde_field (a : Nat) : a &&& 0xffc00000 = a / 2 ^ 22 % 1024 * 2 ^ 22 := and_field a 10 22

theorem pdeIdx_eq {a : Nat} (h : a < 2 ^ 32) : pdeIdx a = a / 2 ^ 22 := by
  rw [pdeIdx, pde_field, Nat.shiftRight_eq_div_pow]
  omega

theorem pteIdx_eq (a : Nat) : pteIdx a = a / 4096 % 1024 := by
  have hfield : a &&& 0x003ff000 = a / 2 ^ 12 % 1024 * 2 ^ 12 := and_field a 10 12
  rw [pteIdx, hfield, Nat.shiftRight_eq_div_pow]
  omega

theorem ptePtr_eq {a : Nat} (h : a < 2 ^ 32) :
    ptePtr a = 0xffc00000 + a / 2 ^ 22 * 4096 + a / 4096 % 1024 * 4 := by
  rw [ptePtr, pde_field, pteIdx_eq, Nat.shiftRight_eq_div_pow]
  omega

theorem pdePtr_eq {a : Nat} (h : a < 2 ^ 32) : pdePtr a = 0xfffff000 + a / 2 ^ 22 * 4 := by
  unfold pdePtr
  rw [pdeIdx_eq h]

/-- The attribute bits of an entry do not touch the frame address. -/
theorem entry_eq {p : Nat} (h : p % 4096 = 0) : p ||| PG_US_U ||| PG_RW_W ||| PG_P_1 = p + 7 := by
  have hor := Nat.two_pow_add_eq_or_of_lt (i := 12) (b := 7) (by decide) (p / 4096)
  rw [show 2 ^ 12 * (p / 4096) = p by omega] at hor
  rw [hor, Nat.or_assoc, Nat.or_assoc]
  rfl

theorem clear_present (e : Nat) : (e &&& 0xfffffffe) % 2 = 0 := by
  have := Nat.and_mod_two_pow (a := e) (b := 0xfffffffe) (n := 1)
  simpa using this

/-- `m`'s directory seen through itself: `cr3` leads to frame `dir`, whose last
entry leads back to it. -/
structure RootMapped (m : Mmu) (dir : Nat) : Prop where
  cr3 : m.cr3 / 4096 = dir
  present : m.phys dir 1023 % 2 = 1
  self : m.phys dir 1023 / 4096 = dir

theorem ptePtr_word {v : Nat} (hv : v < 2 ^ 32) : ptePtr v % 4096 / 4 = v / 4096 % 1024 := by
  rw [ptePtr_eq hv]; omega

namespace RootMapped

variable {m : Mmu} {dir : Nat}

theorem put (h : RootMapped m dir) {f w v : Nat} (hf : ¬ (f = dir ∧ w = 1023)) :
    RootMapped (m.put f w v) dir := by
  have hsame : (m.put f w v).phys dir 1023 = m.phys dir 1023 := by
    rw [Mmu.put_phys, if_neg (by omega)]
  exact ⟨h.cr3, by rw [hsame]; exact h.present, by rw [hsame]; exact h.self⟩

/-- The walk reads the directory's entry and then the table's. -/
theorem walk (h : RootMapped m dir) (a : Nat) : m.walk a =
    if m.phys dir (a / 2 ^ 22) % 2 = 0 then .error .badAddress
    else if m.phys (m.phys dir (a / 2 ^ 22) / 4096) (a / 4096 % 1024) % 2 = 0 then
      .error .badAddress
    else .ok (m.phys (m.phys dir (a / 2 ^ 22) / 4096) (a / 4096 % 1024) / 4096) := by
  simp only [Mmu.walk, h.cr3]

/-- `*pde_ptr(v)` is the directory's own entry for `v`. -/
theorem walk_pdePtr (h : RootMapped m dir) {v : Nat} (hv : v < 2 ^ 32) :
    m.walk (pdePtr v) = .ok dir := by
  have hd : pdePtr v / 2 ^ 22 = 1023 := by rw [pdePtr_eq hv]; omega
  have ht : pdePtr v / 4096 % 1024 = 1023 := by rw [pdePtr_eq hv]; omega
  have hp := h.present
  rw [h.walk, hd, ht, if_neg (by omega), h.self, if_neg (by omega), h.self]

theorem pdePtr_word {v : Nat} (hv : v < 2 ^ 32) : pdePtr v % 4096 / 4 = v / 2 ^ 22 := by
  rw [pdePtr_eq hv]; omega

theorem load_pdePtr (h : RootMapped m dir) {v : Nat} (hv : v < 2 ^ 32) :
    m.load (pdePtr v) = .ok (m.phys dir (v / 2 ^ 22)) := by
  simp only [Mmu.load, h.walk_pdePtr hv, ok_bind, pdePtr_word hv]
  rfl

theorem store_pdePtr (h : RootMapped m dir) {v : Nat} (hv : v < 2 ^ 32) (e : Nat) :
    m.store (pdePtr v) e = .ok (m.put dir (v / 2 ^ 22) e) := by
  simp only [Mmu.store, h.walk_pdePtr hv, ok_bind, pdePtr_word hv]
  rfl

/-- `*pte_ptr(v)` lies in the table the directory gives for `v`. -/
theorem walk_ptePtr (h : RootMapped m dir) {v : Nat} (hv : v < 2 ^ 32)
    (hp : m.phys dir (v / 2 ^ 22) % 2 = 1) :
    m.walk (ptePtr v) = .ok (m.phys dir (v / 2 ^ 22) / 4096) := by
  have hd : ptePtr v / 2 ^ 22 = 1023 := by rw [ptePtr_eq hv]; omega
  have ht : ptePtr v / 4096 % 1024 = v / 2 ^ 22 := by rw [ptePtr_eq hv]; omega
  have hself := h.present
  rw [h.walk, hd, ht, if_neg (by omega), h.self, if_neg (by omega)]

theorem load_ptePtr (h : RootMapped m dir) {v : Nat} (hv : v < 2 ^ 32)
    (hp : m.phys dir (v / 2 ^ 22) % 2 = 1) :
    m.load (ptePtr v) = .ok (m.phys (m.phys dir (v / 2 ^ 22) / 4096) (v / 4096 % 1024)) := by
  simp only [Mmu.load, h.walk_ptePtr hv hp, ok_bind, ptePtr_word hv]
  rfl

theorem store_ptePtr (h : RootMapped m dir) {v : Nat} (hv : v < 2 ^ 32) (e : Nat)
    (hp : m.phys dir (v / 2 ^ 22) % 2 = 1) :
    m.store (ptePtr v) e =
      .ok (m.put (m.phys dir (v / 2 ^ 22) / 4096) (v / 4096 % 1024) e) := by
  simp only [Mmu.store, h.walk_ptePtr hv hp, ok_bind, ptePtr_word hv]
  rfl

/-- `memset` through `*pte_ptr(v)` clears the table. -/
theorem clearPage_ptePtr (h : RootMapped m dir) {v : Nat} (hv : v < 2 ^ 32)
    (hp : m.phys dir (v / 2 ^ 22) % 2 = 1) :
    m.clearPage (ptePtr v) = .ok { m with
      phys := fun f w =>
        if f = m.phys dir (v / 2 ^ 22) / 4096 ∧ w < 1024 then 0 else m.phys f w } := by
  simp only [Mmu.clearPage, h.walk_ptePtr hv hp, ok_bind]
  rfl

end RootMapped

/-- The same with the attributes the loader gives the entry. -/
structure SelfMapped (m : Mmu) (dir : Nat) : Prop where
  cr3 : m.cr3 / 4096 = dir
  self : m.phys dir 1023 = dir * 4096 + 7

namespace SelfMapped

variable {m : Mmu} {dir : Nat}

theorem root (h : SelfMapped m dir) : RootMapped m dir :=
  ⟨h.cr3, by rw [h.self]; omega, by rw [h.self]; omega⟩

theorem load_pdePtr (h : SelfMapped m dir) {v : Nat} (hv : v < 2 ^ 32) :
    m.load (pdePtr v) = .ok (m.phys dir (v / 2 ^ 22)) := h.root.load_pdePtr hv

theorem load_ptePtr (h : SelfMapped m dir) {v : Nat} (hv : v < 2 ^ 32)
    (hp : m.phys dir (v / 2 ^ 22) % 2 = 1) :
    m.load (ptePtr v) = .ok (m.phys (m.phys dir (v / 2 ^ 22) / 4096) (v / 4096 % 1024)) :=
  h.root.load_ptePtr hv hp

theorem store_ptePtr (h : SelfMapped m dir) {v : Nat} (hv : v < 2 ^ 32) (e : Nat)
    (hp : m.phys dir (v / 2 ^ 22) % 2 = 1) :
    m.store (ptePtr v) e =
      .ok (m.put (m.phys dir (v / 2 ^ 22) / 4096) (v / 4096 % 1024) e) :=
  h.root.store_ptePtr hv e hp

end SelfMapped

end ZhuOS
