import Mathlib.Data.Finset.Prod
import ZhuOS.DirDelete
import ZhuOS.Lib.Guarded

/-!
# A directory over many calls

As long as its entries fit into the direct blocks, the size of a directory counts its entries,
each block but the first holds one, and the bitmap marks its blocks.
-/

namespace ZhuOS

open ByteMem Slots

set_option maxRecDepth 2000

inductive DirCall
  | sync (name : List UInt8) (iNo fType : UInt32) (ioBuf : Bytes)
  | delete (inodeNo : Nat) (ioBuf : Bytes)

namespace DirCall

def exec (s : NodeState) : DirCall → Except Fault NodeState
  | .sync name iNo fType ioBuf => do
    let de ← createDirEntry name iNo fType
    let (_, s) ← syncDirEntry s de ioBuf
    return s
  | .delete inodeNo ioBuf => do
    let (_, s) ← deleteDirEntry s inodeNo ioBuf
    return s

/-- A name that is not the parent's, a number no other entry has, room in the direct blocks and a
free block. -/
def Fits (s : NodeState) : DirCall → Prop
  | .sync name iNo fType _ => FileName name ∧ name ≠ dotDot ∧
    (fType = FT_REGULAR ∨ fType = FT_DIRECTORY) ∧
    (∀ p ∈ dirGrid, ∀ e, slot s.disk s.inode p = some e → e.iNo ≠ iNo) ∧
    ¬ DirectFull s.disk s.inode 12 ∧ 0 < s.part.blockBitmap.free.card
  | .delete _ _ => True

def system : Guarded.System NodeState DirCall Fault := ⟨Fits, exec⟩

end DirCall

/-- The books of a directory in its direct blocks, beside the blocks of other owners. -/
structure DirBooks (others : Nat → Prop) (s : NodeState) : Prop extends
    OwnBlocks s.disk s.part s.inode where
  layout : DiskLayout s.part
  noTable : s.inode.iSectors 12 = 0
  numbers : KeyOnce dirGrid (slot s.disk s.inode) (·.iNo) DirEntry.Proper
  dot : ∃ j < 21, ∃ e, slot s.disk s.inode (0, j) = some e ∧ e.name = dot
  dotDot : Within dirGrid (slot s.disk s.inode) (·.name = dotDot) (·.1 = 0)
  size : s.inode.iSize.toNat = 24 * (occupied dirGrid (slot s.disk s.inode)).card
  held : ∀ k < 12, s.inode.iSectors k ≠ 0 → ∃ j < 21, ∃ e, slot s.disk s.inode (k, j) = some e
  marks : ∀ i < s.part.blockBitmap.size, s.part.blockBitmap.bit i = true ↔
    others i ∨ ∃ k < 12, s.inode.iSectors k ≠ 0 ∧ blockIdx s.part (s.inode.iSectors k) = i
  notOthers : ∀ k < 12, s.inode.iSectors k ≠ 0 → ¬ others (blockIdx s.part (s.inode.iSectors k))

section
variable {others : Nat → Prop} {s s' : NodeState} {p : Nat × Nat} {e de : DirEntry} {k : Nat}

theorem dirGrid_card : dirGrid.card = 2940 := by
  rw [dirGrid, Finset.card_product, Finset.card_range, Finset.card_range]

namespace DirBooks

theorem direct (h : DirBooks others s) (hp : slot s.disk s.inode p = some e)
    (hk : p.1 < 140) : p.1 < 12 := by
  by_contra hfar
  exact (slot_some.mp hp).1 (blockAt_noTable h.noTable (by omega))

theorem inUse_sector (h : DirBooks others s) (hk : k < 12) (hne : s.inode.iSectors k ≠ 0) :
    InUse s.part (s.inode.iSectors k) := by
  have hb : blockAt s.disk s.inode k = s.inode.iSectors k := blockAt_direct hk
  have huse := h.toOwnBlocks.inUse k (by omega)
  rw [hb] at huse
  exact huse hne

/-- The bit of a direct block is that of no other. -/
theorem idx_inj (h : DirBooks others s) {i : Nat} (hk : k < 12) (hi : i < 12)
    (hne : s.inode.iSectors k ≠ 0) (hne' : s.inode.iSectors i ≠ 0)
    (he : blockIdx s.part (s.inode.iSectors k) = blockIdx s.part (s.inode.iSectors i)) : k = i := by
  have hb : blockAt s.disk s.inode k = s.inode.iSectors k := blockAt_direct hk
  have hb' : blockAt s.disk s.inode i = s.inode.iSectors i := blockAt_direct hi
  have hsame := (h.inUse_sector hk hne).toDataBlock.idx_inj (h.inUse_sector hi hne').toDataBlock he
  apply h.apart k (by omega) i (by omega)
  · rwa [hb]
  · rw [hb, hb', hsame]

theorem shrink_size (h : DirBooks others s)
    (hc : Cleared dirGrid (slot s.disk s.inode) (slot s'.disk s'.inode) p e)
    (hsize : s'.inode.iSize = s.inode.iSize - 24) :
    s'.inode.iSize.toNat = 24 * (occupied dirGrid (slot s'.disk s'.inode)).card := by
  have hle := taken_le_size h.size.ge hc.mem hc.taken
  have hcard := hc.card
  have hold := h.size
  have h24 : (24 : UInt32).toNat = 24 := rfl
  rw [hsize, UInt32.toNat_sub_of_le _ _ hle, h24]
  omega

/-! ## An insertion -/

theorem fill_blocks (h : DirBooks others s) (hf : SlotFilled s s' p de) :
    (∀ k < 12, s'.inode.iSectors k ≠ 0 → ∃ j < 21, ∃ e, slot s'.disk s'.inode (k, j) = some e) ∧
    (∀ i < s'.part.blockBitmap.size, s'.part.blockBitmap.bit i = true ↔
      others i ∨ ∃ k < 12, s'.inode.iSectors k ≠ 0 ∧
        blockIdx s'.part (s'.inode.iSectors k) = i) ∧
    ∀ k < 12, s'.inode.iSectors k ≠ 0 → ¬ others (blockIdx s'.part (s'.inode.iSectors k)) := by
  have hheld : ∀ k < 12, s.inode.iSectors k ≠ 0 →
      ∃ j < 21, ∃ e, slot s'.disk s'.inode (k, j) = some e := by
    intro k hk hne
    obtain ⟨j, hj, e, he⟩ := h.held k hk hne
    exact ⟨j, hj, e, hf.put.keeps (pair_mem_dirGrid (by omega) hj) he⟩
  obtain ⟨hsectors, hpart⟩ | ⟨lba, disk, hz, hc, hsectors⟩ := hf.blocks
  · rw [hsectors, hpart]
    exact ⟨hheld, h.marks, h.notOthers⟩
  · have hnew : s'.inode.iSectors p.1 = lba := (hsectors p.1).trans (if_pos rfl)
    have hold : ∀ k, k ≠ p.1 → s'.inode.iSectors k = s.inode.iSectors k :=
      fun k hk => (hsectors k).trans (if_neg hk)
    have hfree := hc.free
    have hnone : ¬ others (blockIdx s.part lba) := by
      intro hother
      rw [(h.marks _ hc.block.inMap).mpr (.inl hother)] at hfree
      cases hfree
    refine ⟨?_, ?_, ?_⟩
    · intro k hk hne
      by_cases hkp : k = p.1
      · subst hkp
        exact ⟨p.2, (mem_dirGrid.mp hf.put.mem).2, de, hf.put.self⟩
      · rw [hold k hkp] at hne
        exact hheld k hk hne
    · intro i hi
      rw [hc.part_eq] at hi ⊢
      simp only [setBlock_bit, setBlock_blockIdx]
      by_cases hidx : i = blockIdx s.part lba
      · rw [if_pos hidx]
        refine ⟨fun _ => .inr ⟨p.1, hf.direct, ?_, ?_⟩, fun _ => rfl⟩
        · rw [hnew]
          exact hc.block.ne_zero h.layout
        · rw [hnew, hidx]
      · rw [if_neg hidx, h.marks i hi]
        apply or_congr_right
        constructor
        · rintro ⟨k, hk, hne, he⟩
          have hkp : k ≠ p.1 := by
            rintro rfl
            exact hne hz
          exact ⟨k, hk, by rwa [hold k hkp], by rwa [hold k hkp]⟩
        · rintro ⟨k, hk, hne, he⟩
          have hkp : k ≠ p.1 := by
            rintro rfl
            rw [hnew] at he
            exact hidx he.symm
          rw [hold k hkp] at hne he
          exact ⟨k, hk, hne, he⟩
    · intro k hk hne
      rw [hc.part_eq, setBlock_blockIdx]
      by_cases hkp : k = p.1
      · subst hkp
        rwa [hnew]
      · rw [hold k hkp] at hne ⊢
        exact h.notOthers k hk hne

theorem fill (h : DirBooks others s) (hf : SlotFilled s s' p de) (hl : DiskLayout s'.part)
    (hown : OwnBlocks s'.disk s'.part s'.inode) (hname : de.name ≠ ZhuOS.dotDot)
    (hno : ∀ p ∈ dirGrid, ∀ e, slot s.disk s.inode p = some e → e.iNo ≠ de.iNo) :
    DirBooks others s' := by
  obtain ⟨hheld, hmarks, hothers⟩ := h.fill_blocks hf
  refine ⟨hown, hl, ?_, ?_, ?_, ?_, ?_, hheld, hmarks, hothers⟩
  · obtain ⟨hsectors, -⟩ | ⟨lba, disk, -, -, hsectors⟩ := hf.blocks
    · rw [hsectors]
      exact h.noTable
    · have hfar := hf.direct
      rw [hsectors, if_neg (by omega)]
      exact h.noTable
  · exact hf.put.keyOnce h.numbers fun q hq b hb _ => hno q hq b hb
  · obtain ⟨j, hj, e, he, hdot⟩ := h.dot
    exact ⟨j, hj, e, hf.put.keeps (pair_mem_dirGrid (by decide) hj) he, hdot⟩
  · exact hf.put.within h.dotDot fun he => absurd he hname
  · have hcard := hf.put.card
    have hle : (occupied dirGrid (slot s'.disk s'.inode)).card ≤ dirGrid.card :=
      Finset.card_le_card (Finset.filter_subset ..)
    have hsize := h.size
    have h24 : (24 : UInt32).toNat = 24 := rfl
    rw [dirGrid_card] at hle
    rw [hf.size, UInt32.toNat_add, h24]
    omega

theorem sync (h : DirBooks others s) {name : List UInt8} {iNo fType : UInt32} {ioBuf : Bytes}
    (hfits : DirCall.Fits s (.sync name iNo fType ioBuf)) :
    ∃ s', DirCall.exec s (.sync name iNo fType ioBuf) = .ok s' ∧ DirBooks others s' := by
  obtain ⟨hn, hparent, htype, hno, hroom, hfree⟩ := hfits
  have hshort := hn.short
  have hcreate : createDirEntry name iNo fType =
      .ok { filename := fun i => name.getD i 0, iNo := iNo, fType := fType } := by
    rw [createDirEntry, ASSERT_true hshort.le]
    rfl
  obtain ⟨hname, hnumber, hft⟩ := createDirEntry_ok hn hcreate
  generalize DirEntry.mk .. = de at hcreate hname hnumber hft
  have hlive : de.stored.fType ≠ FT_UNKNOWN := by
    rw [hft]
    rcases htype with rfl | rfl
    · decide
    · decide
  have hsize : s.inode.iSize.toNat % 24 = 0 := by
    rw [h.size]
    exact Nat.mul_mod_right ..
  have hdirect := h.toOwnBlocks.readable.direct
  obtain ⟨s', hrun⟩ : ∃ s', syncDirEntry s de ioBuf = .ok (true, s') :=
    syncDirEntry_room h.layout hfree hdirect hsize hroom ioBuf
  have hins := syncDirEntry_inserted h.layout hdirect hrun
  obtain ⟨p, hf⟩ := hins.filled h.layout h.toOwnBlocks hroom hlive
  refine ⟨s', ?_, ?_⟩
  · simp only [DirCall.exec, hcreate, hrun, ok_bind]
    rfl
  · apply h.fill hf (hins.layout h.layout) (hins.own h.layout h.toOwnBlocks)
    · rwa [hname]
    · rwa [hnumber]

/-! ## A deletion -/

/-- Where an entry is cleared and its block is not given up, something is left in it. -/
theorem held_clear (h : DirBooks others s) (hproper : e.Proper)
    (hc : Cleared dirGrid (slot s.disk s.inode) (slot s'.disk s'.inode) p e)
    (hmore : ¬ Lone s.disk s.inode p) (hk : k < 12) (hne : s.inode.iSectors k ≠ 0) :
    ∃ j < 21, ∃ a, slot s'.disk s'.inode (k, j) = some a := by
  by_contra hnone
  have hgone : ∀ j < 21, ∀ a, slot s.disk s.inode (k, j) = some a → (k, j) = p := by
    intro j hj a ha
    by_contra hjp
    exact hnone ⟨j, hj, a, hc.keeps (pair_mem_dirGrid (by omega) hj) hjp ha⟩
  obtain ⟨j, hj, a, ha⟩ := h.held k hk hne
  obtain rfl := hgone j hj a ha
  apply hmore
  constructor
  · intro x hx b hb _
    exact congrArg Prod.snd (hgone x hx b hb)
  · intro x hx b hb hdot
    have hxj : x = j := congrArg Prod.snd (hgone x hx b hb)
    subst hxj
    have hbe : b = e := Option.some.inj (hb.symm.trans hc.taken)
    exact hproper.1 (hbe ▸ hdot)

theorem clear (h : DirBooks others s) (hp : p ∈ dirGrid)
    (hslot : slot s.disk s.inode p = some e) (hproper : e.Proper)
    (hmore : ¬ Lone s.disk s.inode p) : DirBooks others (s.clearSlot p) := by
  obtain ⟨hne, -, -⟩ := slot_some.mp hslot
  have hc := clearSlot_cleared h.layout h.toOwnBlocks hp hslot
  refine ⟨clearSlot_own h.layout h.toOwnBlocks hp hne, h.layout, h.noTable,
    hc.keyOnce h.numbers, ?_, hc.within h.dotDot, ?_, fun k => h.held_clear hproper hc hmore,
    h.marks, h.notOthers⟩
  · obtain ⟨j, hj, a, ha, hdot⟩ := h.dot
    refine ⟨j, hj, a, hc.keeps (pair_mem_dirGrid (by decide) hj) ?_ ha, hdot⟩
    rintro rfl
    rw [hslot] at ha
    exact hproper.1 (Option.some.inj ha ▸ hdot)
  · exact shrink_size h hc rfl

theorem drop (h : DirBooks others s) (hp : p ∈ dirGrid)
    (hslot : slot s.disk s.inode p = some e) (hlone : Lone s.disk s.inode p) :
    DirBooks others (s.dropBlock p.1) := by
  obtain ⟨hpk, hpj⟩ := mem_dirGrid.mp hp
  have hk := h.direct hslot hpk
  obtain ⟨hne, -, -⟩ := slot_some.mp hslot
  have hdir : blockAt s.disk s.inode p.1 = s.inode.iSectors p.1 := blockAt_direct hk
  have hblock := h.toOwnBlocks.inUse p.1 hpk hne
  have hz : p.1 ≠ 0 := by
    intro hz
    obtain ⟨j, hj, a, ha, hdot⟩ := h.dot
    rw [← hz] at ha
    exact hlone.noDot j hj a ha hdot
  have hparent : ∀ j < 21, ∀ a, slot s.disk s.inode (p.1, j) = some a →
      a.name ≠ ZhuOS.dotDot := by
    intro j hj a ha hname
    have hfirst : (p.1, j).1 = 0 := h.dotDot _ (pair_mem_dirGrid hpk hj) a ha hname
    exact hz hfirst
  have hc := dropBlock_cleared h.layout h.toOwnBlocks hp hk hslot hlone hparent
  have hmax := hblock.onDisk
  have haddr := hblock.addr
  have hl' : DiskLayout (s.dropBlock p.1).part := h.layout.setBlock fun _ => by omega
  have hgone : (s.dropBlock p.1).inode.iSectors p.1 = 0 := setSector_self ..
  have hstays : ∀ k, k ≠ p.1 → (s.dropBlock p.1).inode.iSectors k = s.inode.iSectors k :=
    fun k hkp => setSector_other hkp
  have hkeeps : ∀ k, (s.dropBlock p.1).inode.iSectors k ≠ 0 →
      k ≠ p.1 ∧ s.inode.iSectors k ≠ 0 ∧
        (s.dropBlock p.1).inode.iSectors k = s.inode.iSectors k := by
    intro k hk'
    have hkp : k ≠ p.1 := by
      rintro rfl
      exact hk' hgone
    rw [hstays k hkp] at hk'
    exact ⟨hkp, hk', hstays k hkp⟩
  refine ⟨dropBlock_own h.layout h.toOwnBlocks hk hne, hl', ?_, hc.keyOnce h.numbers, ?_,
    hc.within h.dotDot, shrink_size h hc rfl, ?_, ?_, ?_⟩
  · rw [hstays 12 (by omega)]
    exact h.noTable
  · obtain ⟨j, hj, a, ha, hdot⟩ := h.dot
    refine ⟨j, hj, a, hc.keeps (pair_mem_dirGrid (by decide) hj) ?_ ha, hdot⟩
    rintro rfl
    exact hz rfl
  · intro k hk' hne'
    obtain ⟨hkp, hold, -⟩ := hkeeps k hne'
    obtain ⟨j, hj, a, ha⟩ := h.held k hk' hold
    refine ⟨j, hj, a, hc.keeps (pair_mem_dirGrid (by omega) hj) ?_ ha⟩
    rintro rfl
    exact hkp rfl
  · intro i hi
    have hbit : (s.dropBlock p.1).part.blockBitmap.bit i =
        if i = blockIdx s.part (blockAt s.disk s.inode p.1) then false
        else s.part.blockBitmap.bit i := setBlock_bit ..
    have hidx : ∀ a, blockIdx (s.dropBlock p.1).part a = blockIdx s.part a := fun _ => rfl
    simp only [hidx]
    rw [hbit, hdir]
    by_cases hi' : i = blockIdx s.part (s.inode.iSectors p.1)
    · rw [if_pos hi']
      refine ⟨(nomatch ·), ?_⟩
      rintro (hother | ⟨k, hk', hne', he⟩)
      · exact absurd (hi' ▸ hother) (h.notOthers p.1 hk (hdir ▸ hne))
      · obtain ⟨hkp, hold, hsame⟩ := hkeeps k hne'
        rw [hsame] at he
        exact absurd (h.idx_inj hk' hk hold (hdir ▸ hne) (he.trans hi')) hkp
    · rw [if_neg hi', h.marks i hi]
      apply or_congr_right
      constructor
      · rintro ⟨k, hk', hne', he⟩
        have hkp : k ≠ p.1 := by
          rintro rfl
          exact hi' he.symm
        exact ⟨k, hk', by rwa [hstays k hkp], by rwa [hstays k hkp]⟩
      · rintro ⟨k, hk', hne', he⟩
        obtain ⟨-, hold, hsame⟩ := hkeeps k hne'
        rw [hsame] at he
        exact ⟨k, hk', hold, he⟩
  · intro k hk' hne'
    obtain ⟨-, hold, hsame⟩ := hkeeps k hne'
    rw [hsame]
    exact h.notOthers k hk' hold

theorem delete (h : DirBooks others s) (inodeNo : Nat) (ioBuf : Bytes) :
    ∃ s', DirCall.exec s (.delete inodeNo ioBuf) = .ok s' ∧ DirBooks others s' := by
  by_cases hexists : ∃ p ∈ dirGrid, ∃ e, slot s.disk s.inode p = some e ∧ e.Proper ∧
      e.iNo.toNat = inodeNo
  · obtain ⟨p, hp, e, hslot, hproper, rfl⟩ := hexists
    have hdel := deleteDirEntry_found h.layout h.toOwnBlocks h.numbers hp hslot hproper
      (taken_le_size h.size.ge hp hslot) ioBuf
    have hrun : DirCall.exec s (.delete e.iNo.toNat ioBuf) =
        (deleteDirEntry s e.iNo.toNat ioBuf).map Prod.snd := by
      rw [DirCall.exec]
      cases deleteDirEntry s e.iNo.toNat ioBuf with
      | error f => rfl
      | ok found => rfl
    rw [hrun]
    generalize deleteDirEntry s e.iNo.toNat ioBuf = result at hdel ⊢
    cases hdel with
    | clear hmore => exact ⟨_, rfl, h.clear hp hslot hproper hmore⟩
    | drop hlone hk => exact ⟨_, rfl, h.drop hp hslot hlone⟩
    | stuck hlone hk =>
      have hlow := h.direct hslot (mem_dirGrid.mp hp).1
      omega
  · have habsent : ∀ q ∈ dirGrid, ∀ e, slot s.disk s.inode q = some e → e.Proper →
        e.iNo.toNat ≠ inodeNo :=
      fun q hq e he hproper hn => hexists ⟨q, hq, e, he, hproper, hn⟩
    have hrun : deleteDirEntry s inodeNo ioBuf = .ok (false, s) :=
      deleteDirEntry_absent h.layout h.toOwnBlocks.readable h.numbers habsent
    refine ⟨s, ?_, h⟩
    simp only [DirCall.exec, hrun, ok_bind]
    rfl

end DirBooks

/-! ## Runs -/

theorem dirBooks_kept (others : Nat → Prop) :
    Guarded.Keeps DirCall.system (DirBooks others) := by
  intro s e h hfits
  cases e with
  | sync name iNo fType ioBuf => exact h.sync hfits
  | delete inodeNo ioBuf => exact h.delete inodeNo ioBuf

/-- After every call the books are right, and the next call returns. -/
theorem dirBooks_run {calls : List DirCall} (h : DirBooks others s)
    (hrun : Guarded.Run DirCall.system s calls s') :
    DirBooks others s' ∧ ∀ call, DirCall.Fits s' call → ∃ s'', DirCall.exec s' call = .ok s'' :=
  ⟨hrun.invariant (dirBooks_kept others) h, fun _ => hrun.safe (dirBooks_kept others) h⟩

/-- A new directory: `.` and `..` in its only block. -/
structure DirStarts (s : NodeState) : Prop where
  layout : DiskLayout s.part
  block : InUse s.part (s.inode.iSectors 0)
  rest : ∀ k, 0 < k → k < 13 → s.inode.iSectors k = 0
  size : s.inode.iSize = 48
  dot : ∃ e, slot s.disk s.inode (0, 0) = some e ∧ e.name = dot
  dotDot : ∃ e, slot s.disk s.inode (0, 1) = some e ∧ e.name = dotDot
  free : ∀ j, 2 ≤ j → j < 21 → slot s.disk s.inode (0, j) = none

namespace DirStarts

theorem blockAt_eq (h : DirStarts s) (hne : blockAt s.disk s.inode k ≠ 0) :
    k = 0 ∧ blockAt s.disk s.inode k = s.inode.iSectors 0 := by
  have hk : k = 0 := by
    by_contra hk
    apply hne
    by_cases hlow : k < 12
    · rw [blockAt_direct hlow]
      exact h.rest k (by omega) (by omega)
    · exact blockAt_noTable (h.rest 12 (by decide) (by decide)) (by omega)
  subst hk
  exact ⟨rfl, blockAt_direct (by decide)⟩

theorem own (h : DirStarts s) : OwnBlocks s.disk s.part s.inode := by
  have h12 := h.rest 12 (by decide) (by decide)
  constructor
  · intro k _ hne
    rw [(h.blockAt_eq hne).2]
    exact h.block
  · intro hne
    exact absurd h12 hne
  · intro k _ i _ hne he
    obtain ⟨rfl, -⟩ := h.blockAt_eq hne
    exact (h.blockAt_eq (he ▸ hne)).1.symm
  · intro k _ hne
    rwa [h12]

theorem slot_cases (h : DirStarts s) (hp : p ∈ dirGrid) (hslot : slot s.disk s.inode p = some e) :
    p = (0, 0) ∧ e.name = ZhuOS.dot ∨ p = (0, 1) ∧ e.name = ZhuOS.dotDot := by
  obtain ⟨k, j⟩ := p
  obtain ⟨-, hj⟩ : k < 140 ∧ j < 21 := mem_dirGrid.mp hp
  obtain ⟨rfl, -⟩ := h.blockAt_eq (slot_some.mp hslot).1
  obtain ⟨a, ha, hdot⟩ := h.dot
  obtain ⟨b, hb, hdotDot⟩ := h.dotDot
  obtain rfl | rfl | hj' : j = 0 ∨ j = 1 ∨ 2 ≤ j := by omega
  · rw [ha] at hslot
    exact .inl ⟨rfl, Option.some.inj hslot ▸ hdot⟩
  · rw [hb] at hslot
    exact .inr ⟨rfl, Option.some.inj hslot ▸ hdotDot⟩
  · rw [h.free j hj' hj] at hslot
    cases hslot

theorem occupied_eq (h : DirStarts s) :
    occupied dirGrid (slot s.disk s.inode) = {(0, 0), (0, 1)} := by
  ext p
  rw [mem_occupied, Finset.mem_insert, Finset.mem_singleton]
  constructor
  · rintro ⟨hp, e, he⟩
    exact (h.slot_cases hp he).imp And.left And.left
  · rintro (rfl | rfl)
    · obtain ⟨e, he, -⟩ := h.dot
      exact ⟨pair_mem_dirGrid (by decide) (by decide), e, he⟩
    · obtain ⟨e, he, -⟩ := h.dotDot
      exact ⟨pair_mem_dirGrid (by decide) (by decide), e, he⟩

/-- The other owners' blocks are the rest of those in use. -/
theorem books (h : DirStarts s) : DirBooks (fun i => s.part.blockBitmap.bit i = true ∧
    i ≠ blockIdx s.part (s.inode.iSectors 0)) s := by
  have hsector : ∀ k < 12, s.inode.iSectors k ≠ 0 → k = 0 := by
    intro k hk hne
    by_contra hz
    exact hne (h.rest k (by omega) (by omega))
  refine ⟨h.own, h.layout, h.rest 12 (by decide) (by decide), ?_, ?_, ?_, ?_, ?_, ?_, ?_⟩
  · intro p hp q hq a b ha _ hproper _ _
    rcases h.slot_cases hp ha with ⟨-, hname⟩ | ⟨-, hname⟩
    · exact absurd hname hproper.1
    · exact absurd hname hproper.2
  · obtain ⟨e, he, hname⟩ := h.dot
    exact ⟨0, by decide, e, he, hname⟩
  · intro p hp a ha _
    rcases h.slot_cases hp ha with ⟨rfl, -⟩ | ⟨rfl, -⟩
    · rfl
    · rfl
  · rw [h.size, h.occupied_eq]
    decide
  · intro k hk hne
    obtain rfl := hsector k hk hne
    obtain ⟨e, he, -⟩ := h.dot
    exact ⟨0, by decide, e, he⟩
  · intro i _
    constructor
    · intro hbit
      by_cases hi : i = blockIdx s.part (s.inode.iSectors 0)
      · exact .inr ⟨0, by decide, h.block.ne_zero h.layout, hi.symm⟩
      · exact .inl ⟨hbit, hi⟩
    · rintro (⟨hbit, -⟩ | ⟨k, hk, hne, rfl⟩)
      · exact hbit
      · obtain rfl := hsector k hk hne
        exact h.block.marked
  · rintro k hk hne ⟨-, hother⟩
    obtain rfl := hsector k hk hne
    exact hother rfl

end DirStarts

end

/-- A new directory in block 613. -/
def dotsDisk : Bytes := fun a =>
  if a = 613 * 512 ∨ a = 613 * 512 + 24 ∨ a = 613 * 512 + 25 then 46
  else if a = 613 * 512 + 20 ∨ a = 613 * 512 + 44 then 2
  else 0

def dotsDir : NodeState where
  disk := dotsDisk
  part := { tablePartition with blockBitmap := ⟨512, fun i => if i = 0 then 3 else 0⟩ }
  inode := { inodeInit 0 with iSize := 48, iSectors := fun k => if k = 0 then 613 else 0 }

theorem dotsDir_layout : DiskLayout dotsDir.part where
  blockMapLen := rfl
  inodeMapLen := rfl
  blockMap := by decide
  inodeMap := by decide
  table := by decide
  onDisk := by decide
  inPart := by decide
  blocks i hi _ := by
    have hi : i < 4096 := hi
    have hstart : dotsDir.part.sb.dataStartLba.toNat = 612 := rfl
    unfold max_lba
    omega
  entrySize := rfl

theorem dotsDir_starts : DirStarts dotsDir where
  layout := dotsDir_layout
  block := ⟨⟨by decide, by decide, by decide⟩, by decide⟩
  rest k hk _ := if_neg (by omega)
  size := rfl
  dot := by
    have hdot : (slot dotsDir.disk dotsDir.inode (0, 0)).any (fun e => decide (e.name = dot)) =
        true := by
      decide +kernel
    obtain ⟨e, he, hname⟩ := (Option.any_eq_true ..).mp hdot
    exact ⟨e, he, of_decide_eq_true hname⟩
  dotDot := by
    have hdotDot : (slot dotsDir.disk dotsDir.inode (0, 1)).any
        (fun e => decide (e.name = dotDot)) = true := by
      decide +kernel
    obtain ⟨e, he, hname⟩ := (Option.any_eq_true ..).mp hdotDot
    exact ⟨e, he, of_decide_eq_true hname⟩
  free j hj hj' := by
    have hnone : ∀ j < 21, 2 ≤ j → (slot dotsDir.disk dotsDir.inode (0, j)).isNone := by
      decide +kernel
    exact Option.isNone_iff_eq_none.mp (hnone j hj' hj)

theorem dotsDir_fits : DirCall.Fits dotsDir (.sync [102] 5 FT_REGULAR fun _ => 0) := by
  refine ⟨⟨by decide, by decide, by decide⟩, by decide, .inl rfl, ?_, ?_, ?_⟩
  · have hno : ∀ p ∈ [(0, 0), (0, 1)], ∀ e ∈ slot dotsDir.disk dotsDir.inode p, e.iNo ≠ 5 := by
      decide +kernel
    intro p hp e he
    rcases dotsDir_starts.slot_cases hp he with ⟨rfl, -⟩ | ⟨rfl, -⟩
    · exact hno _ (by decide) e he
    · exact hno _ (by decide) e he
  · intro hfull
    exact (hfull 1 (by decide)).1 rfl
  · exact Bitmap.free_pos.mpr ⟨5, by decide, by decide⟩

/-- An entry comes and goes. -/
theorem dirBooks_run_file : ∃ s', Guarded.Run DirCall.system dotsDir
    [.sync [102] 5 FT_REGULAR fun _ => 0, .delete 5 fun _ => 0] s' ∧
    DirBooks (fun i => dotsDir.part.blockBitmap.bit i = true ∧
      i ≠ blockIdx dotsDir.part (dotsDir.inode.iSectors 0)) s' := by
  obtain ⟨s₁, hsync, h₁⟩ := dotsDir_starts.books.sync dotsDir_fits
  obtain ⟨s₂, hdelete, -⟩ := h₁.delete 5 fun _ => 0
  have hrun : Guarded.Run DirCall.system dotsDir
      [.sync [102] 5 FT_REGULAR fun _ => 0, .delete 5 fun _ => 0] s₂ :=
    .cons dotsDir_fits hsync (.cons trivial hdelete (.nil s₂))
  exact ⟨s₂, hrun, (dirBooks_run dotsDir_starts.books hrun).1⟩

end ZhuOS
