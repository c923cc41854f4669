import ZhuOS.Deletions
import ZhuOS.SoundFile

/-!
# One number less

The entry of a file is deleted, and the file is released. The file system stays sound.
-/

namespace ZhuOS

open ByteMem Slots

set_option maxRecDepth 2000

variable {fs fs' : Fs} {dirs files : Nat → Prop} {s s' : NodeState} {e : DirEntry}
  {q : Nat × Nat} {n m p : Nat} {a : UInt32} {nd : Inode}

/-! ## The directory without the entry -/

/-- A directory has lost an entry, and with the last one of a block the block. -/
structure Empties (s s' : NodeState) : Prop where
  shape : DirShape s'.disk s'.inode
  first : s'.inode.iSectors 0 = s.inode.iSectors 0
  had : ∀ a, HasBlock s'.disk s'.inode a → HasBlock s.disk s.inode a
  keeps : ∀ a, InUse s.part a → ¬ HasBlock s.disk s.inode a → InUse s'.part a
  marks : ∀ i, s'.part.blockBitmap.bit i = true → s.part.blockBitmap.bit i = true ∧
    ∀ a, HasBlock s.disk s.inode a → blockIdx s.part a = i → HasBlock s'.disk s'.inode a

namespace DirShape

variable (h : DirShape s.disk s.inode)
include h

/-- `.` and `..` lie in the first block. -/
theorem dots_first {name : List UInt8} (hname : name = dot ∨ name = dotDot) (hq : q ∈ dirGrid)
    (hslot : slot s.disk s.inode q = some e) (hen : e.name = name) : q.1 = 0 := by
  obtain ⟨j, hj, e', he', hen'⟩ := h.dots name hname
  have hsame := h.once q hq (0, j) (pair_mem_dirGrid (by decide) hj) e e' hslot he' trivial trivial
    (hen.trans hen'.symm)
  exact congrArg Prod.fst hsame

theorem lone_ne (hlone : Lone s.disk s.inode q) : q.1 ≠ 0 := by
  intro hz
  obtain ⟨j, hj, e', he', hname⟩ := h.dots dot (.inl rfl)
  rw [← hz] at he'
  exact hlone.noDot j hj e' he' hname

theorem emptied (hproper : e.Proper) (hdel : Deletes s s' q e) (hnamed : Named s'.disk s'.inode)
    (htable : s'.inode.iSectors 12 = 0)
    (hheld : ∀ k < 12, k ≠ 0 → s'.inode.iSectors k ≠ 0 → HoldsEntry s'.disk s'.inode k) :
    DirShape s'.disk s'.inode where
  toNamed := hnamed
  noTable := htable
  named r hr e' he' := h.named r hr e' (hdel.cleared.cases hr he').2
  dots name hname := by
    obtain ⟨j, hj, e', he', hen⟩ := h.dots name hname
    refine ⟨j, hj, e', hdel.cleared.keeps (pair_mem_dirGrid (by decide) hj) ?_ he', hen⟩
    rintro rfl
    rw [hdel.cleared.taken] at he'
    cases he'
    obtain rfl | rfl := hname
    · exact hproper.1 hen
    · exact hproper.2 hen
  size := by
    have hcard := hdel.cleared.card
    have hsize := h.size
    have h24 : (24 : UInt32).toNat = 24 := rfl
    have hle : (24 : UInt32) ≤ s.inode.iSize := by
      rw [UInt32.le_iff_toNat_le]
      omega
    rw [hdel.size, UInt32.toNat_sub_of_le _ _ hle]
    omega
  held := hheld

variable (hl : DiskLayout s.part) (hown : OwnBlocks s.disk s.part s.inode) (hq : q ∈ dirGrid)
  (hslot : slot s.disk s.inode q = some e) (hproper : e.Proper)
include hl hown hq hslot hproper

/-- Another entry stays in the block. -/
theorem clearSlot_empties (hmore : ¬ Lone s.disk s.inode q) : Empties s (s.clearSlot q) := by
  have hne := (slot_some.mp hslot).1
  have hdel := clearSlot_deletes hl hown hq hslot
  have hblocks := clearSlot_blocks hl hown hq hne
  have hhas : ∀ a, HasBlock (s.clearSlot q).disk (s.clearSlot q).inode a ↔
      HasBlock s.disk s.inode a := by
    intro a
    rw [HasBlock, HasBlock, hblocks]
    exact Iff.rfl
  refine ⟨h.emptied hproper hdel (h.toNamed.cleared hdel.cleared
    (clearSlot_leaves hl hown hq hne)) h.noTable ?_, rfl, fun a ha => (hhas a).mp ha,
    fun a ha _ => ha, fun i hi => ⟨hi, fun a ha _ => (hhas a).mpr ha⟩⟩
  intro k hk hk0 hsector
  obtain ⟨j, hj, e', he', hproper'⟩ := h.held k hk hk0 hsector
  by_cases hkq : (k, j) = q
  · subst hkq
    by_contra hnone
    refine hmore ⟨fun x hx b hb hb' => ?_, fun x hx b hb hdot => ?_⟩
    · by_contra hxj
      have hkept := hdel.cleared.keeps (pair_mem_dirGrid (by omega) hx)
        (fun he => hxj (congrArg Prod.snd he)) hb
      exact hnone ⟨x, hx, b, hkept, hb'⟩
    · exact hk0 (h.dots_first (.inl rfl) (pair_mem_dirGrid (by omega) hx) hb hdot)
  · exact ⟨j, hj, e', hdel.cleared.keeps (pair_mem_dirGrid (by omega) hj) hkq he', hproper'⟩

/-- The block goes with its last entry. -/
theorem dropBlock_empties (hlone : Lone s.disk s.inode q) :
    Deletes s (s.dropBlock q.1) q e ∧ Empties s (s.dropBlock q.1) := by
  have hne := (slot_some.mp hslot).1
  have hk := h.direct hslot
  have hq0 := h.lone_ne hlone
  have hblock := hown.inUse q.1 (by omega) hne
  have hdel : Deletes s (s.dropBlock q.1) q e := by
    refine dropBlock_deletes hl hown hq hk hslot hlone fun j hj b hb hdots => ?_
    have hz : (q.1, j).1 = 0 := h.dots_first (.inr rfl) (pair_mem_dirGrid (by omega) hj) hb hdots
    exact hq0 hz
  have hsectors : ∀ k, (s.dropBlock q.1).inode.iSectors k =
      if k = q.1 then 0 else s.inode.iSectors k := by
    intro k
    by_cases hkq : k = q.1
    · rw [if_pos hkq, hkq]
      exact setSector_self ..
    · rw [if_neg hkq]
      exact setSector_other hkq
  have htable : (s.dropBlock q.1).inode.iSectors 12 = 0 := by
    rw [hsectors, if_neg (by omega)]
    exact h.noTable
  have hlast : blockAt s.disk s.inode q.1 = s.inode.iSectors q.1 := blockAt_direct hk
  have hhas : ∀ a, HasBlock (s.dropBlock q.1).disk (s.dropBlock q.1).inode a ↔
      HasBlock s.disk s.inode a ∧ a ≠ blockAt s.disk s.inode q.1 := by
    intro a
    rw [hasBlock_direct htable, hasBlock_direct h.noTable]
    constructor
    · rintro ⟨ha, k, hk', rfl⟩
      rw [hsectors] at ha ⊢
      by_cases hkq : k = q.1
      · rw [if_pos hkq] at ha
        exact absurd rfl ha
      · rw [if_neg hkq] at ha ⊢
        refine ⟨⟨ha, k, hk', rfl⟩, fun he => hkq ?_⟩
        rw [← blockAt_direct hk'] at ha he
        exact hown.apart k (by omega) q.1 (by omega) ha he
    · rintro ⟨⟨ha, k, hk', rfl⟩, hother⟩
      have hkq : k ≠ q.1 := by
        rintro rfl
        exact hother hlast.symm
      exact ⟨ha, k, hk', by rw [hsectors, if_neg hkq]⟩
  refine ⟨hdel, h.emptied hproper hdel (h.toNamed.cleared hdel.cleared
    (dropBlock_leaves hl hown hk hne)) htable ?_, ?_, fun a ha => ((hhas a).mp ha).1, ?_, ?_⟩
  · intro k hk' hk0 hsector
    have hkq : k ≠ q.1 := by
      rintro rfl
      rw [hsectors, if_pos rfl] at hsector
      exact hsector rfl
    rw [hsectors, if_neg hkq] at hsector
    obtain ⟨j, hj, e', he', hproper'⟩ := h.held k hk' hk0 hsector
    exact ⟨j, hj, e', hdel.cleared.keeps (pair_mem_dirGrid (by omega) hj)
      (fun he => hkq (congrArg Prod.fst he)) he', hproper'⟩
  · rw [hsectors, if_neg hq0.symm]
  · intro a ha hother
    have hidx : blockIdx s.part a ≠ blockIdx s.part (blockAt s.disk s.inode q.1) := by
      intro he
      have hsame := ha.toDataBlock.idx_inj hblock.toDataBlock he
      exact hother (hsame ▸ ⟨hne, .inr ⟨q.1, by omega, rfl⟩⟩)
    refine ⟨ha.toDataBlock.setBlock _ false, ?_⟩
    exact (setBlock_bit ..).trans ((if_neg hidx).trans ha.marked)
  · intro i hi
    have hi : (s.part.setBlock (blockIdx s.part (blockAt s.disk s.inode q.1)) false).blockBitmap.bit
        i = true := hi
    rw [setBlock_bit] at hi
    by_cases hiq : i = blockIdx s.part (blockAt s.disk s.inode q.1)
    · rw [if_pos hiq] at hi
      cases hi
    · rw [if_neg hiq] at hi
      refine ⟨hi, fun a ha hidx => (hhas a).mpr ⟨ha, fun he => hiq ?_⟩⟩
      rw [← hidx, he]

/-- An entry is deleted, with its block when it is the last. -/
theorem deletes (hone : KeyOnce dirGrid (slot s.disk s.inode) (·.iNo) DirEntry.Proper)
    (ioBuf : Bytes) : ∃ s', deleteDirEntry s e.iNo.toNat ioBuf = .ok (true, s') ∧
      Deletes s s' q e ∧ Empties s s' := by
  have hrun := deleteDirEntry_found hl hown hone hq hslot hproper
    (taken_le_size h.size.ge hq hslot) ioBuf
  generalize deleteDirEntry s e.iNo.toNat ioBuf = r at hrun
  cases hrun with
  | clear hmore =>
    exact ⟨_, rfl, clearSlot_deletes hl hown hq hslot,
      h.clearSlot_empties hl hown hq hslot hproper hmore⟩
  | drop hlone hk => exact ⟨_, rfl, h.dropBlock_empties hl hown hq hslot hproper hlone⟩
  | stuck hlone hk =>
    have hdirect := h.direct hslot
    omega

end DirShape

/-! ## The number that is gone -/

/-- `files` without the number `n`. -/
def without (files : Nat → Prop) (n m : Nat) : Prop := files m ∧ m ≠ n

/-- The file `n` is gone, with its entry `e` in the slot `q` of `p`, which has become `nd`. -/
structure Loses (fs fs' : Fs) (dirs files : Nat → Prop) (p n : Nat) (q : Nat × Nat) (e : DirEntry)
    (nd : Inode) : Prop where
  around : Around fs fs' p nd (without (fun m => dirs m ∨ files m) n)
  isDir : dirs p
  isFile : files n
  proper : e.Proper
  entryNo : e.iNo.toNat = n
  cleared : Cleared dirGrid (slot fs.disk (diskInode fs.disk fs.part p))
    (slot fs'.disk (diskInode fs'.disk fs'.part p)) q e
  shape : DirShape fs'.disk (diskInode fs'.disk fs'.part p)
  own : OwnBlocks fs'.disk fs'.part (diskInode fs'.disk fs'.part p)
  first : (diskInode fs'.disk fs'.part p).iSectors 0 = (diskInode fs.disk fs.part p).iSectors 0
  had : ∀ a, HasBlock fs'.disk (diskInode fs'.disk fs'.part p) a →
    HasBlock fs.disk (diskInode fs.disk fs.part p) a
  inodeBitmap : fs'.part.inodeBitmap = bitmapSet fs.part.inodeBitmap n false
  size : fs'.part.blockBitmap.size = fs.part.blockBitmap.size
  marks : ∀ i, fs'.part.blockBitmap.bit i = true → fs.part.blockBitmap.bit i = true ∧
    (∀ a, HasBlock fs.disk (diskInode fs.disk fs.part p) a → blockIdx fs.part a = i →
      HasBlock fs'.disk (diskInode fs'.disk fs'.part p) a) ∧
    ∀ a, HasBlock fs.disk (diskInode fs.disk fs.part n) a → blockIdx fs.part a ≠ i

namespace Loses

variable (g : Loses fs fs' dirs files p n q e nd)
include g

theorem entry_lies : LiesIn fs p q e := ⟨g.cleared.mem, g.cleared.taken⟩

/-- The blocks of a number that is still in use. -/
theorem had_block (hm : without (fun m => dirs m ∨ files m) n m)
    (ha : HasBlock fs'.disk (diskInode fs'.disk fs'.part m) a) :
    HasBlock fs.disk (diskInode fs.disk fs.part m) a := by
  by_cases hp : m = p
  · subst hp
    exact g.had a ha
  · exact (g.around.moved hm hp).holds.mp ha

variable (h : SoundFs fs dirs files)
include h

theorem kept_dir (hm : dirs m) : without (fun m => dirs m ∨ files m) n m := by
  refine ⟨.inl hm, ?_⟩
  rintro rfl
  exact h.kinds m hm g.isFile

theorem ne_parent (hm : files m) : m ≠ p := fun he => h.kinds p g.isDir (he ▸ hm)

/-- What lies in a directory lay there, in a slot that was not cleared. -/
theorem lay (hm : dirs m) {r : Nat × Nat} {e' : DirEntry} (he : LiesIn fs' m r e') :
    LiesIn fs m r e' ∧ ¬ (m = p ∧ r = q) := by
  by_cases hp : m = p
  · subst hp
    obtain ⟨hrq, hold⟩ := g.cleared.cases he.1 he.2
    exact ⟨⟨he.1, hold⟩, fun hboth => hrq hboth.2⟩
  · exact ⟨(g.around.liesIn (g.kept_dir h hm) hp).mp he, fun hboth => hp hboth.1⟩

theorem lies_still (hm : dirs m) {r : Nat × Nat} {e' : DirEntry} (he : LiesIn fs m r e')
    (hother : ¬ (m = p ∧ r = q)) : LiesIn fs' m r e' := by
  by_cases hp : m = p
  · subst hp
    exact ⟨he.1, g.cleared.keeps he.1 (fun hrq => hother ⟨rfl, hrq⟩) he.2⟩
  · exact (g.around.liesIn (g.kept_dir h hm) hp).mpr he

/-- One entry led to the number. -/
theorem led {r : Nat × Nat} {e' : DirEntry} (hm : dirs m) (he : LiesIn fs m r e')
    (hproper : e'.Proper) (hno : e'.iNo.toNat = n) : m = p ∧ r = q ∧ e' = e := by
  have hsame : e'.iNo = e.iNo := UInt32.toNat_inj.mp (hno.trans g.entryNo.symm)
  obtain ⟨rfl, rfl⟩ := h.once m p r q e' e hm g.isDir he g.entry_lies hproper g.proper hsame
  have hslot := he.2
  rw [g.cleared.taken] at hslot
  exact ⟨rfl, rfl, (Option.some.inj hslot).symm⟩

theorem sound : SoundFs fs' dirs (without files n) where
  layout := g.around.layout
  heap := g.around.heap
  blockMap := g.around.blockMap
  inodeMap := g.around.inodeMap
  root := h.root
  rootBlock := by
    rw [g.around.sb]
    by_cases hp : 0 = p
    · have hfirst := g.first
      rw [← hp] at hfirst
      rw [hfirst]
      exact h.rootBlock
    · rw [g.around.record 0 (g.kept_dir h h.root) hp]
      exact h.rootBlock
  kinds m hdir hfile := h.kinds m hdir hfile.1
  numbers m hm := by
    rw [g.inodeBitmap] at hm ⊢
    rw [bitmapSet_bit]
    by_cases hmn : m = n
    · rw [if_pos hmn]
      constructor
      · intro hset
        cases hset
      · rintro (hdir | hfile)
        · exact absurd hmn (g.kept_dir h hdir).2
        · exact absurd hmn hfile.2
    · rw [if_neg hmn, h.numbers m hm]
      exact or_congr_right ⟨fun hfile => ⟨hfile, hmn⟩, fun hfile => hfile.1⟩
  low m hm := by
    rw [g.inodeBitmap]
    exact h.low m (hm.imp_right fun hfile => hfile.1)
  number m hm := by
    by_cases hp : m = p
    · subst hp
      rw [g.around.parent.iNo]
      exact g.around.parentNo
    · have hkept : without (fun m => dirs m ∨ files m) n m := by
        obtain hdir | hfile := hm
        · exact g.kept_dir h hdir
        · exact ⟨.inr hfile.1, hfile.2⟩
      rw [g.around.record m hkept hp]
      exact h.number m hkept.1
  own m hm := by
    by_cases hp : m = p
    · subst hp
      exact g.own
    · exact (g.around.moved (g.kept_dir h hm) hp).ownOf (g.around.inUse (g.kept_dir h hm) hp)
        (h.own m hm)
  apart m k hm hk hne a ha hother := by
    have hkept : ∀ m, dirs m ∨ without files n m → without (fun m => dirs m ∨ files m) n m := by
      rintro m (hdir | hfile)
      · exact g.kept_dir h hdir
      · exact ⟨.inr hfile.1, hfile.2⟩
    exact h.apart m k (hkept m hm).1 (hkept k hk).1 hne a (g.had_block (hkept m hm) ha)
      (g.had_block (hkept k hk) hother)
  marks i hi hset := by
    simp only [blockIdx_sb g.around.sb]
    obtain ⟨hold, hparent, hgone⟩ := g.marks i hset
    obtain ⟨m, a, hm, ha, hidx⟩ := h.marks i (g.size ▸ hi) hold
    have hmn : m ≠ n := by
      rintro rfl
      exact hgone a ha hidx
    refine ⟨m, a, hm.imp_right fun hfile => ⟨hfile, hmn⟩, ?_, hidx⟩
    by_cases hp : m = p
    · subst hp
      exact hparent a ha hidx
    · exact (g.around.moved ⟨hm, hmn⟩ hp).holds.mpr ha
  shape m hm := by
    by_cases hp : m = p
    · subst hp
      exact g.shape
    · exact (g.around.moved (g.kept_dir h hm) hp).shape (g.around.size (g.kept_dir h hm) hp)
        (h.shape m hm)
  file m hm := by
    have hp := g.ne_parent h hm.1
    obtain ⟨k, hok⟩ := h.file m hm.1
    exact ⟨k, (g.around.moved ⟨.inr hm.1, hm.2⟩ hp).fileOk (g.around.size ⟨.inr hm.1, hm.2⟩ hp)
      h.layout (g.around.inUse ⟨.inr hm.1, hm.2⟩ hp) hok⟩
  listed m hm r e' he := by
    obtain ⟨hold, hother⟩ := g.lay h hm he
    obtain ⟨hzero, ⟨htype, hproper, hfile⟩ | hdir⟩ := h.listed m hm r e' hold
    · refine ⟨hzero, .inl ⟨htype, hproper, hfile, fun hno => hother ?_⟩⟩
      obtain ⟨hp, hq, -⟩ := g.led h hm hold hproper hno
      exact ⟨hp, hq⟩
    · exact ⟨hzero, .inr hdir⟩
  once m k r x e₁ e₂ hm hk he he' :=
    h.once m k r x e₁ e₂ hm hk (g.lay h hm he).1 (g.lay h hk he').1
  filed m hm := by
    obtain ⟨k, r, e', hk, he, hproper, hno⟩ := h.filed m hm.1
    refine ⟨k, r, e', hk, g.lies_still h hk he ?_, hproper, hno⟩
    rintro ⟨rfl, rfl⟩
    have hslot := he.2
    rw [g.cleared.taken] at hslot
    obtain rfl := Option.some.inj hslot
    exact hm.2 (hno.symm.trans g.entryNo)
  rootDots r e' he hnot := h.rootDots r e' (g.lay h h.root he).1 hnot
  opened o ho := g.around.stored h.opened (fun _ hm => g.kept_dir h hm) ho
  openOk := by
    rw [g.around.opened]
    exact h.openOk.refresh g.around.parentNo
  rootOpen := g.around.rootOpen h.rootOpen
  spare := g.around.spare h.spare
  handles i hi r hr := by
    rw [g.around.refs]
    exact h.handles i hi r (g.around.handles i r hr)

end Loses

end ZhuOS
