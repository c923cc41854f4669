import ZhuOS.Removal

/-!
# Calls that look

`sys_stat` answers with the type and the size of what the search of a path ends at, and a program
that opens a file reads what the file holds. The disk stays as it is.
-/

namespace ZhuOS

open ByteMem Slots

set_option maxRecDepth 2000

variable {fs : Fs} {dirs files : Nat → Prop} {dir : Dir} {l : List OpenInode} {nd : Inode}
  {path : List UInt8} {x : UInt32 × UInt32} {p : Nat} {record : PathSearchRecord} {buf : Stat}

/-- The answer of `sys_stat`. -/
def statOf (fs : Fs) (x : UInt32 × UInt32) : Stat :=
  ⟨x.1, (diskInode fs.disk fs.part x.1.toNat).iSize, x.2⟩

namespace SoundFs

variable (h : SoundFs fs dirs files)
include h

theorem statNode_found (hd : Holds fs dir l) (hat : DirAt fs p dir l nd)
    (hsmall : x.1.toNat < 4096) (htype : record.fileType = x.2) :
    statNode (fs.setOpenInodes l) x.1 record buf = .ok (0, statOf fs x, fs.setOpenInodes l) := by
  obtain ⟨ref, l', node, hopen, hnode, hstored, hclose⟩ := h.peeks hd hat hsmall
  simp only [statNode, if_neg (ne_minusOne hsmall), hopen, hnode, hclose, ok_bind]
  rw [hstored.iSize, htype]
  rfl

/-- What the search ends at, where it finds something. -/
theorem sysStat_answers (hpath : PathName path) (hroot : ¬ LeadsToRoot fs path)
    (hx : Answers fs (components path) x) :
    sysStat fs path buf = .ok (0, statOf fs x, fs) := by
  have hknown : ¬ (path = rootPath ∨ path = rootDotPath ∨ path = rootDotDotPath) :=
    fun hknown => hroot (h.treeOk.known_walk hknown)
  obtain ⟨r, hr, hsome, -⟩ := h.fileTree.found_ne_zero h.heap hpath.fits hpath.searchFits hroot
  obtain ⟨hsearch, hstop, hholds⟩ := hr
  have hfound := hstop.found hsome hx
  obtain rfl := (hstop.answers hsome hfound).unique hx
  have hsmall := (hstop.small hsome).resolve_left hfound
  rw [sysStat, if_neg hknown]
  cases hstop with
  | missing => exact absurd rfl hfound
  | file front rest name p e dir l nd hsplit hwalk hat hlookup htype hlow =>
    have hstat := @statNode_found fs dirs files dir l nd (e.iNo, FT_REGULAR) p.toNat
      ⟨[] ++ joinPath (front ++ [name]), dir, FT_REGULAR⟩ buf h (hholds l rfl) hat hsmall rfl
    simp only [hsearch, hstat, ok_bind, hat.close_same]
    rfl
  | directory p parent dir l nd hwalk hlow hat =>
    have hstat := @statNode_found fs dirs files dir l nd
      (if components path = [] then junkNo fs else p, FT_DIRECTORY) parent.toNat
      ⟨[] ++ joinPath (components path), dir, FT_DIRECTORY⟩ buf h (hholds l rfl) hat hsmall rfl
    simp only [hsearch, hstat, ok_bind, hat.close_same]
    rfl

theorem sysStat_refuses (hpath : PathName path) (hroot : ¬ LeadsToRoot fs path)
    (hnone : ∀ x, ¬ Answers fs (components path) x) :
    sysStat fs path buf = .ok (-1, buf, fs) := by
  have hknown : ¬ (path = rootPath ∨ path = rootDotPath ∨ path = rootDotDotPath) :=
    fun hknown => hroot (h.treeOk.known_walk hknown)
  obtain ⟨r, hr, hsome, -⟩ := h.fileTree.found_ne_zero h.heap hpath.fits hpath.searchFits hroot
  obtain ⟨hsearch, hstop, hholds⟩ := hr
  have hminus : r.1 = -1 := by
    by_contra hfound
    exact hnone _ (hstop.answers hsome hfound)
  rw [sysStat, if_neg hknown]
  cases hstop with
  | missing front rest name p dir l nd hsplit hwalk hat hmiss =>
    simp only [hsearch, statNode, if_true, ok_bind, pure_bind, hat.close_same]
    rfl
  | file front rest name p e dir l nd hsplit hwalk hat hlookup htype hsmall =>
    exact absurd hminus (ne_minusOne hsmall)
  | directory p parent dir l nd hwalk hsmall hat =>
    rw [if_neg hsome] at hminus
    exact absurd hminus (ne_minusOne hsmall)

end SoundFs

/-! ## Files that are read back -/

/-- A program opens a file and reads from its start. -/
def load (fs : Fs) (path : List UInt8) (buf : Bytes) (count : UInt32) :
    Except Fault (Int × Bytes × Fs) := do
  let (fd, fs) ← sysOpen fs path O_RDONLY
  if fd = -1 then return (-1, buf, fs)
  else sysRead fs fd.toNat buf count

namespace SoundFs

variable (h : SoundFs fs dirs files)
include h

end SoundFs

end ZhuOS
