import ZhuOS.OpenFails
import ZhuOS.Positions
import ZhuOS.Lib.CStrings

/-!
# `fs/fs.c`: the descriptors that the calls take

`sys_close`, `sys_write`, `sys_read` and `sys_lseek` with the console, the keyboard and the
numbers that are no descriptors. What they do with an open file is in `File` and `OpenFile`;
the messages of calls that fail are left out.
-/

namespace ZhuOS.Descriptors

open ByteMem

/-- What a call reads and changes, seen from the running thread. -/
structure State where
  fs : Fs
  /-- what has been put on the console -/
  console : List UInt8
  /-- the characters `ioq_getchar` delivers, the next one first -/
  keys : Bytes
  /-- the caller's buffer -/
  buf : Bytes

def stdin_no : Int32 := 0
def stdout_no : Int32 := 1
def stderr_no : Int32 := 2

def sysClose (s : State) (fd : Int32) : Except Fault (Int × State) :=
  if 2 < fd then do
    let (ret, fs) ← ZhuOS.sysClose s.fs fd.toNatClampNeg
    return (ret, { s with fs })
  else return (-1, s)

/-- The string that `sys_write` collects in `tmp_buf` for the console. -/
def tmpString (buf : Bytes) (count : Nat) : Except Fault (List UInt8) :=
  if 1024 < count then .error .outOfBounds
  else
    let str := field (blit (fun _ => 0) 0 buf 0 count) 0 1024
    -- without a zero byte in `tmp_buf`, `put_str` goes on behind it
    if str.length = 1024 then .error .outOfBounds else return str

def sysWrite (s : State) (fd : Int32) (count : UInt32) : Except Fault (Int × State) :=
  if fd < 0 then return (-1, s)
  else if fd = stdout_no then do
    let str ← tmpString s.buf count.toNat
    return (count.toInt32.toInt, { s with console := s.console ++ str })
  else do
    let (ret, fs) ← ZhuOS.sysWrite s.fs fd.toNatClampNeg s.buf count
    return (ret, { s with fs })

/-- The loop of `sys_read` over the keyboard's characters. -/
def readKeys : (left bytesRead : Nat) → State → State
  | 0, _, s => s
  | left + 1, bytesRead, s =>
    readKeys left (bytesRead + 1)
      { s with buf := Function.update s.buf bytesRead (s.keys 0), keys := shift s.keys 1 }

def sysRead (s : State) (fd : Int32) (count : UInt32) : Except Fault (Int × State) :=
  if fd < 0 ∨ fd = stdout_no ∨ fd = stderr_no then return (-1, s)
  else if fd = stdin_no then
    return (if count = 0 then -1 else count.toInt32.toInt, readKeys count.toNat 0 s)
  else do
    let (ret, buf, fs) ← ZhuOS.sysRead s.fs fd.toNatClampNeg s.buf count
    return (ret, { s with buf, fs })

def sysLseek (s : State) (fd : Int32) (offset : Int32) (whence : UInt8) :
    Except Fault (Int × State) := do
  let (ret, fs) ← ZhuOS.sysLseek s.fs fd.toInt offset whence
  return (ret, { s with fs })

inductive Call
  | close
  | write (count : UInt32)
  | read (count : UInt32)
  | lseek (offset : Int32) (whence : UInt8)

namespace Call

def exec (s : State) (fd : Int32) : Call → Except Fault (Int × State)
  | .close => sysClose s fd
  | .write count => sysWrite s fd count
  | .read count => sysRead s fd count
  | .lseek offset whence => sysLseek s fd offset whence

/-- The whence values there are. -/
def Seeks : Call → Prop
  | .lseek _ whence => 0 < whence ∧ whence < 4
  | _ => True

end Call

/-! ## What the calls are for -/

/-- The position that `whence` and `offset` name. -/
def seekTo (file : File) (nd : Inode) (offset : Int32) (whence : UInt8) : Int32 :=
  if whence = SEEK_SET then offset
  else if whence = SEEK_CUR then file.fdPos.toInt32 + offset
  else nd.iSize.toInt32 + offset

/-- The call on an open file, an entry of the file table. -/
def Call.onFile (s : State) (fd : Int32) (i : Nat) : Call → Except Fault (Int × State)
  | .close => do
    let (ret, fs) ← fileClose s.fs i
    let fdTable := Function.update fs.fdTable fd.toNatClampNeg none
    return (ret, { s with fs := { fs with fdTable } })
  | .write count => do
    let (ret, fs) ← fileWrite s.fs i s.buf count
    return (ret, { s with fs })
  | .read count => do
    let (ret, buf, fs) ← fileRead s.fs i s.buf count
    return (ret, { s with buf, fs })
  | .lseek offset whence => do
    let ref ← ((s.fs.fileTable i).fdInode).elim (.error .badAddress) .ok
    let nd ← s.fs.inodeAt ref
    let newPos := seekTo (s.fs.fileTable i) nd offset whence
    if newPos < 0 ∨ nd.iSize.toInt32 - 1 < newPos then return (-1, s)
    else return (newPos.toInt, { s with fs := s.fs.setPos i newPos.toUInt32 })

/-- The caller's `fd_table` has an open file for the descriptor. -/
structure Records (fs : Fs) (fd : Int32) (i : Nat) : Prop where
  inTable : 0 ≤ fd ∧ fd < 8
  entry : fs.fdTable fd.toNatClampNeg = some i
  inFiles : i < MAX_FILE_OPEN
  isOpen : (fs.fileTable i).fdInode ≠ none

/-- The call acts on the open file that the `fd_table` has for the descriptor, or on the
console or the keyboard, or it returns -1 and has changed nothing. -/
inductive Right (s : State) (fd : Int32) (call : Call) : Prop
  | file {i : Nat} (records : Records s.fs fd i) (acts : call.exec s fd = call.onFile s fd i)
  | console {count : UInt32} (write : call = .write count) (stdout : fd = stdout_no)
      (acts : call.exec s fd = .ok (count.toInt32.toInt,
        { s with console := s.console ++ field s.buf 0 count.toNat }))
  | keyboard {count : UInt32} (read : call = .read count) (stdin : fd = stdin_no)
      (acts : call.exec s fd = .ok (count.toInt32.toInt,
        { s with buf := blit s.buf 0 s.keys 0 count.toNat, keys := shift s.keys count.toNat }))
  | refuses (acts : call.exec s fd = .ok (-1, s))

/-- The descriptor is one of the table and has not been closed. -/
def InUse (fs : Fs) (fd : Int32) : Prop := fd < 8 ∧ fs.fdTable fd.toNatClampNeg ≠ none

/-- The bytes leave room for a zero byte in `tmp_buf`, or have one. -/
def FitsConsole (buf : Bytes) (count : UInt32) : Prop :=
  count < 1024 ∨ count = 1024 ∧ ∃ i < 1024, buf i = 0

/-- A number above 2 is a descriptor in use; for `sys_lseek` one below 3 is negative; and
what goes to the console fits. -/
def Call.Takes (s : State) (fd : Int32) : Call → Prop
  | .close | .read _ => 2 < fd → InUse s.fs fd
  | .write count => (fd = stdout_no → FitsConsole s.buf count) ∧ (2 < fd → InUse s.fs fd)
  | .lseek _ _ => 0 ≤ fd → 2 < fd ∧ InUse s.fs fd

/-! ## The tables after opens and closes -/

/-- `fd_table` as `init_thread` leaves it. -/
def initFdTable (fd : Nat) : Option Nat := if fd < 3 then some fd else none

/-- No file has been opened yet. -/
structure Booted (w : FdWorld Nat) : Prop where
  files : ∀ i, w.fs.fileTable i = ⟨0, 0, none⟩
  tables : ∀ p, w.fdTables p = initFdTable

/-- The first three entries are nobody's, and every other descriptor has an open file to
itself. -/
structure TablesRight (w : FdWorld Nat) : Prop where
  streams : ∀ i < 3, w.fs.fileTable i = ⟨0, 0, none⟩
  std : ∀ p, ∀ fd < 3, w.fdTables p fd = some fd
  files : ∀ p fd i, 3 ≤ fd → w.fdTables p fd = some i →
    3 ≤ i ∧ i < MAX_FILE_OPEN ∧ (w.fs.fileTable i).fdInode ≠ none
  one : ∀ p q fd fd' i, 3 ≤ fd → 3 ≤ fd' → w.fdTables p fd = some i → w.fdTables q fd' = some i →
    p = q ∧ fd = fd'

theorem Booted.right {w : FdWorld Nat} (h : Booted w) : TablesRight w := by
  have hnone : ∀ p fd i, 3 ≤ fd → w.fdTables p fd ≠ some i := by
    intro p fd i hlo
    rw [h.tables p, initFdTable, if_neg (by omega)]
    nofun
  refine ⟨fun i _ => h.files i, fun p fd hlt => ?_,
    fun p fd i hlo hi => absurd hi (hnone p fd i hlo),
    fun p _ fd _ i hlo _ hi => absurd hi (hnone p fd i hlo)⟩
  rw [h.tables p, initFdTable, if_pos hlt]

/-- What `sys_open` does to the tables: a free entry is taken, for good or until the call is
undone, and a free descriptor may refer to it. -/
inductive OpenMoves (fs fs' : Fs) : Prop
  | stays (fileTable : fs'.fileTable = fs.fileTable) (fdTable : fs'.fdTable = fs.fdTable)
  | entry {i : Nat} {f : File} (slot : getFreeSlotInGlobal fs.fileTable = some i)
      (fileTable : fs'.fileTable = Function.update fs.fileTable i f)
      (fdTable : fs'.fdTable = fs.fdTable)
  | installs {i fd : Nat} {f : File} (slot : getFreeSlotInGlobal fs.fileTable = some i)
      (fileTable : fs'.fileTable = Function.update fs.fileTable i f) (taken : f.fdInode ≠ none)
      (lo : 3 ≤ fd) (free : fs.fdTable fd = none)
      (fdTable : fs'.fdTable = Function.update fs.fdTable fd (some i))

/-- The tables are the same. -/
def SameTables (fs fs' : Fs) : Prop := fs'.fileTable = fs.fileTable ∧ fs'.fdTable = fs.fdTable

theorem SameTables.trans {fs fs' fs'' : Fs} (h : SameTables fs fs') (h' : SameTables fs' fs'') :
    SameTables fs fs'' := ⟨h'.1.trans h.1, h'.2.trans h.2⟩

namespace OpenMoves

variable {fs fs' fs'' : Fs} {r : Int}

/-- Before the call's own moves, and behind them, the tables are the same. -/
theorem congr (h : OpenMoves fs' fs'') (hs : SameTables fs fs') : OpenMoves fs fs'' := by
  obtain ⟨hfile, hfd⟩ := hs
  cases h with
  | stays fileTable fdTable => exact .stays (fileTable.trans hfile) (fdTable.trans hfd)
  | entry slot fileTable fdTable =>
    rw [hfile] at slot fileTable
    exact .entry slot fileTable (fdTable.trans hfd)
  | installs slot fileTable taken lo free fdTable =>
    rw [hfile] at slot fileTable
    rw [hfd] at free fdTable
    exact .installs slot fileTable taken lo free fdTable

theorem trans (h : OpenMoves fs fs') (hs : SameTables fs' fs'') : OpenMoves fs fs'' := by
  obtain ⟨hfile, hfd⟩ := hs
  cases h with
  | stays fileTable fdTable => exact .stays (hfile.trans fileTable) (hfd.trans fdTable)
  | entry slot fileTable fdTable =>
    exact .entry slot (hfile.trans fileTable) (hfd.trans fdTable)
  | installs slot fileTable taken lo free fdTable =>
    exact .installs slot (hfile.trans fileTable) taken lo free (hfd.trans fdTable)

/-- `pcb_fd_install` of an entry that is taken. -/
theorem install {i : Nat} {f : File} (slot : getFreeSlotInGlobal fs.fileTable = some i)
    (hfile : fs'.fileTable = Function.update fs.fileTable i f) (hf : f.fdInode ≠ none)
    (h : Installs fs.fdTable i r fs'.fdTable) : OpenMoves fs fs' := by
  rcases h.cases with hsame | ⟨fd, hlo, hfree, hput⟩
  · exact .entry slot hfile hsame
  · exact .installs slot hfile hf hlo hfree hput

theorem fileOpen {n : Nat} {flag : UInt8} (h : fileOpen fs n flag = .ok (r, fs')) :
    OpenMoves fs fs' := by
  unfold ZhuOS.fileOpen at h
  cases hslot : getFreeSlotInGlobal fs.fileTable with
  | none =>
    rw [hslot] at h
    cases h
    exact .stays rfl rfl
  | some i =>
    rw [hslot] at h
    obtain ⟨⟨ref, fs₁⟩, hopen, h⟩ := bind_ok.mp h
    have hsame : SameTables fs fs₁ := inodeOpen_tables hopen
    obtain ⟨hfile, hend⟩ := openEnd_tables h
    have hslot₁ : getFreeSlotInGlobal fs₁.fileTable = some i := hsame.1 ▸ hslot
    refine OpenMoves.congr ?_ hsame
    rcases hend with ⟨-, hfd⟩ | hinstall
    · exact .entry hslot₁ hfile hfd
    · exact .install hslot₁ hfile (Option.some_ne_none ref) hinstall

theorem fileCreate {dir : Dir} {name : List UInt8} {flag : UInt8}
    (h : fileCreate fs dir name flag = .ok (r, fs')) : OpenMoves fs fs' := by
  obtain ⟨⟨begun, fs₁⟩, hbegin, h⟩ := bind_ok.mp h
  cases createBegin_ok hbegin with
  | failed heap =>
    cases h
    exact .stays rfl rfl
  | @marked n i heap hin hfree hslot =>
    obtain ⟨⟨synced, fs₂⟩, hsync, h⟩ := bind_ok.mp h
    have hcreate := Except.ok.inj h
    obtain ⟨hfile, hfd⟩ := createSync_tables hsync
    have htables := createEnd_tables (c := ⟨n, i, freshRef fs.part.openInodes⟩) synced fs₂
    rw [hcreate] at htables
    rcases htables with ⟨-, hend, hinstall⟩ | ⟨-, hend, hsame⟩
    · rw [hfd] at hinstall
      exact .install hslot (hend.trans hfile) (Option.some_ne_none _) hinstall
    · refine .entry hslot (f := ⟨0, 0, none⟩) ?_ (hsame.trans hfd)
      rw [hend, hfile]
      exact Function.update_idem ..

end OpenMoves

section
variable {fs fs' : Fs} {path : List UInt8} {flags : UInt8} {r : Int}

theorem dirOpen_tables {n : Nat} {dir : Dir} (h : dirOpen fs n = .ok (dir, fs')) :
    SameTables fs fs' := by
  obtain ⟨⟨ref, fs₁⟩, hopen, h⟩ := bind_ok.mp h
  obtain ⟨-, -, h⟩ := bind_ok.mp h
  cases h
  have hsame := inodeOpen_tables hopen
  exact hsame

theorem searchDirEntry_tables {nd : Inode} {name : List UInt8} {found : Option DirEntry}
    (h : searchDirEntry fs nd name = .ok (found, fs')) : SameTables fs fs' := by
  have hself : fs = fs.relist fs.part.openInodes fs.heap := rfl
  rw [hself] at h
  obtain ⟨heap, rfl⟩ := searchDirEntry_relist h
  exact ⟨rfl, rfl⟩

theorem searchLoop_tables (fuel : Nat) {name : List UInt8} {subPath : Option (List UInt8)}
    {dir : Dir} {parentNo no : UInt32} {pre : List UInt8} {dirE : DirEntry}
    {record : PathSearchRecord}
    (h : searchLoop fuel name subPath dir parentNo pre dirE fs = .ok (no, record, fs')) :
    SameTables fs fs' := by
  induction fuel generalizing name subPath dir parentNo pre dirE fs with
  | zero => cases h
  | succ fuel ih =>
    unfold searchLoop at h
    by_cases hname : name = []
    · rw [if_pos hname] at h
      obtain ⟨fs₁, hclose, h⟩ := bind_ok.mp h
      obtain ⟨⟨dir', fs₂⟩, hopen, h⟩ := bind_ok.mp h
      cases h
      exact SameTables.trans (dirClose_tables hclose) (dirOpen_tables hopen)
    · rw [if_neg hname] at h
      obtain ⟨-, -, h⟩ := bind_ok.mp h
      obtain ⟨pre', -, h⟩ := bind_ok.mp h
      obtain ⟨nd, -, h⟩ := bind_ok.mp h
      obtain ⟨⟨found, fs₁⟩, hs, h⟩ := bind_ok.mp h
      have hsearch := searchDirEntry_tables hs
      cases found with
      | none =>
        cases h
        exact hsearch
      | some de =>
        obtain ⟨⟨name', rest⟩, -, h⟩ := bind_ok.mp h
        dsimp only at h
        by_cases hdir : de.fType = FT_DIRECTORY
        · rw [if_pos hdir] at h
          obtain ⟨nd', -, h⟩ := bind_ok.mp h
          obtain ⟨fs₂, hclose, h⟩ := bind_ok.mp h
          obtain ⟨⟨dir', fs₃⟩, hopen, h⟩ := bind_ok.mp h
          exact (hsearch.trans (dirClose_tables hclose)).trans
            ((dirOpen_tables hopen).trans (ih h))
        · rw [if_neg hdir] at h
          by_cases hfile : de.fType = FT_REGULAR
          · rw [if_pos hfile] at h
            cases h
            exact hsearch
          · rw [if_neg hfile] at h
            exact hsearch.trans (ih h)

theorem searchFile_tables {no : UInt32} {record : PathSearchRecord}
    (h : searchFile fs path = .ok (no, record, fs')) : SameTables fs fs' := by
  unfold searchFile at h
  split at h
  · cases h
    exact ⟨rfl, rfl⟩
  · obtain ⟨-, -, h⟩ := bind_ok.mp h
    obtain ⟨⟨name, subPath⟩, -, h⟩ := bind_ok.mp h
    exact searchLoop_tables _ h

theorem sysOpen_moves (h : sysOpen fs path flags = .ok (r, fs')) : OpenMoves fs fs' := by
  unfold sysOpen at h
  by_cases hslash : path.getLast? = some slash
  · rw [if_pos hslash] at h
    cases h
    exact .stays rfl rfl
  · rw [if_neg hslash] at h
    obtain ⟨-, -, h⟩ := bind_ok.mp h
    obtain ⟨depth, -, h⟩ := bind_ok.mp h
    obtain ⟨⟨no, record, fs₁⟩, hs, h⟩ := bind_ok.mp h
    have hsearch := searchFile_tables hs
    have hclosed : dirClose fs₁ record.parentDir >>= (fun fs₂ => .ok (-1, fs₂)) = .ok (r, fs') →
        OpenMoves fs fs' := by
      intro hc
      obtain ⟨fs₂, hclose, hc⟩ := bind_ok.mp hc
      cases hc
      have hsame := hsearch.trans (dirClose_tables hclose)
      exact .stays hsame.1 hsame.2
    dsimp only at h
    split at h
    · exact hclosed h
    · obtain ⟨depth', -, h⟩ := bind_ok.mp h
      split at h
      · cases h
        exact .stays hsearch.1 hsearch.2
      · split at h
        · exact hclosed h
        · split at h
          · exact hclosed h
          · split at h
            · obtain ⟨⟨fd, fs₂⟩, hcreate, h⟩ := bind_ok.mp h
              obtain ⟨fs₃, hclose, h⟩ := bind_ok.mp h
              cases h
              have hmoves := (OpenMoves.fileCreate hcreate).congr hsearch
              exact hmoves.trans (dirClose_tables hclose)
            · exact (OpenMoves.fileOpen h).congr hsearch

end

namespace TablesRight

variable {w : FdWorld Nat} {fs : Fs}

/-- An entry that a descriptor has is not free. -/
theorem ne_free (h : TablesRight w) {p fd i j : Nat} (hlo : 3 ≤ fd) (hi : w.fdTables p fd = some i)
    (hj : (w.fs.fileTable j).fdInode = none) : i ≠ j := by
  rintro rfl
  exact (h.files p fd i hlo hi).2.2 hj

/-- A process leaves its descriptors as they were. -/
theorem store_same {p : Nat} (h : fs.fdTable = w.fdTables p) :
    (w.store p fs).fdTables = w.fdTables := by
  change Function.update w.fdTables p fs.fdTable = _
  rw [h, Function.update_eq_self]

/-- A process changes one of its descriptors. -/
theorem store_entry {p fd : Nat} {entry : Option Nat}
    (h : fs.fdTable = Function.update (w.fdTables p) fd entry) (q fd' : Nat) :
    (w.store p fs).fdTables q fd' = if q = p ∧ fd' = fd then entry else w.fdTables q fd' := by
  change Function.update w.fdTables p fs.fdTable q fd' = _
  rw [h]
  by_cases hq : q = p
  · subst hq
    by_cases hfd : fd' = fd
    · simp [hfd]
    · simp [hfd]
  · simp [hq]

/-- An entry changes that no descriptor has. -/
theorem setEntry (h : TablesRight w) {p i : Nat} {f : File}
    (hslot : getFreeSlotInGlobal w.fs.fileTable = some i)
    (hfile : fs.fileTable = Function.update w.fs.fileTable i f)
    (hfd : fs.fdTable = w.fdTables p) : TablesRight (w.store p fs) := by
  obtain ⟨hlo, -, hfree, -⟩ := getFreeSlot_some hslot
  have htables := store_same hfd
  have hother : ∀ j, j ≠ i → (w.store p fs).fs.fileTable j = w.fs.fileTable j := by
    intro j hj
    change fs.fileTable j = _
    rw [hfile, Function.update_of_ne hj]
  refine ⟨fun j hj => ?_, ?_, fun q fd j hfd3 hentry => ?_, ?_⟩
  · rw [hother j (by omega)]
    exact h.streams j hj
  · rw [htables]
    exact h.std
  · rw [htables] at hentry
    rw [hother j (h.ne_free hfd3 hentry hfree)]
    exact h.files q fd j hfd3 hentry
  · rw [htables]
    exact h.one

theorem opened (h : TablesRight w) {p : Nat} (hm : OpenMoves (w.load p) fs) :
    TablesRight (w.store p fs) := by
  cases hm with
  | stays fileTable fdTable =>
    have hstore : (w.store p fs).fdTables = w.fdTables := store_same fdTable
    have hfiles : (w.store p fs).fs.fileTable = w.fs.fileTable := fileTable
    obtain ⟨streams, std, files, one⟩ := h
    rw [← hfiles] at streams files
    rw [← hstore] at std files one
    exact ⟨streams, std, files, one⟩
  | entry slot fileTable fdTable => exact h.setEntry slot fileTable fdTable
  | @installs i fd f slot fileTable taken lo free fdTable =>
    obtain ⟨hlo, hhi, hfree, -⟩ := getFreeSlot_some slot
    -- the entry first, which nobody has
    have hentry : TablesRight (w.store p { fs with fdTable := w.fdTables p }) :=
      h.setEntry slot fileTable rfl
    have hkeep : (w.store p { fs with fdTable := w.fdTables p }).fdTables = w.fdTables :=
      store_same rfl
    obtain ⟨streams, std, files, one⟩ := hentry
    rw [hkeep] at std files one
    have htables := store_entry fdTable
    have hnot : ∀ q fd' j, 3 ≤ fd' → w.fdTables q fd' = some j → j ≠ i :=
      fun q fd' j hlo' hj => h.ne_free hlo' hj hfree
    refine ⟨streams, fun q fd' hlt => ?_, fun q fd' j hlo' hj => ?_,
      fun q q' fd₁ fd₂ j h₁ h₂ hj hj' => ?_⟩
    · rw [htables, if_neg (by omega)]
      exact std q fd' hlt
    · rw [htables] at hj
      split at hj
      · cases hj
        have hself : (w.store p fs).fs.fileTable i = f := by
          change fs.fileTable i = f
          rw [fileTable, Function.update_self]
        rw [hself]
        exact ⟨hlo, hhi, taken⟩
      · exact files q fd' j hlo' hj
    · rw [htables] at hj hj'
      split at hj <;> split at hj'
      · rename_i ha hb
        exact ⟨ha.1.trans hb.1.symm, ha.2.trans hb.2.symm⟩
      · cases hj
        exact absurd rfl (hnot q' fd₂ _ h₂ hj')
      · cases hj'
        exact absurd rfl (hnot q fd₁ _ h₁ hj)
      · exact one q q' fd₁ fd₂ j h₁ h₂ hj hj'

theorem closed (h : TablesRight w) {p fd : Nat} {r : Int}
    (hc : ZhuOS.sysClose (w.load p) fd = .ok (r, fs)) : TablesRight (w.store p fs) := by
  by_cases hfd : 2 < fd
  · obtain ⟨i, -, hi, -, hfile, hfdt⟩ := sysClose_tables hc hfd
    have hi : w.fdTables p fd = some i := hi
    have htables := store_entry (w := w) hfdt
    have hother : ∀ j, j ≠ i → (w.store p fs).fs.fileTable j = w.fs.fileTable j := by
      intro j hj
      change fs.fileTable j = _
      rw [hfile]
      exact Function.update_of_ne hj ..
    have hkept : ∀ q fd' j, (w.store p fs).fdTables q fd' = some j →
        ¬ (q = p ∧ fd' = fd) ∧ w.fdTables q fd' = some j := by
      intro q fd' j hj
      rw [htables] at hj
      split at hj
      · cases hj
      · rename_i hne
        exact ⟨hne, hj⟩
    obtain ⟨hlo, -, -⟩ := h.files p fd i hfd hi
    refine ⟨fun j hj => ?_, fun q fd' hlt => ?_, fun q fd' j hlo' hj => ?_,
      fun q q' fd₁ fd₂ j h₁ h₂ hj hj' => ?_⟩
    · rw [hother j (by omega)]
      exact h.streams j hj
    · rw [htables, if_neg (by omega)]
      exact h.std q fd' hlt
    · obtain ⟨hne, hj⟩ := hkept q fd' j hj
      rw [hother j]
      · exact h.files q fd' j hlo' hj
      · rintro rfl
        exact hne (h.one q p fd' fd j hlo' hfd hj hi)
    · exact h.one q q' fd₁ fd₂ j h₁ h₂ (hkept q fd₁ j hj).2 (hkept q' fd₂ j hj').2
  · rw [ZhuOS.sysClose, if_neg hfd] at hc
    cases hc
    exact h.opened (.stays rfl rfl)

end TablesRight

theorem tables_preserved : Guarded.Preserves OpenCall.system TablesRight := by
  rintro w e w' h - he
  cases e with
  | «open» p pathname flags =>
    obtain ⟨⟨r, fs⟩, ho, he⟩ := bind_ok.mp he
    cases he
    exact h.opened (sysOpen_moves ho)
  | close p fd =>
    obtain ⟨⟨r, fs⟩, hc, he⟩ := bind_ok.mp he
    cases he
    exact h.closed hc

/-! ## The calls -/

section
variable {s : State} {fd : Int32} {call : Call} {count : UInt32} {f : Fault}

theorem readKeys_eq (left n : Nat) (s : State) : readKeys left n s =
    { s with buf := blit s.buf n s.keys 0 left, keys := shift s.keys left } := by
  induction left generalizing n s with
  | zero =>
    have hkeys : shift s.keys 0 = s.keys := by
      funext i
      exact congrArg s.keys (Nat.zero_add i)
    rw [readKeys, blit_none, hkeys]
  | succ left ih =>
    have hbuf : blit (Function.update s.buf n (s.keys 0)) (n + 1) (shift s.keys 1) 0 left =
        blit s.buf n s.keys 0 (left + 1) := by
      funext a
      rcases Nat.lt_trichotomy a n with hlt | rfl | hgt
      · rw [blit_out (.inl (by omega)), blit_out (.inl hlt), Function.update_of_ne (by omega)]
      · rw [blit_out (.inl (by omega)), Function.update_self, blit_in (le_refl a) (by omega),
          Nat.sub_self]
      · by_cases hin : a < n + (left + 1)
        · rw [blit_in (by omega) (by omega), blit_in (by omega) hin]
          exact congrArg s.keys (by omega)
        · rw [blit_out (.inr (by omega)), blit_out (.inr (by omega)),
            Function.update_of_ne (by omega)]
    have hkeys : shift (shift s.keys 1) left = shift s.keys (left + 1) := by
      funext i
      exact congrArg s.keys (by omega)
    rw [readKeys, ih, hbuf, hkeys]

theorem tmpString_eq {buf : Bytes} {n : Nat} (hle : n ≤ 1024) :
    field (blit (fun _ => 0) 0 buf 0 n) 0 1024 = field buf 0 n := by
  have hsame : field (blit (fun _ => 0) 0 buf 0 n) 0 n = field buf 0 n := by
    apply field_congr
    intro i hi
    exact blit_at hi
  by_cases hfull : n = 1024
  · rw [← hsame, hfull]
  · have hzero : blit (fun _ => 0) 0 buf 0 n (0 + n) = 0 := blit_out (.inr (le_refl _))
    have hstop := field_stop n (1024 - n - 1) hzero
    rw [← hsame, ← hstop]
    congr 1
    omega

/-- What fits is shown up to its first zero byte. -/
theorem tmpString_ok {buf : Bytes} (h : FitsConsole buf count) :
    tmpString buf count.toNat = .ok (field buf 0 count.toNat) := by
  have hle : count.toNat ≤ 1024 := by
    rcases h with hlt | ⟨rfl, -⟩
    · exact Nat.le_of_lt (UInt32.lt_iff_toNat_lt.mp hlt)
    · exact le_refl _
  have hlen : (field buf 0 count.toNat).length ≠ 1024 := by
    rcases h with hlt | ⟨rfl, i, hi, hz⟩
    · exact Nat.ne_of_lt (field_length_le.trans_lt (UInt32.lt_iff_toNat_lt.mp hlt))
    · intro hfull
      have hne := field_full.mp hfull i hi
      rw [Nat.zero_add] at hne
      exact hne hz
  rw [tmpString, if_neg (Nat.not_lt.mpr hle), tmpString_eq hle]
  exact if_neg hlen

theorem tmpString_error {buf : Bytes} (h : ¬ FitsConsole buf count) :
    tmpString buf count.toNat = .error .outOfBounds := by
  have hge : ¬ count.toNat < 1024 := fun hlt => h (.inl (UInt32.lt_iff_toNat_lt.mpr hlt))
  by_cases hlarge : 1024 < count.toNat
  · rw [tmpString, if_pos hlarge]
  · have hn : count.toNat = 1024 := by omega
    have hcount : count = 1024 := UInt32.toNat_inj.mp hn
    have hfull : (field buf 0 1024).length = 1024 := by
      apply field_full.mpr
      intro i hi hz
      rw [Nat.zero_add] at hz
      exact h (.inr ⟨hcount, i, hi, hz⟩)
    rw [tmpString, if_neg hlarge, tmpString_eq (by omega), hn]
    exact if_pos hfull

/-- A call that fails is not right where no file is open for the descriptor. -/
theorem Right.not_error (he : call.exec s fd = .error f) (hn : ∀ i, ¬ Records s.fs fd i) :
    ¬ Right s fd call := by
  intro h
  cases h with
  | file records acts => exact hn _ records
  | console write stdout acts => cases he.symm.trans acts
  | keyboard read stdin acts => cases he.symm.trans acts
  | refuses acts => cases he.symm.trans acts

/-- A number above 2 as an index. -/
theorem index_above (h : 2 < fd) : 3 ≤ fd.toNatClampNeg ∧ 0 ≤ fd ∧
    (fd < 8 ↔ fd.toNatClampNeg < MAX_FILES_OPEN_PER_PROC) := by
  have hlo : 2 < fd.toInt := Int32.lt_iff_toInt_lt.mp h
  have hn : fd.toNatClampNeg = fd.toInt.toNat := rfl
  have hhi : fd < 8 ↔ fd.toInt < 8 := Int32.lt_iff_toInt_lt
  have hzero : 0 ≤ fd ↔ 0 ≤ fd.toInt := Int32.le_iff_toInt_le
  rw [hn, hhi, hzero]
  unfold MAX_FILES_OPEN_PER_PROC
  omega

/-- The other numbers. -/
theorem index_below (h : ¬ 2 < fd) : fd < 0 ∨ fd = stdin_no ∨ fd = stdout_no ∨ fd = stderr_no := by
  have hhi : ¬ 2 < fd.toInt := fun hlt => h (Int32.lt_iff_toInt_lt.mpr hlt)
  by_cases hneg : fd < 0
  · exact .inl hneg
  · have hlo : ¬ fd.toInt < 0 := fun hlt => hneg (Int32.lt_iff_toInt_lt.mpr hlt)
    right
    have hthree : fd.toInt = 0 ∨ fd.toInt = 1 ∨ fd.toInt = 2 := by omega
    rcases hthree with h | h | h
    · exact .inl (Int32.toInt_inj.mp h)
    · exact .inr (.inl (Int32.toInt_inj.mp h))
    · exact .inr (.inr (Int32.toInt_inj.mp h))

theorem stream_index (h : ¬ 2 < fd) : fd.toNatClampNeg < 3 := by
  have hle : ¬ 2 < fd.toInt := fun hlt => h (Int32.lt_iff_toInt_lt.mpr hlt)
  change fd.toInt.toNat < 3
  omega

theorem Records.inUse {fs : Fs} {i : Nat} (h : Records fs fd i) : InUse fs fd := by
  refine ⟨h.inTable.2, ?_⟩
  rw [h.entry]
  exact Option.some_ne_none i

/-- `fd_local2global` of a number that is no descriptor in use. -/
theorem local2global_error {fs : Fs} (hlo : 2 < fd) (h : ¬ InUse fs fd) :
    ∃ f, fdLocal2global fs fd.toNatClampNeg = .error f := by
  unfold fdLocal2global
  by_cases hhi : fd < 8
  · have hnone : fs.fdTable fd.toNatClampNeg = none := by
      by_contra hne
      exact h ⟨hhi, hne⟩
    rw [if_neg (Nat.not_le.mpr ((index_above hlo).2.2.mp hhi)), hnone]
    exact ⟨.panic, rfl⟩
  · have hlarge : MAX_FILES_OPEN_PER_PROC ≤ fd.toNatClampNeg :=
      Nat.not_lt.mp fun hlt => hhi ((index_above hlo).2.2.mpr hlt)
    rw [if_pos hlarge]
    exact ⟨.outOfBounds, rfl⟩

end

/-- The tables as one process sees them. -/
structure Seen (fs : Fs) : Prop where
  streams : ∀ i < 3, fs.fileTable i = ⟨0, 0, none⟩
  std : ∀ fd < 3, fs.fdTable fd = some fd
  files : ∀ fd i, 3 ≤ fd → fs.fdTable fd = some i →
    i < MAX_FILE_OPEN ∧ (fs.fileTable i).fdInode ≠ none

theorem TablesRight.seen {w : FdWorld Nat} (h : TablesRight w) (p : Nat) : Seen (w.load p) where
  streams := h.streams
  std := h.std p
  files fd i hlo hi := (h.files p fd i hlo hi).2

namespace Seen

variable {s : State} {fd : Int32} {count : UInt32} {k : Nat}

/-- `fd_local2global` of a descriptor in use. -/
theorem inUse (h : Seen s.fs) (hlo : 2 < fd) (hu : InUse s.fs fd) :
    ∃ i, Records s.fs fd i ∧ fdLocal2global s.fs fd.toNatClampNeg = .ok i := by
  obtain ⟨hhi, hentry⟩ := hu
  obtain ⟨i, hi⟩ := Option.ne_none_iff_exists'.mp hentry
  obtain ⟨hge, hnonneg, hlt⟩ := index_above hlo
  obtain ⟨hmax, hopen⟩ := h.files _ i hge hi
  refine ⟨i, ⟨⟨hnonneg, hhi⟩, hi, hmax, hopen⟩, ?_⟩
  rw [fdLocal2global, if_neg (Nat.not_le.mpr (hlt.mp hhi)), hi]
  simp only [ASSERT_true hmax, ok_bind]
  rfl

/-- The first three lead to entries that no file has. -/
theorem stream (h : Seen s.fs) (hk : k < 3) : fdLocal2global s.fs k = .ok k := by
  have hmax : k < MAX_FILE_OPEN := by unfold MAX_FILE_OPEN; omega
  have hin : ¬ MAX_FILES_OPEN_PER_PROC ≤ k := by unfold MAX_FILES_OPEN_PER_PROC; omega
  rw [fdLocal2global, if_neg hin, h.std k hk]
  simp only [ASSERT_true hmax, ok_bind]
  rfl

theorem stream_not_records (h : Seen s.fs) (hlo : ¬ 2 < fd) (i : Nat) : ¬ Records s.fs fd i := by
  intro hr
  have hlt := stream_index hlo
  obtain rfl := Option.some.inj (hr.entry.symm.trans (h.std _ hlt))
  exact hr.isOpen (by rw [h.streams _ hlt])

theorem close_right_iff (h : Seen s.fs) : Right s fd .close ↔ Call.Takes s fd .close := by
  by_cases hlo : 2 < fd
  · by_cases hu : InUse s.fs fd
    · obtain ⟨i, hr, hi⟩ := h.inUse hlo hu
      refine iff_of_true (.file hr ?_) fun _ => hu
      have hindex : 2 < fd.toNatClampNeg := (index_above hlo).1
      simp only [Call.exec, sysClose, if_pos hlo, ZhuOS.sysClose, if_pos hindex, hi, ok_bind,
        Call.onFile]
      cases fileClose s.fs i with
      | error f => rfl
      | ok r => rfl
    · obtain ⟨f, hf⟩ := local2global_error hlo hu
      refine iff_of_false (Right.not_error (f := f) ?_ fun i hr => hu hr.inUse)
        fun ht => hu (ht hlo)
      have hindex : 2 < fd.toNatClampNeg := (index_above hlo).1
      simp only [Call.exec, sysClose, if_pos hlo, ZhuOS.sysClose, if_pos hindex, hf, error_bind]
  · refine iff_of_true (.refuses ?_) fun hlt => absurd hlt hlo
    simp only [Call.exec, sysClose, if_neg hlo]
    rfl

/-- `sys_write` to standard input or standard error. -/
theorem stream_write (h : Seen s.fs) (hk : k < 3) (buf : Bytes) (count : UInt32) :
    ZhuOS.sysWrite s.fs k buf count = .ok (-1, s.fs) := by
  have hread : ¬ writes (s.fs.fileTable k).fdFlag := by
    rw [h.streams k hk]
    decide
  simp only [ZhuOS.sysWrite, h.stream hk, ok_bind, if_neg hread]
  rfl

theorem write_right_iff (h : Seen s.fs) :
    Right s fd (.write count) ↔ Call.Takes s fd (.write count) := by
  by_cases hlo : 2 < fd
  · have hneg : ¬ fd < 0 := Int32.not_lt.mpr (index_above hlo).2.1
    have hout : fd ≠ stdout_no := by
      rintro rfl
      exact absurd hlo (by decide)
    by_cases hu : InUse s.fs fd
    · obtain ⟨i, hr, hi⟩ := h.inUse hlo hu
      refine iff_of_true ?_ ⟨fun he => absurd he hout, fun _ => hu⟩
      by_cases hw : writes (s.fs.fileTable i).fdFlag
      · refine .file hr ?_
        simp only [Call.exec, sysWrite, if_neg hneg, if_neg hout, ZhuOS.sysWrite, hi, ok_bind,
          if_pos hw, Call.onFile]
      · refine .refuses ?_
        simp only [Call.exec, sysWrite, if_neg hneg, if_neg hout, ZhuOS.sysWrite, hi, ok_bind,
          if_neg hw]
        rfl
    · obtain ⟨f, hf⟩ := local2global_error hlo hu
      refine iff_of_false (Right.not_error (f := f) ?_ fun i hr => hu hr.inUse)
        fun ht => hu (ht.2 hlo)
      simp only [Call.exec, sysWrite, if_neg hneg, if_neg hout, ZhuOS.sysWrite, hf, error_bind]
  · rcases index_below hlo with hneg | rfl | rfl | rfl
    · have hout : fd ≠ stdout_no := by
        rintro rfl
        exact absurd hneg (by decide)
      refine iff_of_true (.refuses ?_) ⟨fun he => absurd he hout, fun hlt => absurd hlt hlo⟩
      simp only [Call.exec, sysWrite, if_pos hneg]
      rfl
    · refine iff_of_true (.refuses ?_) ⟨nofun, fun hlt => absurd hlt hlo⟩
      change (ZhuOS.sysWrite s.fs 0 s.buf count >>= fun (ret, fs) => _) = _
      rw [h.stream_write (by decide)]
      rfl
    · by_cases hfits : FitsConsole s.buf count
      · refine iff_of_true (.console rfl rfl ?_) ⟨fun _ => hfits, fun hlt => absurd hlt hlo⟩
        change (tmpString s.buf count.toNat >>= fun str => _) = _
        rw [tmpString_ok hfits]
        rfl
      · refine iff_of_false (Right.not_error (f := .outOfBounds) ?_ (h.stream_not_records hlo))
          fun ht => hfits (ht.1 rfl)
        change (tmpString s.buf count.toNat >>= fun str => _) = _
        rw [tmpString_error hfits]
        rfl
    · refine iff_of_true (.refuses ?_) ⟨nofun, fun hlt => absurd hlt hlo⟩
      change (ZhuOS.sysWrite s.fs 2 s.buf count >>= fun (ret, fs) => _) = _
      rw [h.stream_write (by decide)]
      rfl

theorem read_right_iff (h : Seen s.fs) :
    Right s fd (.read count) ↔ Call.Takes s fd (.read count) := by
  by_cases hlo : 2 < fd
  · have hfile : ¬ (fd < 0 ∨ fd = stdout_no ∨ fd = stderr_no) ∧ fd ≠ stdin_no := by
      have hneg : ¬ fd < 0 := Int32.not_lt.mpr (index_above hlo).2.1
      refine ⟨?_, ?_⟩
      · rintro (hlt | rfl | rfl)
        · exact hneg hlt
        · exact absurd hlo (by decide)
        · exact absurd hlo (by decide)
      · rintro rfl
        exact absurd hlo (by decide)
    obtain ⟨hstream, hin⟩ := hfile
    by_cases hu : InUse s.fs fd
    · obtain ⟨i, hr, hi⟩ := h.inUse hlo hu
      refine iff_of_true (.file hr ?_) fun _ => hu
      simp only [Call.exec, sysRead, if_neg hstream, if_neg hin, ZhuOS.sysRead, hi, ok_bind,
        Call.onFile]
    · obtain ⟨f, hf⟩ := local2global_error hlo hu
      refine iff_of_false (Right.not_error (f := f) ?_ fun i hr => hu hr.inUse)
        fun ht => hu (ht hlo)
      simp only [Call.exec, sysRead, if_neg hstream, if_neg hin, ZhuOS.sysRead, hf, error_bind]
  · refine iff_of_true ?_ fun hlt => absurd hlt hlo
    have hrefuses : fd < 0 ∨ fd = stdout_no ∨ fd = stderr_no → Right s fd (.read count) := by
      intro hstream
      refine .refuses ?_
      simp only [Call.exec, sysRead, if_pos hstream]
      rfl
    rcases index_below hlo with hneg | rfl | hout
    · exact hrefuses (.inl hneg)
    · have hexec : Call.exec s stdin_no (.read count) =
          .ok (if count = 0 then -1 else count.toInt32.toInt, readKeys count.toNat 0 s) := rfl
      by_cases hz : count = 0
      · refine .refuses ?_
        rw [hexec, if_pos hz, hz]
        rfl
      · refine .keyboard rfl rfl ?_
        rw [hexec, if_neg hz, readKeys_eq]
    · exact hrefuses (.inr hout)

/-- `sys_lseek` behind its tests. -/
theorem seek_eq (offset : Int32) {whence : UInt8} {i ref : Nat} (hnonneg : 0 ≤ fd)
    (hw : 0 < whence ∧ whence < 4) (hi : fdLocal2global s.fs fd.toNatClampNeg = .ok i)
    (href : (s.fs.fileTable i).fdInode = some ref) :
    ZhuOS.sysLseek s.fs fd.toInt offset whence = do
      let nd ← s.fs.inodeAt ref
      let newPos := seekTo (s.fs.fileTable i) nd offset whence
      if newPos < 0 ∨ nd.iSize.toInt32 - 1 < newPos then return (-1, s.fs)
      else return (newPos.toInt, s.fs.setPos i newPos.toUInt32) := by
  have hsign : ¬ fd.toInt < 0 := not_lt.mpr (Int32.le_iff_toInt_le.mp hnonneg)
  simp only [ZhuOS.sysLseek, if_neg hsign, ASSERT_true hw, ok_bind, Int32.toNat_toInt, hi, href]
  rfl

theorem lseek_right_iff (h : Seen s.fs) {offset : Int32} {whence : UInt8}
    (hw : 0 < whence ∧ whence < 4) :
    Right s fd (.lseek offset whence) ↔ Call.Takes s fd (.lseek offset whence) := by
  have hsign : fd < 0 ↔ fd.toInt < 0 := Int32.lt_iff_toInt_lt
  by_cases hneg : fd < 0
  · refine iff_of_true (.refuses ?_) fun hnonneg => absurd hneg (Int32.not_lt.mpr hnonneg)
    simp only [Call.exec, sysLseek, ZhuOS.sysLseek, if_pos (hsign.mp hneg)]
    rfl
  · have hnonneg : 0 ≤ fd := Int32.not_lt.mp hneg
    rw [hsign] at hneg
    by_cases hlo : 2 < fd
    · by_cases hu : InUse s.fs fd
      · obtain ⟨i, hr, hi⟩ := h.inUse hlo hu
        obtain ⟨ref, href⟩ := Option.ne_none_iff_exists'.mp hr.isOpen
        refine iff_of_true (.file hr ?_) fun _ => ⟨hlo, hu⟩
        have hseek := seek_eq offset hnonneg hw hi href
        simp only [Call.exec, sysLseek, hseek, Call.onFile, href, Option.elim, ok_bind]
        cases s.fs.inodeAt ref with
        | error f => rfl
        | ok nd =>
          simp only [ok_bind]
          by_cases hout : seekTo (s.fs.fileTable i) nd offset whence < 0 ∨
              nd.iSize.toInt32 - 1 < seekTo (s.fs.fileTable i) nd offset whence
          · simp only [if_pos hout]
            rfl
          · simp only [if_neg hout]
            rfl
      · obtain ⟨f, hf⟩ := local2global_error hlo hu
        refine iff_of_false (Right.not_error (f := f) ?_ fun i hr => hu hr.inUse)
          fun ht => hu (ht hnonneg).2
        simp only [Call.exec, sysLseek, ZhuOS.sysLseek, if_neg hneg, ASSERT_true hw, ok_bind,
          Int32.toNat_toInt, hf, error_bind]
    · have hlt : fd.toNatClampNeg < 3 := stream_index hlo
      refine iff_of_false (Right.not_error (f := .badAddress) ?_ (h.stream_not_records hlo))
        fun ht => hlo (ht hnonneg).1
      simp only [Call.exec, sysLseek, ZhuOS.sysLseek, if_neg hneg, ASSERT_true hw, ok_bind,
        Int32.toNat_toInt, h.stream hlt, h.streams _ hlt, error_bind]

end Seen

/-- After any opens and closes, of whatever processes, a call is right exactly if it takes
its descriptor. -/
theorem descriptors_right_iff {w₀ w : FdWorld Nat} {calls : List OpenCall} (hboot : Booted w₀)
    (hrun : Guarded.Run OpenCall.system w₀ calls w) (p : Nat) {s : State} (hs : s.fs = w.load p)
    (fd : Int32) {call : Call} (hw : call.Seeks) : Right s fd call ↔ call.Takes s fd := by
  have hseen : Seen s.fs := hs ▸ (hrun.preserved tables_preserved hboot.right).seen p
  cases call with
  | close => exact hseen.close_right_iff
  | write count => exact hseen.write_right_iff
  | read count => exact hseen.read_right_iff
  | lseek offset whence => exact hseen.lseek_right_iff hw

/-! ## Runs -/

/-- The image of `writerStart`, with the descriptors of `init_thread`. -/
def fdStart : FdWorld Nat := ⟨writerStart.fs, fun _ => initFdTable⟩

theorem fdStart_booted : Booted fdStart := ⟨fun _ => rfl, fun _ => rfl⟩

/-- The terminal and the buffer of a call that does not care. -/
def seenBy (w : FdWorld Nat) (p : Nat) : State := ⟨w.load p, [], fun _ => 0, fun _ => 0⟩

/-- A file that is open is read. -/
theorem descriptors_right_iff_read : ∃ w, Guarded.Run OpenCall.system fdStart
    [.open 1 pathF O_RDONLY] w ∧ Right (seenBy w 1) 3 (.read 9) := by
  have hcheck : ([OpenCall.open 1 pathF O_RDONLY].foldlM OpenCall.exec fdStart).toOption.any
      (fun w => (w.fdTables 1 3).isSome) = true := by
    decide +kernel
  obtain ⟨w, hrun, hentry⟩ :=
    Guarded.Run.of_check (M := OpenCall.system) (fun _ _ => trivial) hcheck
  have hiff : Right (seenBy w 1) 3 (.read 9) ↔ Call.Takes (seenBy w 1) 3 (.read 9) :=
    descriptors_right_iff fdStart_booted hrun 1 rfl 3 trivial
  refine ⟨w, hrun, hiff.mpr ?_⟩
  intro _
  exact ⟨by decide, Option.isSome_iff_ne_none.mp hentry⟩

/-- A file that is open is closed, and closed again; a number behind the table is written
to; and `sys_lseek` is called on standard output. -/
theorem descriptors_wrong : Booted fdStart ∧ ∃ w, Guarded.Run OpenCall.system fdStart
    [.open 1 pathF O_RDONLY, .close 1 3] w ∧ ¬ Right (seenBy w 1) 3 .close ∧
    ¬ Right (seenBy w 1) 8 (.write 1) ∧ ¬ Right (seenBy w 1) 1 (.lseek 0 SEEK_SET) := by
  have hcheck : ([OpenCall.open 1 pathF O_RDONLY, .close 1 3].foldlM OpenCall.exec
      fdStart).toOption.any (fun w => (w.fdTables 1 3).isNone) = true := by
    decide +kernel
  obtain ⟨w, hrun, hentry⟩ :=
    Guarded.Run.of_check (M := OpenCall.system) (fun _ _ => trivial) hcheck
  have hseen : Seen (seenBy w 1).fs :=
    (hrun.preserved tables_preserved fdStart_booted.right).seen 1
  refine ⟨fdStart_booted, w, hrun, ?_, ?_, ?_⟩
  · rw [hseen.close_right_iff]
    intro ht
    exact (ht (by decide)).2 (Option.isNone_iff_eq_none.mp hentry)
  · rw [hseen.write_right_iff]
    intro ht
    exact absurd (ht.2 (by decide)).1 (by decide)
  · rw [hseen.lseek_right_iff (by decide)]
    intro ht
    exact absurd (ht (by decide)).1 (by decide)

end ZhuOS.Descriptors
