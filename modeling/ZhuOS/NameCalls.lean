import ZhuOS.Looks
import ZhuOS.Names

/-!
# Calls on a tree of names

The calls that make directories, save files, remove them and look at them answer from the names
and do to the disk what they say of the names.
-/

namespace ZhuOS

open ByteMem Slots

set_option maxRecDepth 2000

variable {fs fs' : Fs} {dirs files : Nat → Prop} {name : List UInt8} {path : List UInt8}
  {front : List (List UInt8)}

/-! ## The calls on the names -/

inductive NameCall
  | mkdir (path : List UInt8)
  | rmdir (path : List UInt8)
  | unlink (path : List UInt8)
  | save (path : List UInt8) (calls : List (Bytes × UInt32))
  | stat (path : List UInt8)

/-- What a call returns, and what `sys_stat` fills in of a directory and of a file. -/
inductive Answer
  | ret (r : Int)
  | dir
  | file (size : UInt32)

def statAnswer (ret : Int) (buf : Stat) : Answer :=
  if ret = -1 then .ret ret
  else if buf.stFiletype = FT_DIRECTORY then .dir
  else .file buf.stSize

/-- The answer of the call, and the file system behind it. -/
def NameCall.run (fs : Fs) : NameCall → Except Fault (Answer × Fs)
  | .mkdir path => do
    let (ret, fs) ← sysMkdir fs path
    return (.ret ret, fs)
  | .rmdir path => do
    let (ret, fs) ← sysRmdir fs path
    return (.ret ret, fs)
  | .unlink path => do
    let (ret, fs) ← sysUnlink fs path
    return (.ret ret, fs)
  | .save path calls => do
    let (ret, _, fs) ← ZhuOS.save fs path calls
    return (.ret ret, fs)
  | .stat path => do
    let (ret, buf, fs) ← sysStat fs path ⟨0, 0, 0⟩
    return (statAnswer ret buf, fs)

/-- What each list of names leads to. -/
abbrev NameMap := List (List UInt8) → Option Node

/-- A new node, where the last name alone is missing. -/
def addNode (t : NameMap) (path : List (List UInt8)) (node : Node) : Answer × NameMap :=
  if t path = none ∧ t path.dropLast = some .dir then
    (.ret 0, Function.update t path (some node))
  else (.ret (-1), t)

def isFile : Option Node → Bool
  | some (.file _) => true
  | _ => false

/-- The search of a path goes no further than a file. -/
def firstFile (t : NameMap) (path : List (List UInt8)) : Option (List (List UInt8)) :=
  path.inits.find? fun front => isFile (t front)

def cutFile (t : NameMap) (path : List (List UInt8)) : Answer × NameMap :=
  match firstFile t path with
  | some front => (.ret 0, Function.update t front none)
  | none => (.ret (-1), t)

def Node.answer : Node → Answer
  | .dir => .dir
  | .file content => .file (.ofNat content.length)

def lookAt (t : NameMap) (path : List (List UInt8)) : Answer :=
  (t ((firstFile t path).getD path)).elim (.ret (-1)) Node.answer

/-- What a call answers, and what it does to the names. -/
def NameCall.onNames (t : NameMap) : NameCall → Answer × NameMap
  | .mkdir path => addNode t (components path) .dir
  | .rmdir _ => (.ret (-1), t)
  | .unlink path => cutFile t (components path)
  | .save path calls => addNode t (components path) (.file (saved calls))
  | .stat path => (lookAt t (components path), t)

/-- The paths are plain, and there is room for what comes. A file is saved in a directory that is
there: where one is missing `sys_open` leaves the last that it found open. -/
def NameCall.Ready (fs : Fs) : NameCall → Prop
  | .mkdir path => PlainPath path ∧
    ∀ front name p, MissingAt fs (components path) front name [] p → NodeRoom fs p.toNat
  | .rmdir path => PlainPath path
  | .unlink path => PlainPath path
  | .stat path => PlainPath path
  | .save path calls => PlainPath path ∧ path.getLast? ≠ some slash ∧
    names fs (components path).dropLast = some .dir ∧
    ∀ front name p, MissingAt fs (components path) front name [] p →
      SaveRoom fs p.toNat (saved calls)

/-! ## The names and the walk -/

namespace PlainPath

variable (hp : PlainPath path)
include hp

theorem split : ∃ front name, components path = front ++ [name] :=
  ⟨_, _, (List.dropLast_append_getLast hp.some).symm⟩

theorem walk_front {rest : List (List UInt8)} (hsplit : components path = front ++ rest)
    (x : UInt32 × UInt32) :
    walk fs.disk fs.part x front = NameTree.follow (childOf fs) x front := by
  have hmem : ∀ c ∈ front, c ∈ components path := fun c hc => hsplit ▸ List.mem_append_left _ hc
  exact walk_follow (fun c hc => mem_components (hmem c hc)) fun c hc => hp.proper c (hmem c hc)

theorem last (hsplit : components path = front ++ [name]) :
    name ≠ [] ∧ name ≠ dot ∧ name ≠ dotDot := by
  have hmem : name ∈ components path := by
    rw [hsplit]
    simp
  exact ⟨mem_components hmem, hp.proper name hmem⟩

end PlainPath

/-- A list of names leads to a directory. -/
theorem names_dir {ks : List (List UInt8)} : names fs ks = some .dir ↔
    ∃ p, NameTree.follow (childOf fs) (0, FT_DIRECTORY) ks = some (p, FT_DIRECTORY) := by
  rw [names, Option.map_eq_some_iff]
  constructor
  · rintro ⟨⟨p, t⟩, hx, hnode⟩
    refine ⟨p, hx.trans ?_⟩
    by_cases ht : t = FT_DIRECTORY
    · rw [ht]
    · rw [nodeOf, if_neg ht] at hnode
      cases hnode
  · rintro ⟨p, hx⟩
    exact ⟨_, hx, if_pos rfl⟩

theorem names_none {ks : List (List UInt8)} : names fs ks = none ↔
    NameTree.follow (childOf fs) (0, FT_DIRECTORY) ks = none := by
  rw [names, Option.map_eq_none_iff]

/-- The last name alone is missing of a path. -/
theorem names_missing (hp : PlainPath path) (hsplit : components path = front ++ [name]) :
    (∃ p, MissingAt fs (components path) front name [] p) ↔
      names fs (components path) = none ∧ names fs (components path).dropLast = some .dir := by
  obtain ⟨hne, hproper⟩ := hp.last hsplit
  rw [hsplit, List.dropLast_concat, names_dir, names_none, NameTree.follow_snoc]
  constructor
  · rintro ⟨p, hmiss⟩
    have hfront := hmiss.leads
    rw [hp.walk_front hsplit] at hfront
    refine ⟨?_, p, hfront⟩
    rw [hfront, Option.bind_some, childOf_step hne hproper, walkStep_dir, hmiss.unlisted]
    rfl
  · rintro ⟨hnone, p, hfront⟩
    rw [hfront, Option.bind_some, childOf_step hne hproper, walkStep_dir,
      Option.map_eq_none_iff] at hnone
    exact ⟨p, rfl, (hp.walk_front hsplit _).trans hfront, hnone⟩

/-! ## One call -/

/-- Every directory and every file that is in use has a path, and a file more can be opened. -/
structure TreeFs (fs : Fs) (dirs files : Nat → Prop) : Prop extends SoundFs fs dirs files where
  room : OpenRoom fs
  reached : NameTree.Reached (childOf fs) (0, FT_DIRECTORY) (Listed dirs files)

/-- What a call has done: the state is sound again, the answer and the names are the ones of the
call on the names. -/
def Does (fs : Fs) (c : NameCall) : Prop :=
  ∃ r fs' dirs files, c.run fs = .ok (r, fs') ∧ TreeFs fs' dirs files ∧
    (r, names fs') = c.onNames (names fs)

namespace TreeFs

variable (h : TreeFs fs dirs files)
include h

theorem live : Live fs.part.openInodes := ⟨h.openOk.refs, h.openOk.counts⟩

/-- A call that refuses. -/
theorem does_nothing {c : NameCall} {r : Answer} (hrun : c.run fs = .ok (r, fs))
    (hnames : c.onNames (names fs) = (r, names fs)) : Does fs c :=
  ⟨r, fs, dirs, files, hrun, h, hnames.symm⟩

/-- The tree with one node more. -/
theorem grows {p : UInt32} {n : Nat} {q : Nat × Nat} {s₀ s : NodeState} {de : DirEntry}
    {nd : Inode} (g : Gains fs fs' dirs p.toNat n q s₀ de s nd)
    (hnode : NewNode fs' p.toNat n de.stored.fType)
    (hfront : NameTree.follow (childOf fs) (0, FT_DIRECTORY) front = some (p, FT_DIRECTORY))
    (htables : TablesFree fs fs') :
    TreeFs fs' (withNew dirs n (de.stored.fType = FT_DIRECTORY))
      (withNew files n (de.stored.fType = FT_REGULAR)) where
  toSoundFs := g.sound h.toSoundFs hnode
  room := h.room.kept htables
  reached x hx := by
    refine (g.grown h.toSoundFs hnode).reached h.rooted hfront h.reached x ?_
    obtain ⟨htype, hold | ⟨hnew, hn⟩⟩ | ⟨htype, hold | ⟨hnew, hn⟩⟩ := hx
    · exact .inl (.inl ⟨htype, hold⟩)
    · exact .inr (Prod.ext (UInt32.toNat_inj.mp (hn.trans g.newToNat.symm))
        (htype.trans hnew.symm))
    · exact .inl (.inr ⟨htype, hold⟩)
    · exact .inr (Prod.ext (UInt32.toNat_inj.mp (hn.trans g.newToNat.symm))
        (htype.trans hnew.symm))

/-- The tree with one file less. -/
theorem shrinks {p : UInt32} {q : Nat × Nat} {e : DirEntry} {nd : Inode}
    (g : Loses fs fs' dirs files p.toNat e.iNo.toNat q e nd) (htype : e.fType = FT_REGULAR)
    (htables : TablesFree fs fs') : TreeFs fs' dirs (without files e.iNo.toNat) where
  toSoundFs := g.sound h.toSoundFs
  room := h.room.kept htables
  reached x hx := by
    have hold : Listed dirs files x := hx.imp_right (And.imp_right And.left)
    obtain ⟨ks, hks⟩ := h.reached x hold
    refine ⟨ks, (g.grown h.toSoundFs htype).before (g.sound h.toSoundFs).rooted hks ?_⟩
    rintro rfl
    obtain ⟨hdir, -⟩ | ⟨-, -, hne⟩ := hx
    · exact absurd hdir (by decide : FT_REGULAR ≠ FT_DIRECTORY)
    · exact hne rfl

/-- Where the last name alone is missing a node is added, else nothing happens. -/
theorem adds {c : NameCall} {node : Node} (hp : PlainPath path)
    (hnames : c.onNames (names fs) = addNode (names fs) (components path) node)
    (hrefuses : (∀ front name p, ¬ MissingAt fs (components path) front name [] p) →
      c.run fs = .ok (.ret (-1), fs))
    (hmakes : ∀ front name p, MissingAt fs (components path) front name [] p →
      ∃ fs' n q s₀ de s nd, c.run fs = .ok (.ret 0, fs') ∧ Gains fs fs' dirs p.toNat n q s₀ de s nd ∧
        NewNode fs' p.toNat n de.stored.fType ∧ de.stored.name = name ∧
          nodeOf fs' (.ofNat n, de.stored.fType) = node ∧ TablesFree fs fs') : Does fs c := by
  obtain ⟨front, name, hsplit⟩ := hp.split
  have hiff := @names_missing fs name path front hp hsplit
  by_cases hmiss : ∃ p, MissingAt fs (components path) front name [] p
  · obtain ⟨p, hmiss⟩ := hmiss
    obtain ⟨fs', n, q, s₀, de, s, nd, hrun, hgains, hnode, rfl, rfl, htables⟩ :=
      hmakes front name p hmiss
    have hfront := (hp.walk_front hsplit _).symm.trans hmiss.leads
    refine ⟨.ret 0, fs', _, _, hrun, h.grows hgains hnode hfront htables, ?_⟩
    rw [hnames, addNode, if_pos (hiff.mp ⟨p, hmiss⟩), hgains.names h.toSoundFs hnode hfront,
      hsplit]
  · refine h.does_nothing (hrefuses fun front' name' p hmiss' => hmiss ?_) ?_
    · obtain ⟨rfl, hlast⟩ := List.append_inj' (hsplit.symm.trans hmiss'.split) rfl
      obtain rfl := (List.cons.inj hlast).1
      exact ⟨p, hmiss'⟩
    · rw [hnames, addNode, if_neg fun hboth => hmiss (hiff.mpr hboth)]

theorem does_mkdir (hready : (NameCall.mkdir path).Ready fs) : Does fs (.mkdir path) := by
  obtain ⟨hp, hroom⟩ := hready
  refine h.adds hp rfl (fun hnone => ?_) fun front name p hmiss => ?_
  · simp only [NameCall.run, sysMkdir_refuses h.treeOk h.heap hp.toPathName hp.some hnone, ok_bind]
    rfl
  · obtain ⟨fs', n, q, s₀, de, s, nd, hrun, hgains, hnode, hname, htype⟩ :=
      h.sysMkdir_makes hp.toPathName hmiss (hroom front name p hmiss)
    refine ⟨fs', n, q, s₀, de, s, nd, ?_, hgains, htype ▸ hnode, hname, if_pos htype,
      (sysMkdir_quiet h.live hrun).tables⟩
    simp only [NameCall.run, hrun, ok_bind]
    rfl

theorem does_save {calls : List (Bytes × UInt32)} (hready : (NameCall.save path calls).Ready fs) :
    Does fs (.save path calls) := by
  obtain ⟨hp, hend, hparent, hroom⟩ := hready
  refine h.adds hp rfl (fun hnone => ?_) fun front name p hmiss => ?_
  · obtain ⟨front, name, hsplit⟩ := hp.split
    rw [hsplit, List.dropLast_concat, names_dir] at hparent
    obtain ⟨p, hfront⟩ := hparent
    have hwalk := (hp.walk_front hsplit _).trans hfront
    cases hfound : lookup fs.disk (diskInode fs.disk fs.part p.toNat) name with
    | none => exact absurd ⟨hsplit, hwalk, hfound⟩ (hnone front name p)
    | some e =>
      have hopen := sysOpen_refuses h.treeOk h.heap hp.toPathName hend hsplit hwalk hfound
      simp only [NameCall.run, save, hopen, ok_bind, if_true]
      rfl
  · obtain ⟨fs', n, q, s₀, de, s, nd, hrun, hgains, hnode, hname, htype, hcontent, htables⟩ :=
      h.save_makes hp.toPathName hend hmiss (hroom front name p hmiss) h.room
    refine ⟨fs', n, q, s₀, de, s, nd, ?_, hgains, htype ▸ hnode, hname, ?_, htables⟩
    · simp only [NameCall.run, hrun, ok_bind]
      rfl
    · have hnot : de.stored.fType ≠ FT_DIRECTORY := by
        rw [htype]
        decide
      have hnat : (UInt32.ofNat n).toNat = n := hgains.newToNat
      rw [nodeOf, if_neg hnot, hnat, hcontent]

end TreeFs

/-! ## The first file on the way -/

theorem isFile_iff {ks : List (List UInt8)} : isFile (names fs ks) = true ↔
    ∃ x, NameTree.follow (childOf fs) (0, FT_DIRECTORY) ks = some x ∧ x.2 ≠ FT_DIRECTORY := by
  unfold names
  cases hx : NameTree.follow (childOf fs) (0, FT_DIRECTORY) ks with
  | none => simp [isFile]
  | some x =>
    rw [Option.map_some, nodeOf]
    by_cases htype : x.2 = FT_DIRECTORY
    · simp [htype, isFile]
    · simp [htype, isFile]

/-- No names lead on from a file. -/
theorem follow_past {ks ks' : List (List UInt8)} {x : UInt32 × UInt32}
    (hx : NameTree.follow (childOf fs) (0, FT_DIRECTORY) ks = some x) (htype : x.2 ≠ FT_DIRECTORY)
    (hne : ks' ≠ []) : NameTree.follow (childOf fs) (0, FT_DIRECTORY) (ks ++ ks') = none := by
  rw [NameTree.follow_append, hx, Option.bind_some]
  cases ks' with
  | nil => exact absurd rfl hne
  | cons name ks' =>
    rw [NameTree.follow, childOf_file htype]
    rfl

/-- Of two files on one way each is the other. -/
theorem file_once {ks ks' comps : List (List UInt8)} (hks : ks <+: comps) (hks' : ks' <+: comps)
    (hfile : isFile (names fs ks) = true) (hfile' : isFile (names fs ks') = true) : ks = ks' := by
  have hsame : ∀ {a b : List (List UInt8)}, a <+: b → isFile (names fs a) = true →
      isFile (names fs b) = true → a = b := by
    rintro a b ⟨c, rfl⟩ ha hb
    obtain ⟨x, hx, htype⟩ := isFile_iff.mp ha
    obtain ⟨y, hy, -⟩ := isFile_iff.mp hb
    by_contra hne
    have hc : c ≠ [] := by
      rintro rfl
      exact hne (List.append_nil a).symm
    rw [follow_past hx htype hc] at hy
    cases hy
  obtain hle | hle := List.prefix_or_prefix_of_prefix hks hks'
  · exact hsame hle hfile hfile'
  · exact (hsame hle hfile' hfile).symm

theorem firstFile_some {rest : List (List UInt8)} (hfile : isFile (names fs front) = true) :
    firstFile (names fs) (front ++ rest) = some front := by
  have hmem : front ∈ (front ++ rest).inits :=
    (List.mem_inits front (front ++ rest)).mpr (List.prefix_append front rest)
  have hsome : (firstFile (names fs) (front ++ rest)).isSome :=
    List.find?_isSome.mpr ⟨front, hmem, hfile⟩
  obtain ⟨ks, hks⟩ := Option.isSome_iff_exists.mp hsome
  have hprefix := (List.mem_inits ks (front ++ rest)).mp (List.mem_of_find?_eq_some hks)
  have hfirst : isFile (names fs ks) = true := by simpa using List.find?_some hks
  obtain rfl : ks = front := file_once hprefix (List.prefix_append front rest) hfirst hfile
  exact hks

theorem firstFile_none {comps : List (List UInt8)}
    (hnone : ∀ front rest, comps = front ++ rest → ¬ isFile (names fs front) = true) :
    firstFile (names fs) comps = none := by
  rw [firstFile, List.find?_eq_none]
  intro ks hks
  obtain ⟨rest, rfl⟩ := (List.mem_inits ks comps).mp hks
  exact hnone ks rest rfl

theorem statAnswer_found (x : UInt32 × UInt32) :
    statAnswer 0 (statOf fs x) = (nodeOf fs x).answer := by
  have hret : ¬ (0 : Int) = -1 := by decide
  rw [statAnswer, if_neg hret, nodeOf]
  by_cases htype : x.2 = FT_DIRECTORY
  · rw [if_pos htype]
    exact if_pos htype
  · have hlen : (contentOf fs x.1.toNat).length =
        (diskInode fs.disk fs.part x.1.toNat).iSize.toNat := by
      rw [contentOf, List.length_map, List.length_range]
    rw [if_neg htype, Node.answer, hlen, UInt32.ofNat_toNat]
    exact if_neg htype

namespace SoundFs

variable (h : SoundFs fs dirs files) (hp : PlainPath path)
include h hp

/-- The file a plain path leads over. -/
theorem fileOn_iff {rest : List (List UInt8)} (hsplit : components path = front ++ name :: rest) :
    isFile (names fs (front ++ [name])) = true ↔ ∃ p e,
      walk fs.disk fs.part (0, FT_DIRECTORY) front = some (p, FT_DIRECTORY) ∧
        lookup fs.disk (diskInode fs.disk fs.part p.toNat) name = some e ∧ e.fType = FT_REGULAR := by
  have hmem : name ∈ components path := by
    rw [hsplit]
    simp
  rw [isFile_iff, hp.walk_front hsplit, NameTree.follow_snoc]
  constructor
  · rintro ⟨x, hx, htype⟩
    obtain ⟨⟨p, t⟩, hfront, hchild⟩ := Option.bind_eq_some_iff.mp hx
    obtain rfl : t = FT_DIRECTORY := childOf_dir hchild
    obtain ⟨-, -, -, e, he, rfl⟩ := (childOf_entry rfl).mp hchild
    have hin := h.rooted.closed _ _ _ (h.rooted.inside hfront) hchild
    obtain ⟨hdir, -⟩ | ⟨hfile, -⟩ := hin
    · exact absurd hdir htype
    · exact ⟨p, e, hfront, he, hfile⟩
  · rintro ⟨p, e, hfront, he, htype⟩
    refine ⟨(e.iNo, e.fType), ?_, ?_⟩
    · rw [hfront, Option.bind_some]
      exact (childOf_entry rfl).mpr ⟨mem_components hmem, (hp.proper name hmem).1,
        (hp.proper name hmem).2, e, he, rfl⟩
    · rw [htype]
      exact (by decide : FT_REGULAR ≠ FT_DIRECTORY)

/-- A plain path does not lead to the root directory. -/
theorem not_leadsToRoot : ¬ LeadsToRoot fs path := by
  intro hroot
  obtain ⟨front, name, hsplit⟩ := hp.split
  rw [LeadsToRoot, hp.walk_front (List.append_nil _).symm, hsplit, NameTree.follow_snoc,
    Option.bind_eq_some_iff] at hroot
  obtain ⟨x, hx, hchild⟩ := hroot
  exact h.rooted.notRoot x name (h.rooted.inside hx) hchild

end SoundFs

namespace TreeFs

variable (h : TreeFs fs dirs files)
include h

theorem does_rmdir (hp : PlainPath path) : Does fs (.rmdir path) := by
  refine h.does_nothing ?_ rfl
  simp only [NameCall.run, h.sysRmdir_same hp.toPathName (h.not_leadsToRoot hp), ok_bind]
  rfl

theorem does_unlink (hp : PlainPath path) : Does fs (.unlink path) := by
  by_cases hfile : ∃ front rest, components path = front ++ rest ∧ isFile (names fs front) = true
  · obtain ⟨front, rest, hsplit, hisFile⟩ := hfile
    have hfirst := @firstFile_some fs front rest hisFile
    cases front using List.reverseRecOn with
    | nil =>
      obtain ⟨x, hx, htype⟩ := isFile_iff.mp hisFile
      cases hx
      exact absurd rfl htype
    | append_singleton front name =>
      have hsplit' : components path = front ++ name :: rest := by
        rw [hsplit, List.append_assoc]
        rfl
      obtain ⟨p, e, hwalk, hfound, htype⟩ := (h.fileOn_iff hp hsplit').mp hisFile
      obtain ⟨fs', q, nd, hrun, hloses⟩ :=
        h.sysUnlink_removes hp.toPathName ⟨front, name, rest, hsplit', hwalk, hfound, htype⟩
      have hfront := (hp.walk_front hsplit' _).symm.trans hwalk
      obtain ⟨-, rfl⟩ := lookup_mem hfound
      refine ⟨.ret 0, fs', dirs, _, ?_,
        h.shrinks hloses htype (sysUnlink_quiet h.live hrun).tables, ?_⟩
      · simp only [NameCall.run, hrun, ok_bind]
        rfl
      · rw [NameCall.onNames, hsplit, cutFile, hfirst, hloses.names h.toSoundFs htype hfront]
  · have hnone : ∀ front rest, components path = front ++ rest →
        ¬ isFile (names fs front) = true :=
      fun front rest hsplit hisFile => hfile ⟨front, rest, hsplit, hisFile⟩
    have hrun : sysUnlink fs path = .ok (-1, fs) := by
      refine h.sysUnlink_refuses hp.toPathName (h.not_leadsToRoot hp) ?_
      rintro p e ⟨front, name, rest, hsplit, hwalk, hfound, htype⟩
      refine hnone (front ++ [name]) rest (by rw [hsplit]; simp) ?_
      exact (h.fileOn_iff hp hsplit).mpr ⟨p, e, hwalk, hfound, htype⟩
    refine h.does_nothing (r := .ret (-1)) ?_ ?_
    · simp only [NameCall.run, hrun, ok_bind]
      rfl
    · rw [NameCall.onNames, cutFile, firstFile_none hnone]

/-- What `sys_stat` has found is what the names say. -/
theorem does_look {x : UInt32 × UInt32} (hp : PlainPath path)
    (hx : Answers fs (components path) x)
    (hnode : names fs ((firstFile (names fs) (components path)).getD (components path)) =
      some (nodeOf fs x)) : Does fs (.stat path) := by
  have hrun := @SoundFs.sysStat_answers fs dirs files path x ⟨0, 0, 0⟩ h.toSoundFs hp.toPathName
    (h.not_leadsToRoot hp) hx
  refine h.does_nothing (r := statAnswer 0 (statOf fs x)) ?_ ?_
  · simp only [NameCall.run, hrun, ok_bind]
    rfl
  · rw [NameCall.onNames, lookAt, hnode, Option.elim_some, statAnswer_found]

theorem does_stat (hp : PlainPath path) : Does fs (.stat path) := by
  have hfollow : ∀ {front rest : List (List UInt8)}, components path = front ++ rest → ∀ {x},
      walk fs.disk fs.part (0, FT_DIRECTORY) front = some x ↔
        NameTree.follow (childOf fs) (0, FT_DIRECTORY) front = some x := by
    intro front rest hsplit x
    rw [hp.walk_front hsplit]
  by_cases hfile : ∃ front rest, components path = front ++ rest ∧ isFile (names fs front) = true
  · obtain ⟨front, rest, hsplit, hisFile⟩ := hfile
    obtain ⟨x, hx, htype⟩ := isFile_iff.mp hisFile
    have hlisted := h.rooted.inside hx
    have hregular : x.2 = FT_REGULAR := (hlisted.resolve_left fun hdir => htype hdir.1).1
    refine h.does_look hp ⟨front, rest, hsplit, (hfollow hsplit).mpr hx, .inr hregular⟩ ?_
    rw [hsplit, firstFile_some hisFile, Option.getD_some, names, hx]
    rfl
  · have hnone : ∀ front rest, components path = front ++ rest →
        ¬ isFile (names fs front) = true :=
      fun front rest hsplit hisFile => hfile ⟨front, rest, hsplit, hisFile⟩
    have hwhole : components path = components path ++ [] := (List.append_nil _).symm
    cases hx : NameTree.follow (childOf fs) (0, FT_DIRECTORY) (components path) with
    | some x =>
      refine h.does_look hp ⟨_, [], hwhole, (hfollow hwhole).mpr hx, .inl rfl⟩ ?_
      rw [firstFile_none hnone, Option.getD_none, names, hx]
      rfl
    | none =>
      have hrun : sysStat fs path ⟨0, 0, 0⟩ = .ok (-1, ⟨0, 0, 0⟩, fs) := by
        refine h.sysStat_refuses hp.toPathName (h.not_leadsToRoot hp) ?_
        rintro x ⟨front, rest, hsplit, hwalk, hend⟩
        rw [hfollow hsplit] at hwalk
        obtain rfl | hregular := hend
        · rw [hsplit, List.append_nil, hwalk] at hx
          cases hx
        · refine hnone front rest hsplit (isFile_iff.mpr ⟨x, hwalk, ?_⟩)
          rw [hregular]
          decide
      refine h.does_nothing (r := .ret (-1)) ?_ ?_
      · simp only [NameCall.run, hrun, ok_bind]
        rfl
      · rw [NameCall.onNames, lookAt, firstFile_none hnone, Option.getD_none, names_none.mpr hx,
          Option.elim_none]

/-- Each call does what it says. -/
theorem does {c : NameCall} (hready : c.Ready fs) : Does fs c := by
  cases c with
  | mkdir path => exact h.does_mkdir hready
  | rmdir path => exact h.does_rmdir hready
  | unlink path => exact h.does_unlink hready
  | save path calls => exact h.does_save hready
  | stat path => exact h.does_stat hready

end TreeFs

end ZhuOS
