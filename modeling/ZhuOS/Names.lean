import ZhuOS.Lib.NameTree
import ZhuOS.Removal

/-!
# Names

A sound file system is a tree of names: each directory and each file has one path at most. What
comes or goes with a call changes the answer for one path.
-/

namespace ZhuOS

open ByteMem Slots

set_option maxRecDepth 2000

variable {fs fs' : Fs} {dirs files : Nat → Prop} {name : List UInt8} {x y : UInt32 × UInt32}
  {comps front ks : List (List UInt8)} {n m p : Nat} {q : Nat × Nat} {e de : DirEntry}
  {s s₀ : NodeState} {nd : Inode}

/-! ## From a directory to what it lists -/

/-- The step of a walk by a name other than `.` and `..`. -/
def childOf (fs : Fs) (x : UInt32 × UInt32) (name : List UInt8) : Option (UInt32 × UInt32) :=
  if name = [] ∨ name = dot ∨ name = dotDot then none else walkStep fs.disk fs.part x name

/-- An absolute path to something below the root directory, by names other than `.` and `..`. -/
structure PlainPath (path : List UInt8) : Prop extends PathName path where
  some : components path ≠ []
  proper : ∀ c ∈ components path, c ≠ dot ∧ c ≠ dotDot

theorem childOf_step (hne : name ≠ []) (hproper : name ≠ dot ∧ name ≠ dotDot) :
    childOf fs x name = walkStep fs.disk fs.part x name :=
  if_neg (not_or.mpr ⟨hne, not_or.mpr hproper⟩)

theorem childOf_entry (hx : x.2 = FT_DIRECTORY) : childOf fs x name = some y ↔
    name ≠ [] ∧ name ≠ dot ∧ name ≠ dotDot ∧
      ∃ e, lookup fs.disk (diskInode fs.disk fs.part x.1.toNat) name = some e ∧
        (e.iNo, e.fType) = y := by
  unfold childOf
  by_cases hdots : name = [] ∨ name = dot ∨ name = dotDot
  · rw [if_pos hdots]
    simp only [reduceCtorEq, false_iff]
    tauto
  · obtain ⟨hne, hdot, hdotDot⟩ : name ≠ [] ∧ name ≠ dot ∧ name ≠ dotDot := by tauto
    rw [if_neg hdots, walkStep, if_pos hx, Option.map_eq_some_iff]
    exact ⟨fun h => ⟨hne, hdot, hdotDot, h⟩, fun h => h.2.2.2⟩

theorem childOf_file (hx : x.2 ≠ FT_DIRECTORY) : childOf fs x name = none := by
  unfold childOf
  by_cases hdots : name = [] ∨ name = dot ∨ name = dotDot
  · rw [if_pos hdots]
  · rw [if_neg hdots, walkStep, if_neg hx]

theorem childOf_dir (h : childOf fs x name = some y) : x.2 = FT_DIRECTORY := by
  by_contra hfile
  rw [childOf_file hfile] at h
  cases h

/-- A walk by plain names. -/
theorem walk_follow (hne : ∀ c ∈ comps, c ≠ []) (hproper : ∀ c ∈ comps, c ≠ dot ∧ c ≠ dotDot) :
    walk fs.disk fs.part x comps = NameTree.follow (childOf fs) x comps := by
  induction comps generalizing x with
  | nil => rfl
  | cons c comps ih =>
    rw [walk_cons, NameTree.follow, childOf_step (hne c (.head _)) (hproper c (.head _))]
    congr 1
    funext y
    exact ih (fun c hc => hne c (.tail _ hc)) fun c hc => hproper c (.tail _ hc)

/-- The directories and the files, with their types. -/
def Listed (dirs files : Nat → Prop) (x : UInt32 × UInt32) : Prop :=
  x.2 = FT_DIRECTORY ∧ dirs x.1.toNat ∨ x.2 = FT_REGULAR ∧ files x.1.toNat

theorem Listed.dir (h : Listed dirs files x) (hx : x.2 = FT_DIRECTORY) : dirs x.1.toNat := by
  obtain hdir | hfile := h
  · exact hdir.2
  · rw [hx] at hfile
    exact absurd hfile.1 (by decide)

namespace SoundFs

variable (h : SoundFs fs dirs files)
include h

/-- A child lies in a slot. -/
theorem child_lies (hx : Listed dirs files x) (hchild : childOf fs x name = some y) :
    x.2 = FT_DIRECTORY ∧ dirs x.1.toNat ∧ ∃ q e, LiesIn fs x.1.toNat q e ∧ e.Proper ∧
      e.name = name ∧ (e.iNo, e.fType) = y := by
  have htype := childOf_dir hchild
  have hdir := hx.dir htype
  obtain ⟨hne, hdot, hdotDot, e, he, hy⟩ := (childOf_entry htype).mp hchild
  obtain ⟨q, hq, hslot, rfl⟩ := ((h.shape _ hdir).toNamed.lookup_iff hne).mp he
  exact ⟨htype, hdir, q, e, ⟨hq, hslot⟩, ⟨hdot, hdotDot⟩, rfl, hy⟩

theorem lies_child (hx : x.2 = FT_DIRECTORY) (hdir : dirs x.1.toNat) (hq : LiesIn fs x.1.toNat q e)
    (hproper : e.Proper) : childOf fs x e.name = some (e.iNo, e.fType) := by
  have hne := ((h.shape _ hdir).named q hq.1 e hq.2).1
  have hfound := ((h.shape _ hdir).toNamed.lookup_iff hne).mpr ⟨q, hq.1, hq.2, rfl⟩
  exact (childOf_entry hx).mpr ⟨hne, hproper.1, hproper.2, e, hfound, rfl⟩

/-- The file system is a tree of names. -/
theorem rooted : NameTree.Rooted (childOf fs) (0, FT_DIRECTORY) (Listed dirs files) where
  root := .inl ⟨rfl, h.root⟩
  closed x name y hx hchild := by
    obtain ⟨-, hdir, q, e, hq, hproper, -, rfl⟩ := h.child_lies hx hchild
    obtain ⟨-, hfile | hd⟩ := h.listed _ hdir q e hq
    · exact .inr ⟨hfile.1, hfile.2.2⟩
    · exact .inl hd
  once x x' name name' y hx hx' hchild hchild' := by
    obtain ⟨htype, hdir, q, e, hq, hproper, rfl, rfl⟩ := h.child_lies hx hchild
    obtain ⟨htype', hdir', q', e', hq', hproper', rfl, hsame⟩ := h.child_lies hx' hchild'
    have hno := (congrArg Prod.fst hsame).symm
    obtain ⟨hp, rfl⟩ := h.once _ _ q q' e e' hdir hdir' hq hq' hproper hproper' hno
    have hslot' := hq'.2
    rw [← hp, hq.2] at hslot'
    obtain rfl := Option.some.inj hslot'
    exact ⟨Prod.ext (UInt32.toNat_inj.mp hp) (htype.trans htype'.symm), rfl⟩
  notRoot x name hx hchild := by
    obtain ⟨-, hdir, q, e, hq, hproper, -, hroot⟩ := h.child_lies hx hchild
    exact (h.listed _ hdir q e hq).1 hproper (congrArg Prod.fst hroot)

end SoundFs

/-! ## One name more, one name less -/

theorem slots_lookup {disk disk' : Bytes} {nd nd' : Inode} (h : Named disk nd)
    (h' : Named disk' nd') (hne : name ≠ [])
    (hsame : ∀ q ∈ dirGrid, ∀ e : DirEntry, e.name = name →
      (slot disk' nd' q = some e ↔ slot disk nd q = some e)) :
    lookup disk' nd' name = lookup disk nd name := by
  apply Option.ext
  intro e
  rw [h'.lookup_iff hne, h.lookup_iff hne]
  constructor
  · rintro ⟨q, hq, hslot, hname⟩
    exact ⟨q, hq, (hsame q hq e hname).mp hslot, hname⟩
  · rintro ⟨q, hq, hslot, hname⟩
    exact ⟨q, hq, (hsame q hq e hname).mpr hslot, hname⟩

/-- Directories in which the same lies under a name have the same child of that name. -/
theorem childOf_congr (h : SoundFs fs dirs files) {dirs' files' : Nat → Prop}
    (h' : SoundFs fs' dirs' files') (hx : x.2 = FT_DIRECTORY → dirs x.1.toNat ∧ dirs' x.1.toNat)
    (hsame : dirs x.1.toNat → ∀ q, ∀ e : DirEntry, e.name = name →
      (LiesIn fs' x.1.toNat q e ↔ LiesIn fs x.1.toNat q e)) :
    childOf fs' x name = childOf fs x name := by
  by_cases htype : x.2 = FT_DIRECTORY
  · obtain ⟨hdir, hdir'⟩ := hx htype
    unfold childOf
    by_cases hdots : name = [] ∨ name = dot ∨ name = dotDot
    · rw [if_pos hdots, if_pos hdots]
    · rw [if_neg hdots, if_neg hdots, walkStep, walkStep, if_pos htype, if_pos htype]
      congr 1
      refine slots_lookup (h.shape _ hdir).toNamed (h'.shape _ hdir').toNamed
        (fun hnil => hdots (.inl hnil)) fun q hq e hname => ?_
      have hlies := hsame hdir q e hname
      exact ⟨fun hslot => (hlies.mp ⟨hq, hslot⟩).2, fun hslot => (hlies.mpr ⟨hq, hslot⟩).2⟩
  · rw [childOf_file htype, childOf_file htype]

/-- A child comes with the number that has come. -/
theorem Gains.grown {p : UInt32} (g : Gains fs fs' dirs p.toNat n q s₀ de s nd)
    (h : SoundFs fs dirs files) (hnode : NewNode fs' p.toNat n de.stored.fType) :
    NameTree.Grown (childOf fs) (childOf fs') (Listed dirs files) (p, FT_DIRECTORY)
      de.stored.name (.ofNat n, de.stored.fType) := by
  have h' := g.sound h hnode
  have hdir := g.entered.isDir
  refine ⟨?_, ?_, fun x name hx hother => ?_, fun name => ?_⟩
  · rw [childOf_step g.name.1 (g.proper h), walkStep_dir, g.unlisted]
    rfl
  · have hlies : LiesIn fs' ((p, FT_DIRECTORY) : UInt32 × UInt32).1.toNat q de.stored :=
      ⟨g.put.mem, g.put.self⟩
    rw [h'.lies_child rfl (.inl hdir) hlies (g.proper h), g.entryNo]
  · refine childOf_congr h h' (fun htype => ⟨hx.dir htype, .inl (hx.dir htype)⟩)
      fun hd r e hname => ⟨fun hlies => ?_, g.lies_kept h hd⟩
    obtain ⟨hp, rfl, rfl⟩ | hold := g.lies_cases h hd hlies
    · by_cases htype : x.2 = FT_DIRECTORY
      · exact absurd ⟨Prod.ext (UInt32.toNat_inj.mp hp) htype, hname.symm⟩ hother
      · obtain hdir' | ⟨-, hfile⟩ := hx
        · exact absurd hdir'.1 htype
        · exact absurd hfile (h.kinds _ hd)
    · exact hold
  · by_contra hsome
    obtain ⟨y, hchild⟩ := Option.ne_none_iff_exists'.mp hsome
    have htype : de.stored.fType = FT_DIRECTORY := childOf_dir hchild
    have hnew : Listed (withNew dirs n (de.stored.fType = FT_DIRECTORY))
        (withNew files n (de.stored.fType = FT_REGULAR)) (.ofNat n, de.stored.fType) :=
      .inl ⟨htype, .inr ⟨htype, g.newToNat⟩⟩
    obtain ⟨-, -, r, e, hlies, hproper, -, -⟩ := h'.child_lies hnew hchild
    have hlies : LiesIn fs' (UInt32.ofNat n).toNat r e := hlies
    rw [g.newToNat] at hlies
    exact (hnode.dots htype r e hlies).1 hproper

/-- The tree before a removal has that child more. -/
theorem Loses.grown {p : UInt32} (g : Loses fs fs' dirs files p.toNat e.iNo.toNat q e nd)
    (h : SoundFs fs dirs files) (htype : e.fType = FT_REGULAR) :
    NameTree.Grown (childOf fs') (childOf fs) (Listed dirs (without files e.iNo.toNat))
      (p, FT_DIRECTORY) e.name (e.iNo, FT_REGULAR) := by
  have h' := g.sound h
  have hdir := g.isDir
  refine ⟨?_, ?_, fun x name hx hother => ?_, fun name => ?_⟩
  · by_contra hsome
    obtain ⟨y, hchild⟩ := Option.ne_none_iff_exists'.mp hsome
    obtain ⟨-, -, r, b, hlies, hproper, hname, -⟩ :=
      h'.child_lies (x := (p, FT_DIRECTORY)) (.inl ⟨rfl, hdir⟩) hchild
    obtain ⟨hold, hother⟩ := g.lay h hdir hlies
    have hsame := (h.shape _ hdir).once r hold.1 q g.cleared.mem b e hold.2 g.cleared.taken trivial
      trivial hname
    exact hother ⟨rfl, hsame⟩
  · rw [h.lies_child (x := (p, FT_DIRECTORY)) rfl hdir g.entry_lies g.proper, htype]
  · have hd : x.2 = FT_DIRECTORY → dirs x.1.toNat := fun hx' => hx.dir hx'
    refine (childOf_congr h h' (fun hx' => ⟨hd hx', hd hx'⟩) fun hdx r b hname => ?_).symm
    refine ⟨fun hlies => (g.lay h hdx hlies).1, fun hlies => g.lies_still h hdx hlies ?_⟩
    rintro ⟨hp, rfl⟩
    by_cases htype' : x.2 = FT_DIRECTORY
    · have hslot := hlies.2
      rw [hp, g.cleared.taken] at hslot
      obtain rfl := Option.some.inj hslot
      exact hother ⟨Prod.ext (UInt32.toNat_inj.mp hp) htype', hname.symm⟩
    · obtain hdir' | ⟨-, hfile⟩ := hx
      · exact htype' hdir'.1
      · exact h.kinds _ hdx hfile.1
  · exact childOf_file (by decide : FT_REGULAR ≠ FT_DIRECTORY)

/-! ## What the names lead to -/

/-- A directory, or a file with its content. -/
inductive Node
  | dir
  | file (content : List UInt8)
  deriving DecidableEq

def nodeOf (fs : Fs) (x : UInt32 × UInt32) : Node :=
  if x.2 = FT_DIRECTORY then .dir else .file (contentOf fs x.1.toNat)

/-- What a list of names leads to from the root directory. -/
def names (fs : Fs) (ks : List (List UInt8)) : Option Node :=
  (NameTree.follow (childOf fs) (0, FT_DIRECTORY) ks).map (nodeOf fs)

/-- A file that is left alone has the content it had. -/
theorem Around.content {kept : Nat → Prop} {k : Nat} (h : Around fs fs' p nd kept) (hm : kept m)
    (hne : m ≠ p) (hl : DiskLayout fs.part)
    (hok : FileOk fs.disk fs.part (diskInode fs.disk fs.part m) k) :
    contentOf fs' m = contentOf fs m := by
  have hmoved := h.moved hm hne
  unfold contentOf
  rw [h.size hm hne]
  apply List.map_congr_left
  intro i hi
  exact hmoved.fileView hl hok (List.mem_range.mp hi)

theorem nodeOf_kept (h : SoundFs fs dirs files) {kept : Nat → Prop}
    (ha : Around fs fs' p nd kept) (hp : dirs p) (hx : Listed dirs files x)
    (hkept : files x.1.toNat → kept x.1.toNat) : nodeOf fs' x = nodeOf fs x := by
  unfold nodeOf
  by_cases htype : x.2 = FT_DIRECTORY
  · rw [if_pos htype, if_pos htype]
  · rw [if_neg htype, if_neg htype]
    obtain hdir | ⟨-, hfile⟩ := hx
    · exact absurd hdir.1 htype
    · obtain ⟨k, hok⟩ := h.file _ hfile
      have hne : x.1.toNat ≠ p := fun he => h.kinds p hp (he ▸ hfile)
      rw [ha.content (hkept hfile) hne h.layout hok]

/-- The names behind a call that makes a directory or a file. -/
theorem Gains.names {p : UInt32} (g : Gains fs fs' dirs p.toNat n q s₀ de s nd)
    (h : SoundFs fs dirs files) (hnode : NewNode fs' p.toNat n de.stored.fType)
    (hfront : NameTree.follow (childOf fs) (0, FT_DIRECTORY) front = some (p, FT_DIRECTORY)) :
    ZhuOS.names fs' = Function.update (ZhuOS.names fs) (front ++ [de.stored.name])
      (some (nodeOf fs' (.ofNat n, de.stored.fType))) := by
  funext ks
  rw [ZhuOS.names, (g.grown h hnode).follow h.rooted hfront]
  by_cases hks : ks = front ++ [de.stored.name]
  · rw [if_pos hks, hks, Function.update_self]
    rfl
  · rw [if_neg hks, Function.update_of_ne hks, ZhuOS.names]
    apply Option.map_congr
    intro x hx
    exact nodeOf_kept h (g.around h) g.entered.isDir (h.rooted.inside hx) fun hfile => .inr hfile

/-- The names behind a call that removes a file. -/
theorem Loses.names {p : UInt32} (g : Loses fs fs' dirs files p.toNat e.iNo.toNat q e nd)
    (h : SoundFs fs dirs files) (htype : e.fType = FT_REGULAR)
    (hfront : NameTree.follow (childOf fs) (0, FT_DIRECTORY) front = some (p, FT_DIRECTORY)) :
    ZhuOS.names fs' = Function.update (ZhuOS.names fs) (front ++ [e.name]) none := by
  have hgrown := g.grown h htype
  have hrooted := (g.sound h).rooted
  have hne : ((p, FT_DIRECTORY) : UInt32 × UInt32) ≠ (e.iNo, FT_REGULAR) := by
    intro he
    exact absurd (congrArg Prod.snd he) (by decide : FT_DIRECTORY ≠ FT_REGULAR)
  have hfront' := hgrown.before hrooted hfront hne
  have hfollow := hgrown.follow hrooted hfront'
  funext ks
  by_cases hks : ks = front ++ [e.name]
  · rw [hks, Function.update_self, ZhuOS.names, NameTree.follow_snoc, hfront']
    exact congrArg _ hgrown.free
  · have hsame := hfollow ks
    rw [if_neg hks] at hsame
    rw [Function.update_of_ne hks, ZhuOS.names, ZhuOS.names, hsame]
    apply Option.map_congr
    intro x hx
    have hin := hrooted.inside hx
    have hold : Listed dirs files x := hin.imp_right (And.imp_right And.left)
    refine nodeOf_kept h g.around g.isDir hold fun hfile => ⟨.inr hfile, ?_⟩
    obtain ⟨-, hdir⟩ | ⟨-, hstill⟩ := hin
    · exact absurd hfile (h.kinds _ hdir)
    · exact hstill.2

end ZhuOS
