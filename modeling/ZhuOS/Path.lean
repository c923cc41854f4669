import Mathlib.Data.List.TakeWhile
import ZhuOS.Fs

/-!
# `fs/fs.c`: taking a path apart

`path_parse` cuts the first component off a path, `path_depth_cnt` counts them.
Paths are C strings, so no byte of them is zero.
-/

namespace ZhuOS

def slash : UInt8 := 47

/-- `path_parse`: the first component and what follows it, `none` at the end of the
path. The component goes into `char name[MAX_FILE_NAME_LEN]`, and may fill all of it. -/
def pathParse (pathname : List UInt8) : Except Fault (List UInt8 × Option (List UInt8)) := do
  let pathname := pathname.dropWhile (· = slash)
  let name := pathname.takeWhile (· ≠ slash)
  let rest := pathname.dropWhile (· ≠ slash)
  if name.length ≤ MAX_FILE_NAME_LEN then
    return (name, if rest = [] then none else some rest)
  else .error .outOfBounds

/-- `if (sub_path) sub_path = path_parse(sub_path, name)` after `name` was cleared. -/
def parseNext : Option (List UInt8) → Except Fault (List UInt8 × Option (List UInt8))
  | none => return ([], none)
  | some p => pathParse p

/-- The loop of `path_depth_cnt`. -/
def depthLoop : (fuel : Nat) → List UInt8 → Option (List UInt8) → Nat → Except Fault Nat
  | 0, _, _, _ => .error .stuck
  | fuel + 1, name, p, depth =>
    if name = [] then return depth
    else do
      let (name, p) ← parseNext p
      depthLoop fuel name p (depth + 1)

/-- `path_depth_cnt`; the name is not cleared before the first component. -/
def pathDepthCnt (junk : UInt8) (pathname : List UInt8) : Except Fault Nat := do
  let (name, p) ← pathParse pathname
  let name := if name = [] ∧ junk ≠ 0 then [junk] else name
  depthLoop (pathname.length + 2) name p 0

/-! ## The components of a path -/

def components (path : List UInt8) : List (List UInt8) := (path.splitOn slash).filter (· ≠ [])

/-- The path that names these components. -/
def joinPath (comps : List (List UInt8)) : List UInt8 := comps.flatMap (slash :: ·)

variable {path name rest : List UInt8} {comps : List (List UInt8)}

@[simp] theorem components_nil : components [] = [] := by
  simp [components]

@[simp] theorem components_slash (path : List UInt8) :
    components (slash :: path) = components path := by
  simp [components, List.splitOn_cons_eq_if_modifyHead]

theorem components_dropSlashes (path : List UInt8) :
    components (path.dropWhile (· = slash)) = components path := by
  induction path with
  | nil => rfl
  | cons c path ih =>
    by_cases hc : c = slash
    · subst hc
      rw [List.dropWhile_cons_of_pos (by simp), ih, components_slash]
    · rw [List.dropWhile_cons_of_neg (by simpa using hc)]

theorem components_word (hname : slash ∉ name) (hne : name ≠ []) : components name = [name] := by
  simp [components, List.splitOn_eq_singleton hname, hne]

theorem components_word_slash (hname : slash ∉ name) (hne : name ≠ []) (rest : List UInt8) :
    components (name ++ slash :: rest) = name :: components rest := by
  simp [components, List.splitOn_append_cons_self_of_not_mem hname, hne]

/-- No component holds a slash. -/
theorem slash_not_mem (path : List UInt8) : slash ∉ path.takeWhile (· ≠ slash) := by
  intro h
  simpa using List.mem_takeWhile_imp h

/-- What is left after the first component begins with a slash. -/
theorem dropWord (path : List UInt8) : path.dropWhile (· ≠ slash) = [] ∨
    ∃ rest, path.dropWhile (· ≠ slash) = slash :: rest := by
  induction path with
  | nil => exact .inl rfl
  | cons c path ih =>
    by_cases hc : c = slash
    · subst hc
      exact .inr ⟨path, List.dropWhile_cons_of_neg (by simp)⟩
    · rwa [List.dropWhile_cons_of_pos (by simpa using hc)]

/-- The components of what `path_parse` leaves. -/
def restComponents (rest : Option (List UInt8)) : List (List UInt8) := components (rest.getD [])

/-- `path_parse` cuts off the first component, if this fits the buffer. -/
theorem pathParse_eq (path : List UInt8) : ∃ name rest,
    pathParse path = (if name.length ≤ MAX_FILE_NAME_LEN then .ok (name, rest)
      else .error .outOfBounds) ∧
      (components path = [] ∧ name = [] ∧ rest = none ∨
        components path = name :: restComponents rest ∧ name ≠ [] ∧
          name.length + (rest.getD []).length ≤ path.length ∧
          (rest = none ∨ ∃ tail, rest = some (slash :: tail))) := by
  have hcomps := components_dropSlashes path
  have hle : (path.dropWhile (· = slash)).length ≤ path.length :=
    (List.dropWhile_suffix _).length_le
  have hhead : path.dropWhile (· = slash) = [] ∨
      ∃ c l, path.dropWhile (· = slash) = c :: l ∧ c ≠ slash := by
    cases hd : path.dropWhile (· = slash) with
    | nil => exact .inl rfl
    | cons c l =>
      have := List.head_dropWhile_not (· = slash) (l := path) (by simp [hd])
      exact .inr ⟨c, l, rfl, by simpa [hd] using this⟩
  unfold pathParse
  dsimp only
  generalize path.dropWhile (· = slash) = p at hcomps hle hhead
  have hsplit : p.takeWhile (· ≠ slash) ++ p.dropWhile (· ≠ slash) = p :=
    List.takeWhile_append_dropWhile
  have hslash := slash_not_mem p
  obtain rfl | ⟨c, l, rfl, hc⟩ := hhead
  · exact ⟨[], none, rfl, .inl ⟨by rw [← hcomps, components_nil], rfl, rfl⟩⟩
  · have hne : (c :: l).takeWhile (· ≠ slash) ≠ [] := by
      rw [List.takeWhile_cons_of_pos (by simpa using hc)]
      exact List.cons_ne_nil _ _
    have hdrop := dropWord (c :: l)
    generalize (c :: l).takeWhile (· ≠ slash) = name at hsplit hslash hne ⊢
    generalize (c :: l).dropWhile (· ≠ slash) = tail at hsplit hdrop ⊢
    have hlen := congrArg List.length hsplit
    rw [List.length_append] at hlen
    have hpos : 0 < name.length := List.length_pos_iff.mpr hne
    obtain rfl | ⟨rest, rfl⟩ := hdrop
    · rw [List.append_nil] at hsplit
      have hcs : components path = [name] := by
        rw [← hcomps, ← hsplit, components_word hslash hne]
      refine ⟨name, none, rfl, .inr ⟨?_, hne, ?_, .inl rfl⟩⟩
      · simp [hcs, restComponents]
      · rw [hsplit]
        exact hle
    · have hcs : components path = name :: components (slash :: rest) := by
        rw [← hcomps, ← hsplit, components_word_slash hslash hne, components_slash]
      refine ⟨name, some (slash :: rest), rfl, .inr ⟨hcs, hne, ?_, .inr ⟨rest, rfl⟩⟩⟩
      rw [Option.getD_some, hlen]
      exact hle

theorem pathParse_ok (hfirst : ∀ c ∈ (components path).head?, c.length ≤ MAX_FILE_NAME_LEN) :
    ∃ name rest, pathParse path = .ok (name, rest) ∧
      (components path = [] ∧ name = [] ∧ rest = none ∨
        components path = name :: restComponents rest ∧ name ≠ []) := by
  obtain ⟨name, rest, hparse, hcases⟩ := pathParse_eq path
  have hfits : name.length ≤ MAX_FILE_NAME_LEN := by
    obtain ⟨-, rfl, -⟩ | ⟨hcons, -⟩ := hcases
    · decide
    · exact hfirst name (by simp [hcons])
  exact ⟨name, rest, hparse.trans (if_pos hfits), hcases.imp_right fun h => ⟨h.1, h.2.1⟩⟩

/-- The component that was parsed fitted. -/
theorem pathParse_short {rest : Option (List UInt8)} (h : pathParse path = .ok (name, rest)) :
    name.length ≤ MAX_FILE_NAME_LEN ∧
      (components path = [] ∧ name = [] ∧ rest = none ∨
        components path = name :: restComponents rest ∧ name ≠ []) := by
  obtain ⟨name', rest', hparse, hcases⟩ := pathParse_eq path
  rw [h] at hparse
  split at hparse
  next hfits =>
    cases hparse
    exact ⟨hfits, hcases.imp_right fun h => ⟨h.1, h.2.1⟩⟩
  next => cases hparse

theorem parseNext_ok {p : Option (List UInt8)}
    (hfirst : ∀ c ∈ (restComponents p).head?, c.length ≤ MAX_FILE_NAME_LEN) :
    ∃ name rest, parseNext p = .ok (name, rest) ∧
      (restComponents p = [] ∧ name = [] ∧ rest = none ∨
        restComponents p = name :: restComponents rest ∧ name ≠ []) := by
  cases p with
  | none => exact ⟨[], none, rfl, .inl ⟨components_nil, rfl, rfl⟩⟩
  | some p => exact pathParse_ok hfirst

theorem parseNext_short {p rest : Option (List UInt8)} (h : parseNext p = .ok (name, rest)) :
    name.length ≤ MAX_FILE_NAME_LEN ∧
      (restComponents p = [] ∧ name = [] ∧ rest = none ∨
        restComponents p = name :: restComponents rest ∧ name ≠ []) := by
  cases p with
  | none =>
    cases h
    exact ⟨by decide, .inl ⟨components_nil, rfl, rfl⟩⟩
  | some p => exact pathParse_short h

/-- The components with a slash before each are no longer than the path. -/
theorem joinPath_length_le (path : List UInt8) :
    (joinPath (components path)).length ≤ path.length + 1 := by
  induction hn : path.length using Nat.strong_induction_on generalizing path with
  | _ n ih =>
    obtain ⟨name, rest, -, hcases⟩ := pathParse_eq path
    obtain ⟨hnil, -, -⟩ | ⟨hcons, hne, hle, htail⟩ := hcases
    · simp [hnil, joinPath]
    · have hpos : 0 < name.length := List.length_pos_iff.mpr hne
      rw [hcons, joinPath, List.flatMap_cons, List.length_append, List.length_cons]
      obtain rfl | ⟨tail, rfl⟩ := htail
      · simp only [restComponents, Option.getD_none, components_nil, List.flatMap_nil,
          List.length_nil] at hle ⊢
        omega
      · simp only [restComponents, Option.getD_some, components_slash, List.length_cons]
          at hcons hle ⊢
        have := ih tail.length (by omega) tail rfl
        rw [joinPath] at this
        omega

theorem length_le_joinPath (comps : List (List UInt8)) :
    comps.length ≤ (joinPath comps).length := by
  induction comps with
  | nil => exact Nat.le_refl _
  | cons c comps ih =>
    rw [joinPath, List.flatMap_cons, List.length_append, List.length_cons, List.length_cons]
    rw [joinPath] at ih
    omega

theorem components_length_le (path : List UInt8) :
    (components path).length ≤ path.length + 1 :=
  (length_le_joinPath _).trans (joinPath_length_le path)

theorem mem_components {c : List UInt8} (h : c ∈ components path) : c ≠ [] := by
  simpa using (List.mem_filter.mp h).2

/-- Between two slashes there is none. -/
theorem splitOn_slash (path : List UInt8) : ∀ c ∈ path.splitOn slash, slash ∉ c := by
  induction path with
  | nil => simp
  | cons b path ih =>
    rw [List.splitOn_cons_eq_if_modifyHead]
    by_cases hb : b = slash
    · simpa [hb] using ih
    · cases hsplit : path.splitOn slash with
      | nil => exact absurd hsplit (List.splitOn_ne_nil _ _)
      | cons d l =>
        rw [hsplit] at ih
        intro c hc
        rw [if_neg (by simpa using hb), List.modifyHead_cons, List.mem_cons] at hc
        obtain rfl | hc := hc
        · rw [List.mem_cons]
          exact fun h => h.elim (fun h => hb h.symm) (ih d (.head _))
        · exact ih c (.tail _ hc)

theorem component_word {c : List UInt8} (h : c ∈ components path) : c ≠ [] ∧ slash ∉ c :=
  ⟨mem_components h, splitOn_slash path c (List.mem_filter.mp h).1⟩

/-- The loop counts one component a round. -/
theorem depthLoop_ok (fuel : Nat) {p : Option (List UInt8)} {depth : Nat}
    (hshort : ∀ c ∈ restComponents p, c.length ≤ MAX_FILE_NAME_LEN)
    (hfuel : (restComponents p).length + 1 < fuel) (hne : name ≠ []) :
    depthLoop fuel name p depth = .ok (depth + 1 + (restComponents p).length) := by
  induction fuel generalizing name p depth with
  | zero => omega
  | succ fuel ih =>
    obtain ⟨name', rest, hparse, hcases⟩ :=
      parseNext_ok fun c hc => hshort c (List.mem_of_mem_head? hc)
    rw [depthLoop, if_neg hne]
    simp only [hparse, ok_bind]
    obtain ⟨hnil, rfl, rfl⟩ | ⟨hcons, hne'⟩ := hcases
    · cases fuel with
      | zero => omega
      | succ fuel =>
        rw [depthLoop, if_pos rfl, hnil]
        rfl
    · rw [hcons, List.length_cons] at hfuel
      rw [ih (fun c hc => hshort c (hcons ▸ .tail _ hc)) (by omega) hne', hcons, List.length_cons]
      exact congrArg Except.ok (by omega)

/-- A count that returns has parsed all of the components. -/
theorem depthLoop_short (fuel : Nat) {p : Option (List UInt8)} {depth d : Nat} (hne : name ≠ [])
    (h : depthLoop fuel name p depth = .ok d) :
    ∀ c ∈ restComponents p, c.length ≤ MAX_FILE_NAME_LEN := by
  induction fuel generalizing name p depth with
  | zero => cases h
  | succ fuel ih =>
    rw [depthLoop, if_neg hne] at h
    obtain ⟨⟨name', rest⟩, hparse, h⟩ := bind_ok.mp h
    obtain ⟨hshort, ⟨hnil, -, -⟩ | ⟨hcons, hne'⟩⟩ := parseNext_short hparse
    · simp [hnil]
    · rw [hcons]
      exact List.forall_mem_cons.mpr ⟨hshort, ih hne' h⟩

/-- `path_depth_cnt` counts the components of a path that has some. -/
theorem pathDepthCnt_ok (hshort : ∀ c ∈ components path, c.length ≤ MAX_FILE_NAME_LEN)
    (hsome : components path ≠ []) (junk : UInt8) :
    pathDepthCnt junk path = .ok (components path).length := by
  obtain ⟨name, rest, hparse, hcases⟩ :=
    pathParse_ok fun c hc => hshort c (List.mem_of_mem_head? hc)
  obtain ⟨hnil, -, -⟩ | ⟨hcons, hne⟩ := hcases
  · exact absurd hnil hsome
  · have hle := components_length_le path
    rw [hcons, List.length_cons] at hle
    have hname : ¬ (name = [] ∧ junk ≠ 0) := fun h => hne h.1
    simp only [pathDepthCnt, hparse, ok_bind, if_neg hname]
    rw [depthLoop_ok _ (fun c hc => hshort c (hcons ▸ .tail _ hc)) (by omega) hne, hcons,
      List.length_cons]
    exact congrArg Except.ok (by omega)

/-- Without a component it looks at a name that nobody has written. -/
theorem pathDepthCnt_none (hnone : components path = []) (junk : UInt8) :
    pathDepthCnt junk path = .ok (if junk = 0 then 0 else 1) := by
  obtain ⟨name, rest, hparse, ⟨-, rfl, rfl⟩ | ⟨hcons, -⟩⟩ :=
    @pathParse_ok path (by simp [hnone])
  · by_cases hjunk : junk = 0
    · simp [pathDepthCnt, hparse, hjunk, depthLoop]
      rfl
    · simp [pathDepthCnt, hparse, hjunk, depthLoop, parseNext]
      rfl
  · rw [hnone] at hcons
    cases hcons

theorem pathDepthCnt_short {junk : UInt8} {d : Nat} (h : pathDepthCnt junk path = .ok d) :
    ∀ c ∈ components path, c.length ≤ MAX_FILE_NAME_LEN := by
  obtain ⟨⟨name, rest⟩, hparse, h⟩ := bind_ok.mp h
  obtain ⟨hshort, ⟨hnil, -, -⟩ | ⟨hcons, hne⟩⟩ := pathParse_short hparse
  · simp [hnil]
  · have hname : ¬ (name = [] ∧ junk ≠ 0) := fun h => hne h.1
    simp only [if_neg hname] at h
    rw [hcons]
    exact List.forall_mem_cons.mpr ⟨hshort, depthLoop_short _ hne h⟩

/-- The path of some components has those components. -/
theorem components_joinPath (h : ∀ c ∈ comps, c ≠ [] ∧ slash ∉ c) :
    components (joinPath comps) = comps := by
  induction comps with
  | nil => exact components_nil
  | cons c comps ih =>
    obtain ⟨hne, hslash⟩ := h c (.head _)
    have ih := ih fun d hd => h d (.tail _ hd)
    rw [joinPath, List.flatMap_cons, List.cons_append, components_slash]
    cases comps with
    | nil => rw [List.flatMap_nil, List.append_nil, components_word hslash hne]
    | cons d comps =>
      rw [joinPath, List.flatMap_cons, List.cons_append, components_slash] at ih
      rw [List.flatMap_cons, List.cons_append, components_word_slash hslash hne, ih]

end ZhuOS
