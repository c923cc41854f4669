import ZhuOS.Lib.CStrings
import ZhuOS.Path

/-!
# `fs/fs.c`: paths and names in memory

`path_parse` on the bytes of a path and of the caller's `char name[MAX_FILE_NAME_LEN]`. It writes
the characters of a component and no zero behind them: its callers clear the array before each
call but for the first one of `path_depth_cnt`.
-/

namespace ZhuOS

open ByteMem

variable {mem name : Bytes} {p q left k fuel : Nat} {path word tail : List UInt8}
  {runs : List (List UInt8)}

/-- `while(*(++pathname) == '/');`, at the byte behind the first slash. -/
def skipSlashes (mem : Bytes) : (left pathname : Nat) → Nat
  | 0, pathname => pathname
  | left + 1, pathname =>
    if mem pathname = slash then skipSlashes mem left (pathname + 1) else pathname

/-- `*name_store++ = *pathname++` up to a slash or the end; `k` bytes are written already. -/
def copyName (mem : Bytes) : (left pathname : Nat) → (nameStore : Bytes) → (k : Nat) →
    Except Fault (Nat × Bytes)
  | 0, _, _, _ => .error .stuck
  | left + 1, pathname, nameStore, k =>
    if mem pathname ≠ slash ∧ mem pathname ≠ 0 then
      if k < MAX_FILE_NAME_LEN then
        copyName mem left (pathname + 1) (Function.update nameStore k (mem pathname)) (k + 1)
      else .error .outOfBounds
    else return (pathname, nameStore)

/-- `path_parse`: the address behind the component, `none` for `NULL`, and the array. -/
def pathParseAt (mem : Bytes) (pathname : Nat) (nameStore : Bytes) :
    Except Fault (Option Nat × Bytes) := do
  let pathname := if mem pathname = slash then skipSlashes mem (2 ^ 32) (pathname + 1) else pathname
  let (pathname, nameStore) ← copyName mem (2 ^ 32) pathname nameStore 0
  return (if mem pathname = 0 then none else some pathname, nameStore)

/-- `memset(name, 0, MAX_FILE_NAME_LEN); if(p) p = path_parse(p, name);` -/
def parseNextAt (mem : Bytes) (p : Option Nat) (name : Bytes) :
    Except Fault (Option Nat × Bytes) :=
  let name := fill name 0 MAX_FILE_NAME_LEN 0
  match p with
  | none => return (none, name)
  | some p => pathParseAt mem p name

/-- The loop of `path_depth_cnt`. -/
def depthLoopAt (mem : Bytes) : (fuel : Nat) → (name : Bytes) → Option Nat → UInt32 →
    Except Fault UInt32
  | 0, _, _, _ => .error .stuck
  | fuel + 1, name, p, depth =>
    if name 0 = 0 then return depth
    else do
      let (p, name) ← parseNextAt mem p name
      depthLoopAt mem fuel name p (depth + 1)

/-- `path_depth_cnt`; `name` holds what is on the stack. The depth is returned as `int32_t`. -/
def pathDepthCntAt (mem : Bytes) (pathname : Nat) (name : Bytes) : Except Fault Int := do
  ASSERT (pathname ≠ 0)
  let (p, name) ← pathParseAt mem pathname name
  let depth ← depthLoopAt mem (2 ^ 32) name p 0
  return depth.toInt32.toInt

/-- `while(name[0])` in both callers: the names that the rounds find in the array. -/
def namesLoop (mem : Bytes) : (fuel : Nat) → (name : Bytes) → Option Nat →
    Except Fault (List (List UInt8))
  | 0, _, _ => .error .stuck
  | fuel + 1, name, p =>
    if name 0 = 0 then return []
    else do
      let (p, name') ← parseNextAt mem p name
      let names ← namesLoop mem fuel name' p
      return field name 0 MAX_FILE_NAME_LEN :: names

/-- The names of a path, from the first call of `path_parse` on. -/
def parsedNames (mem : Bytes) (pathname : Nat) (name : Bytes) :
    Except Fault (List (List UInt8)) := do
  let (p, name) ← pathParseAt mem pathname name
  namesLoop mem (2 ^ 32) name p

/-! ## The runs of a path -/

/-- The words are the maximal runs of bytes other than a slash, in order: slashes may stand in
front, and each word goes up to a slash or the end. -/
inductive PathRuns : List UInt8 → List (List UInt8) → Prop
  | none {gap : List UInt8} (hgap : ∀ c ∈ gap, c = slash) : PathRuns gap []
  | run {gap word rest : List UInt8} {runs : List (List UInt8)} (hgap : ∀ c ∈ gap, c = slash)
      (hne : word ≠ []) (hword : slash ∉ word) (hrest : rest = [] ∨ ∃ tail, rest = slash :: tail)
      (h : PathRuns rest runs) : PathRuns (gap ++ (word ++ rest)) (word :: runs)

theorem components_gap {gap : List UInt8} (hgap : ∀ c ∈ gap, c = slash) (path : List UInt8) :
    components (gap ++ path) = components path := by
  induction gap with
  | nil => rfl
  | cons c gap ih =>
    rw [List.cons_append, hgap c (.head _), components_slash, ih fun d hd => hgap d (.tail _ hd)]

/-- The runs are the components. -/
theorem PathRuns.components (h : PathRuns path runs) : ZhuOS.components path = runs := by
  induction h with
  | @none gap hgap =>
    have hall := components_gap hgap []
    rw [List.append_nil] at hall
    rw [hall, components_nil]
  | @run gap word rest runs hgap hne hword hrest h ih =>
    rw [components_gap hgap]
    obtain rfl | ⟨tail, rfl⟩ := hrest
    · rw [List.append_nil, components_word hword hne, ← ih, components_nil]
    · rw [components_word_slash hword hne, ← ih, components_slash]

/-- Every path has its runs. -/
theorem pathRuns_components (path : List UInt8) : PathRuns path (ZhuOS.components path) := by
  induction hn : path.length using Nat.strong_induction_on generalizing path with
  | _ n ih =>
    have hgap : ∀ c ∈ path.takeWhile (· = slash), c = slash := fun c hc => by
      simpa using List.mem_takeWhile_imp hc
    have hsplit : path.takeWhile (· = slash) ++ path.dropWhile (· = slash) = path :=
      List.takeWhile_append_dropWhile
    have hlen := congrArg List.length hsplit
    rw [List.length_append] at hlen
    cases hd : path.dropWhile (· = slash) with
    | nil =>
      rw [hd, List.append_nil] at hsplit
      rw [hsplit] at hgap
      have hnone := components_gap hgap []
      rw [List.append_nil, components_nil] at hnone
      rw [hnone]
      exact .none hgap
    | cons c l =>
      have hc : c ≠ slash := by
        have hhead := List.head_dropWhile_not (· = slash) (l := path) (by simp [hd])
        simpa [hd] using hhead
      rw [hd] at hsplit hlen
      have hword := slash_not_mem (c :: l)
      have hdrop := dropWord (c :: l)
      have hne : (c :: l).takeWhile (· ≠ slash) ≠ [] := by
        rw [List.takeWhile_cons_of_pos (by simpa using hc)]
        exact List.cons_ne_nil _ _
      have hinner : (c :: l).takeWhile (· ≠ slash) ++ (c :: l).dropWhile (· ≠ slash) = c :: l :=
        List.takeWhile_append_dropWhile
      have hshort := congrArg List.length hinner
      rw [List.length_append] at hshort
      have hpos : 0 < ((c :: l).takeWhile (· ≠ slash)).length := List.length_pos_iff.mpr hne
      have hruns := PathRuns.run hgap hne hword hdrop
        (ih ((c :: l).dropWhile (· ≠ slash)).length (by omega) _ rfl)
      rw [hinner, hsplit] at hruns
      rw [hruns.components]
      exact hruns

/-! ## One call -/

theorem skipSlashes_eq (h : CStringAt mem p path) (hlen : path.length < left) :
    skipSlashes mem left p = p + (path.takeWhile (· = slash)).length := by
  induction path generalizing p left with
  | nil =>
    obtain ⟨left, rfl⟩ := Nat.exists_eq_add_one_of_ne_zero (Nat.ne_of_gt hlen)
    have hstop : ¬ mem p = slash := by
      rw [cStringAt_nil.mp h]
      decide
    rw [skipSlashes, if_neg hstop]
    rfl
  | cons c path ih =>
    rw [List.length_cons] at hlen
    obtain ⟨left, rfl⟩ := Nat.exists_eq_add_one_of_ne_zero (n := left) (by omega)
    obtain ⟨-, hc, h⟩ := cStringAt_cons.mp h
    rw [skipSlashes, hc]
    by_cases hslash : c = slash
    · rw [if_pos hslash, ih h (by omega), List.takeWhile_cons_of_pos (by simpa using hslash),
        List.length_cons]
      omega
    · rw [if_neg hslash, List.takeWhile_cons_of_neg (by simpa using hslash)]
      rfl

theorem update_blit (dst src : Bytes) (at_ from_ : Nat) :
    Function.update dst at_ (src from_) = blit dst at_ src from_ 1 := by
  funext a
  by_cases ha : a = at_
  · subst ha
    rw [Function.update_self, blit_in (Nat.le_refl a) (Nat.lt_succ_self a), Nat.sub_self,
      Nat.add_zero]
  · rw [Function.update_of_ne ha, blit_out (by omega)]

/-- A component goes into the array if it fits. -/
theorem copyName_eq (h : CStringAt mem p path) (hlen : path.length < left)
    (hk : k ≤ MAX_FILE_NAME_LEN) :
    copyName mem left p name k =
      if k + (path.takeWhile (· ≠ slash)).length ≤ MAX_FILE_NAME_LEN then
        .ok (p + (path.takeWhile (· ≠ slash)).length,
          blit name k mem p (path.takeWhile (· ≠ slash)).length)
      else .error .outOfBounds := by
  induction path generalizing p left name k with
  | nil =>
    obtain ⟨left, rfl⟩ := Nat.exists_eq_add_one_of_ne_zero (Nat.ne_of_gt hlen)
    have hstop : ¬ (mem p ≠ slash ∧ mem p ≠ 0) := fun hgo => hgo.2 (cStringAt_nil.mp h)
    rw [copyName, if_neg hstop, List.takeWhile_nil, List.length_nil, Nat.add_zero, if_pos hk,
      blit_none]
    rfl
  | cons c path ih =>
    rw [List.length_cons] at hlen
    obtain ⟨left, rfl⟩ := Nat.exists_eq_add_one_of_ne_zero (n := left) (by omega)
    obtain ⟨hne, hc, h⟩ := cStringAt_cons.mp h
    by_cases hslash : c = slash
    · have hstop : ¬ (mem p ≠ slash ∧ mem p ≠ 0) := fun hgo => hgo.1 (hc.trans hslash)
      rw [copyName, if_neg hstop, List.takeWhile_cons_of_neg (by simpa using hslash),
        List.length_nil, Nat.add_zero, if_pos hk, blit_none]
      rfl
    · have hgo : mem p ≠ slash ∧ mem p ≠ 0 := hc ▸ ⟨hslash, hne⟩
      rw [copyName, if_pos hgo, List.takeWhile_cons_of_pos (by simpa using hslash),
        List.length_cons]
      by_cases hroom : k < MAX_FILE_NAME_LEN
      · have hsum : ∀ n, k + 1 + n = k + (n + 1) := fun n => by omega
        have hsum' : ∀ n, p + 1 + n = p + (n + 1) := fun n => by omega
        rw [if_pos hroom, ih h (by omega) hroom, hsum, hsum']
        rw [update_blit, blit_blit, Nat.add_comm 1]
      · rw [if_neg hroom, if_neg (by omega)]

/-- The word lies at the front of the array, and behind it what was there. -/
structure Stored (name name' : Bytes) (word : List UInt8) : Prop where
  bytes : ∀ i (h : i < word.length), name' i = word[i]
  behind : ∀ i, word.length ≤ i → name' i = name i
  nonzero : ∀ c ∈ word, c ≠ 0

/-- A pointer into a string, or `NULL`. -/
def PointsAt (mem : Bytes) : Option Nat → Option (List UInt8) → Prop :=
  Option.Rel fun q tail => CStringAt mem q tail ∧ tail.length < 2 ^ 32

/-- On a string in memory `path_parse` does what it does on the characters. -/
theorem pathParseAt_ok (h : CStringAt mem p path) (hlen : path.length < 2 ^ 32)
    {rest : Option (List UInt8)} (hparse : pathParse path = .ok (word, rest)) (name : Bytes) :
    ∃ q name', pathParseAt mem p name = .ok (q, name') ∧ PointsAt mem q rest ∧
      Stored name name' word := by
  -- the slashes in front
  have hgap : path.takeWhile (· = slash) ++ path.dropWhile (· = slash) = path :=
    List.takeWhile_append_dropWhile
  have hstart : (if mem p = slash then skipSlashes mem (2 ^ 32) (p + 1) else p) =
      p + (path.takeWhile (· = slash)).length := by
    rw [← skipSlashes_eq h (Nat.lt_succ_of_lt hlen), skipSlashes]
  have hat := CStringAt.behind (hgap.symm ▸ h : CStringAt mem p
    (path.takeWhile (· = slash) ++ path.dropWhile (· = slash)))
  have hle : (path.dropWhile (· = slash)).length ≤ path.length :=
    (List.dropWhile_suffix _).length_le
  unfold pathParse at hparse
  dsimp only at hparse
  generalize p + (path.takeWhile (· = slash)).length = start at hstart hat
  generalize path.dropWhile (· = slash) = body at hat hle hparse
  -- the component
  have hsplit : body.takeWhile (· ≠ slash) ++ body.dropWhile (· ≠ slash) = body :=
    List.takeWhile_append_dropWhile
  have hcopy := @copyName_eq mem name start (2 ^ 32) 0 body hat (Nat.lt_of_le_of_lt hle hlen)
    (Nat.zero_le MAX_FILE_NAME_LEN)
  have hsuffix : (body.dropWhile (· ≠ slash)).length ≤ body.length :=
    (List.dropWhile_suffix _).length_le
  generalize body.takeWhile (· ≠ slash) = word' at hparse hsplit hcopy
  generalize body.dropWhile (· ≠ slash) = tail at hparse hsplit hsuffix
  subst hsplit
  have htail := hat.behind
  rw [Nat.zero_add] at hcopy
  by_cases hfits : word'.length ≤ MAX_FILE_NAME_LEN
  · rw [if_pos hfits] at hparse hcopy
    cases hparse
    simp only [pathParseAt, hstart, hcopy, ok_bind]
    refine ⟨_, _, rfl, ?_, ⟨fun i hi => ?_, fun i hi => ?_, fun c hc => ?_⟩⟩
    · cases tail with
      | nil =>
        rw [if_pos (cStringAt_nil.mp htail), if_pos rfl]
        exact .none
      | cons c tail =>
        obtain ⟨hc, hbyte, -⟩ := cStringAt_cons.mp htail
        rw [if_neg (hbyte.symm ▸ hc), if_neg (List.cons_ne_nil c tail)]
        exact .some ⟨htail, by omega⟩
    · rw [blit_in (Nat.zero_le i) (by omega), Nat.sub_zero, hat.bytes i (by
        rw [List.length_append]
        omega), List.getElem_append_left hi]
    · exact blit_out (.inr (by omega))
    · exact hat.nonzero c (List.mem_append_left _ hc)
  · rw [if_neg hfits] at hparse
    cases hparse

/-! ## The callers' loop -/

/-- What the callers see of the array. -/
theorem Stored.field {name' : Bytes} (h : Stored name name' word)
    (hclear : ∀ i < MAX_FILE_NAME_LEN, name i = 0) (hfits : word.length ≤ MAX_FILE_NAME_LEN) :
    field name' 0 MAX_FILE_NAME_LEN = word := by
  refine field_text (fun i hi => ?_) h.nonzero hfits fun hlt => ?_
  · rw [Nat.zero_add]
    exact h.bytes i hi
  · rw [Nat.zero_add, h.behind _ (Nat.le_refl _)]
    exact hclear _ hlt

theorem Stored.first {name' : Bytes} (h : Stored name name' word) (hne : word ≠ []) :
    name' 0 ≠ 0 := by
  have hpos : 0 < word.length := List.length_pos_iff.mpr hne
  rw [h.bytes 0 hpos]
  exact h.nonzero _ (List.getElem_mem hpos)

/-- A round clears the array and parses what is left. -/
theorem parseNextAt_ok {p : Option Nat} {rest rest' : Option (List UInt8)}
    (hp : PointsAt mem p rest) (hparse : parseNext rest = .ok (word, rest')) (name : Bytes) :
    ∃ q name', parseNextAt mem p name = .ok (q, name') ∧ PointsAt mem q rest' ∧
      field name' 0 MAX_FILE_NAME_LEN = word ∧ (word ≠ [] → name' 0 ≠ 0) := by
  have hclear : ∀ i < MAX_FILE_NAME_LEN, fill name 0 MAX_FILE_NAME_LEN 0 i = 0 := fun i hi =>
    fill_in (Nat.zero_le i) (by omega)
  obtain ⟨hfits, -⟩ := parseNext_short hparse
  cases hp with
  | none =>
    cases hparse
    have hstored : Stored (fill name 0 MAX_FILE_NAME_LEN 0) (fill name 0 MAX_FILE_NAME_LEN 0) [] :=
      ⟨nofun, fun _ _ => rfl, nofun⟩
    exact ⟨none, _, rfl, .none, hstored.field hclear hfits, fun hne => absurd rfl hne⟩
  | some hstr =>
    obtain ⟨q, name', hrun, hq, hstored⟩ := pathParseAt_ok hstr.1 hstr.2 hparse
      (fill name 0 MAX_FILE_NAME_LEN 0)
    exact ⟨q, name', hrun, hq, hstored.field hclear hfits, hstored.first⟩

theorem field_first (hz : field name 0 MAX_FILE_NAME_LEN = []) : name 0 = 0 := by
  by_contra hne
  have hcons := @field_succ name 0 15
  rw [if_neg hne] at hcons
  exact absurd (hcons.symm.trans hz) (List.cons_ne_nil _ _)

/-- The rounds find the components that are left, one in each. -/
theorem namesLoop_ok (fuel : Nat) {p : Option Nat} {rest : Option (List UInt8)}
    (hp : PointsAt mem p rest)
    (hshort : ∀ c ∈ restComponents rest, c.length ≤ MAX_FILE_NAME_LEN)
    (hfuel : (restComponents rest).length + 1 < fuel) (hne : name 0 ≠ 0) :
    namesLoop mem fuel name p =
      .ok (field name 0 MAX_FILE_NAME_LEN :: restComponents rest) := by
  induction fuel generalizing name p rest with
  | zero => omega
  | succ fuel ih =>
    obtain ⟨word, rest', hparse, hcases⟩ :=
      parseNext_ok fun c hc => hshort c (List.mem_of_mem_head? hc)
    obtain ⟨q, name', hrun, hq, hfield, hfirst⟩ := parseNextAt_ok hp hparse name
    rw [namesLoop, if_neg hne]
    simp only [hrun, ok_bind]
    obtain ⟨hnil, rfl, rfl⟩ | ⟨hcons, hword⟩ := hcases
    · cases fuel with
      | zero => omega
      | succ fuel =>
        rw [namesLoop, if_pos (field_first hfield), hnil]
        rfl
    · rw [hcons, List.length_cons] at hfuel
      rw [ih hq (fun c hc => hshort c (hcons ▸ .tail _ hc)) (by omega) (hfirst hword), hfield,
        ← hcons]
      rfl

/-- Behind the last component a round finds what the array held. -/
theorem namesLoop_none (fuel : Nat) (hfuel : 1 < fuel) : namesLoop mem fuel name none =
    .ok (if name 0 = 0 then [] else [field name 0 MAX_FILE_NAME_LEN]) := by
  obtain ⟨fuel, rfl⟩ := Nat.exists_eq_add_of_le' hfuel
  have hcleared : fill name 0 MAX_FILE_NAME_LEN 0 0 = 0 := fill_in (Nat.le_refl 0) (by decide)
  rw [namesLoop]
  by_cases hz : name 0 = 0
  · rw [if_pos hz, if_pos hz]
    rfl
  · rw [if_neg hz, if_neg hz]
    simp only [parseNextAt, pure_bind, namesLoop, hcleared, ↓reduceIte]
    rfl

/-- `path_depth_cnt` counts the rounds. -/
theorem depthLoopAt_eq (fuel : Nat) (p : Option Nat) (depth : UInt32) :
    depthLoopAt mem fuel name p depth =
      namesLoop mem fuel name p >>= fun names => .ok (depth + .ofNat names.length) := by
  induction fuel generalizing name p depth with
  | zero => rfl
  | succ fuel ih =>
    rw [depthLoopAt, namesLoop]
    by_cases hz : name 0 = 0
    · rw [if_pos hz, if_pos hz]
      exact congrArg Except.ok (add_zero depth).symm
    · rw [if_neg hz, if_neg hz]
      simp only [bind_assoc, ih]
      refine bind_congr fun r => bind_congr fun names => ?_
      have hnext : depth + 1 + .ofNat names.length = depth + .ofNat (names.length + 1) := by
        rw [UInt32.ofNat_add, add_assoc, add_comm 1]
        rfl
      exact congrArg Except.ok hnext

/-- Each component but the last is followed by a slash. -/
theorem two_mul_components_le (path : List UInt8) :
    2 * (components path).length ≤ path.length + 1 := by
  have hjoin : ∀ comps : List (List UInt8), (∀ c ∈ comps, c ≠ []) →
      2 * comps.length ≤ (joinPath comps).length := by
    intro comps hne
    induction comps with
    | nil => exact Nat.le_refl _
    | cons c comps ih =>
      have hpos : 0 < c.length := List.length_pos_iff.mpr (hne c (.head _))
      have hrest := ih fun d hd => hne d (.tail _ hd)
      rw [joinPath] at hrest
      rw [joinPath, List.flatMap_cons, List.length_append, List.length_cons, List.length_cons]
      omega
  exact (hjoin _ fun c hc => mem_components hc).trans (joinPath_length_le path)

theorem toInt_ofNat {n : Nat} (h : n < 2 ^ 31) : (UInt32.ofNat n).toInt32.toInt = n := by
  change (BitVec.ofNat 32 n).toInt = n
  rw [BitVec.toInt_eq_toNat_of_lt] <;> rw [BitVec.toNat_ofNat, Nat.mod_eq_of_lt (by omega)]
  omega

section
variable (h : CStringAt mem p path) (hend : p + path.length < 2 ^ 32)
  (hshort : ∀ c ∈ components path, c.length ≤ MAX_FILE_NAME_LEN)
  (hsome : components path ≠ [])
include h hend hshort hsome

/-- After the first call there is a name in the array, and the rounds come to their end. -/
theorem pathParseAt_rounds (name : Bytes) : ∃ word q name',
    pathParseAt mem p name = .ok (q, name') ∧ Stored name name' word ∧
      word.length ≤ MAX_FILE_NAME_LEN ∧ (components path).head? = some word ∧
      namesLoop mem (2 ^ 32) name' q =
        .ok (field name' 0 MAX_FILE_NAME_LEN :: (components path).tail) := by
  have hle := two_mul_components_le path
  obtain ⟨word, rest, hparse, ⟨hnil, -, -⟩ | ⟨hcons, hne⟩⟩ :=
    pathParse_ok fun c hc => hshort c (List.mem_of_mem_head? hc)
  · exact absurd hnil hsome
  obtain ⟨q, name', hrun, hq, hstored⟩ := pathParseAt_ok h (by omega) hparse name
  rw [hcons, List.length_cons] at hle
  refine ⟨word, q, name', hrun, hstored, hshort word (hcons ▸ .head _), ?_, ?_⟩
  · rw [hcons, List.head?_cons]
  · rw [namesLoop_ok _ hq (fun c hc => hshort c (hcons ▸ .tail _ hc)) (by omega)
      (hstored.first hne), hcons, List.tail_cons]

theorem parsedNames_ok {name : Bytes} (hclear : ∀ i < MAX_FILE_NAME_LEN, name i = 0) :
    parsedNames mem p name = .ok (components path) := by
  obtain ⟨word, q, name', hrun, hstored, hfits, hhead, hloop⟩ :=
    pathParseAt_rounds h hend hshort hsome name
  simp only [parsedNames, hrun, ok_bind, hloop, hstored.field hclear hfits]
  rw [List.cons_head?_tail hhead]

theorem pathDepthCntAt_ok (hp : p ≠ 0) (name : Bytes) :
    pathDepthCntAt mem p name = .ok (components path).length := by
  have hle := two_mul_components_le path
  obtain ⟨word, q, name', hrun, -, -, hhead, hloop⟩ :=
    pathParseAt_rounds h hend hshort hsome name
  have hcount : (components path).tail.length + 1 = (components path).length := by
    conv_rhs => rw [← List.cons_head?_tail hhead, List.length_cons]
  simp only [pathDepthCntAt, ASSERT_true hp, hrun, ok_bind, depthLoopAt_eq, hloop,
    List.length_cons, hcount, zero_add, toInt_ofNat (by omega : (components path).length < 2 ^ 31)]
  rfl

end

/-- On a string in memory `path_depth_cnt` does what it does on the characters. -/
theorem pathDepthCntAt_refines (h : CStringAt mem p path) (hp : p ≠ 0)
    (hend : p + path.length < 2 ^ 32) {d : Nat} (hrun : pathDepthCnt (name 0) path = .ok d) :
    pathDepthCntAt mem p name = .ok d := by
  have hshort := pathDepthCnt_short hrun
  by_cases hsome : components path = []
  · rw [pathDepthCnt_none hsome] at hrun
    obtain ⟨word, rest, hparse, ⟨-, rfl, rfl⟩ | ⟨hcons, -⟩⟩ := @pathParse_ok path (by simp [hsome])
    · obtain ⟨q, name', hcall, hq, hstored⟩ := pathParseAt_ok h (by omega) hparse name
      cases hq
      have hfirst : name' 0 = name 0 := hstored.behind 0 (Nat.zero_le 0)
      simp only [pathDepthCntAt, ASSERT_true hp, hcall, ok_bind, depthLoopAt_eq,
        namesLoop_none (2 ^ 32) (by decide), hfirst]
      by_cases hz : name 0 = 0
      · rw [if_pos hz] at hrun ⊢
        cases hrun
        rfl
      · rw [if_neg hz] at hrun ⊢
        cases hrun
        rfl
    · rw [hsome] at hcons
      cases hcons
  · rw [pathDepthCnt_ok hshort hsome] at hrun
    cases hrun
    exact pathDepthCntAt_ok h hend hshort hsome hp name

/-- The calls yield the runs of the path one after the other and then nothing, and
`path_depth_cnt` returns their number, whatever is in its array. -/
theorem pathParse_yields (h : CStringAt mem p path) (hp : p ≠ 0) (hend : p + path.length < 2 ^ 32)
    (hruns : PathRuns path runs) (hsome : runs ≠ [])
    (hshort : ∀ word ∈ runs, word.length ≤ MAX_FILE_NAME_LEN) :
    (∀ name : Bytes, (∀ i < MAX_FILE_NAME_LEN, name i = 0) → parsedNames mem p name = .ok runs) ∧
      ∀ name, pathDepthCntAt mem p name = .ok runs.length := by
  obtain rfl := hruns.components
  exact ⟨fun name hclear => parsedNames_ok h hend hshort hsome hclear,
    fun name => pathDepthCntAt_ok h hend hshort hsome hp name⟩

/-! ## An example -/

/-- `//a/bc/` at the address 4096. -/
def slashedMem : Bytes := fun a => ([47, 47, 97, 47, 98, 99, 47] : List UInt8).getD (a - 4096) 0

theorem slashedMem_string : CStringAt slashedMem 4096 [47, 47, 97, 47, 98, 99, 47] := by
  refine ⟨fun i hi => ?_, by simp, rfl⟩
  have hi : i < 7 := hi
  interval_cases i <;> rfl

theorem slashedMem_runs : PathRuns [47, 47, 97, 47, 98, 99, 47] [[97], [98, 99]] :=
  @PathRuns.run [47, 47] [97] _ _ (by simp [slash]) (by decide) (by decide) (.inr ⟨_, rfl⟩)
    (@PathRuns.run [47] [98, 99] _ _ (by simp [slash]) (by decide) (by decide) (.inr ⟨_, rfl⟩)
      (.none (by simp [slash])))

theorem pathParse_yields_slashed :
    (∀ name : Bytes, (∀ i < MAX_FILE_NAME_LEN, name i = 0) →
      parsedNames slashedMem 4096 name = .ok [[97], [98, 99]]) ∧
      ∀ name, pathDepthCntAt slashedMem 4096 name = .ok (2 : Nat) :=
  pathParse_yields slashedMem_string (by decide) (by decide) slashedMem_runs (by decide) (by decide)

end ZhuOS
