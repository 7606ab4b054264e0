import Mathlib.Data.List.Basic
import Mathlib.Data.List.TakeWhile
import ScriptsMisc.Lib.Text

/-! # URI references

The generic URI syntax: a reference is taken apart at the delimiters `:`, `//`, `?` and `#`, and is
resolved against a base URI. A path is resolved by removing its dot segments.
-/

namespace Uri

/-! ## References and their parts -/

/-- The components of a reference; `none` is a component that is not there. -/
structure Reference where
  scheme : Option Str
  authority : Option Str
  path : Str
  query : Option Str
  fragment : Option Str
deriving DecidableEq, Repr

/-- A character that does not end a scheme. -/
def schemeChar (c : Char) : Bool := c ≠ ':' && c ≠ '/' && c ≠ '?' && c ≠ '#'

/-- A character that does not end an authority. -/
def authorityChar (c : Char) : Bool := c ≠ '/' && c ≠ '?' && c ≠ '#'

/-- The scheme, which is not empty, in lower case, and what follows its colon. -/
def splitScheme (s : Str) : Option Str × Str :=
  let rest := s.dropWhile schemeChar
  if s.takeWhile schemeChar ≠ [] ∧ rest.head? = some ':' then
    (some ((s.takeWhile schemeChar).map Char.toLower), rest.drop 1)
  else (none, s)

/-- The authority behind two slashes, and what follows it. -/
def splitAuthority (s : Str) : Option Str × Str :=
  if "//".toList.isPrefixOf s then
    (some ((s.drop 2).takeWhile authorityChar), (s.drop 2).dropWhile authorityChar)
  else (none, s)

/-- What stands before the first `c`, and what follows it. -/
def splitMarked (c : Char) (s : Str) : Str × Option Str :=
  (s.takeWhile (· ≠ c), if c ∈ s then some ((s.dropWhile (· ≠ c)).drop 1) else none)

/-- The components of a reference. -/
def parse (s : Str) : Reference :=
  let (scheme, s) := splitScheme s
  let (authority, s) := splitAuthority s
  let (s, fragment) := splitMarked '#' s
  let (path, query) := splitMarked '?' s
  ⟨scheme, authority, path, query, fragment⟩

/-- The text of a reference. -/
def recompose (r : Reference) : Str :=
  r.scheme.elim [] (· ++ [':']) ++ r.authority.elim [] ("//".toList ++ ·) ++ r.path ++
    r.query.elim [] ('?' :: ·) ++ r.fragment.elim [] ('#' :: ·)

/-! ## Resolution -/

/-- The text before its last slash. -/
def popSegment (s : Str) : Str := ((s.reverse.dropWhile (· ≠ '/')).drop 1).reverse

/-- Move the segments of the input to the output, but for the dot segments. -/
def removeDotSegmentsLoop : ℕ → Str → Str → Str
  | 0, _, output => output
  | _ + 1, [], output => output
  | fuel + 1, c :: input, output =>
    if c = '/' then
      let seg := input.takeWhile (· ≠ '/')
      let rest := input.dropWhile (· ≠ '/')
      -- a dot segment at the end leaves its slash
      let rest' := if rest = [] then ['/'] else rest
      if seg = ".".toList then removeDotSegmentsLoop fuel rest' output
      else if seg = "..".toList then removeDotSegmentsLoop fuel rest' (popSegment output)
      else removeDotSegmentsLoop fuel rest (output ++ c :: seg)
    else
      let seg := (c :: input).takeWhile (· ≠ '/')
      let rest := (c :: input).dropWhile (· ≠ '/')
      if seg = ".".toList ∨ seg = "..".toList then removeDotSegmentsLoop fuel (rest.drop 1) output
      else removeDotSegmentsLoop fuel rest (output ++ seg)

/-- A path without its dot segments. -/
def removeDotSegments (path : Str) : Str := removeDotSegmentsLoop path.length path []

/-- A relative path behind the directory of the base. -/
def merge (base : Reference) (path : Str) : Str :=
  if base.authority.isSome ∧ base.path = [] then '/' :: path
  else (base.path.reverse.dropWhile (· ≠ '/')).reverse ++ path

/-- The URI a reference stands for at a base. -/
def resolve (base r : Reference) : Reference :=
  if r.scheme.isSome then { r with path := removeDotSegments r.path }
  else if r.authority.isSome then
    { r with scheme := base.scheme, path := removeDotSegments r.path }
  else if r.path = [] then
    { base with query := r.query <|> base.query, fragment := r.fragment }
  else
    let path := if r.path.head? = some '/' then r.path else merge base r.path
    { r with
      scheme := base.scheme
      authority := base.authority
      path := removeDotSegments path }

example : recompose (resolve (parse "http://a/b/c/d;p?q".toList) (parse "../../g/./h?y#s".toList)) =
    "http://a/g/h?y#s".toList := by decide

/-! ## The parts put together -/

/-- Without a scheme the text is left whole. -/
theorem splitScheme_of_none {s : Str} (h : (splitScheme s).1 = none) : (splitScheme s).2 = s := by
  simp only [splitScheme] at h ⊢
  split
  · next hscheme =>
    rw [if_pos hscheme] at h
    exact absurd h (Option.some_ne_none _)
  · rfl

theorem splitAuthority_of_none {s : Str} (h : (splitAuthority s).1 = none) :
    (splitAuthority s).2 = s := by
  simp only [splitAuthority] at h ⊢
  split
  · next hslash =>
    rw [if_pos hslash] at h
    exact absurd h (Option.some_ne_none _)
  · rfl

/-- A scheme is split off at its colon. -/
theorem splitScheme_append {scheme : Str} (hne : scheme ≠ [])
    (hchars : ∀ c ∈ scheme, schemeChar c = true) (rest : Str) :
    splitScheme (scheme ++ ':' :: rest) = (some (scheme.map Char.toLower), rest) := by
  have hcolon : ¬ schemeChar ':' = true := by decide
  have htake : (scheme ++ ':' :: rest).takeWhile schemeChar = scheme := by
    rw [List.takeWhile_append_of_pos hchars, List.takeWhile_cons_of_neg hcolon, List.append_nil]
  have hdrop : (scheme ++ ':' :: rest).dropWhile schemeChar = ':' :: rest := by
    rw [List.dropWhile_append_of_pos hchars, List.dropWhile_cons_of_neg hcolon]
  simp only [splitScheme, htake, hdrop]
  rw [if_pos ⟨hne, rfl⟩]
  rfl

/-- Nothing is lost in splitting at a mark. -/
theorem splitMarked_append (c : Char) (s : Str) :
    (splitMarked c s).1 ++ (splitMarked c s).2.elim [] (c :: ·) = s := by
  rw [splitMarked]
  split
  · next hc =>
    obtain ⟨pre, post, rfl, hpre⟩ := List.eq_append_cons_of_mem hc
    rw [Text.takeWhile_append_of_notMem hpre, Text.dropWhile_append_of_notMem hpre]
    simp
  · next hc =>
    have hall := Text.takeWhile_append_of_notMem hc []
    rw [List.append_nil, List.takeWhile_nil, List.append_nil] at hall
    rw [Option.elim_none, List.append_nil]
    exact hall

/-- The fragment of a relative reference stands behind its first `#`. -/
theorem takeWhile_eq_of_relative {s : Str} (hscheme : (parse s).scheme = none)
    (hauthority : (parse s).authority = none) :
    s.takeWhile (· ≠ '#') = (parse s).path ++ (parse s).query.elim [] ('?' :: ·) := by
  have hauthority' : (splitAuthority (splitScheme s).2).1 = none := hauthority
  have hrest : (splitScheme s).2 = s := splitScheme_of_none hscheme
  have hsame : (splitAuthority (splitScheme s).2).2 = s := by
    rw [hrest] at hauthority' ⊢
    exact splitAuthority_of_none hauthority'
  calc s.takeWhile (· ≠ '#')
      = (splitMarked '#' s).1 := rfl
    _ = (splitMarked '?' (splitMarked '#' s).1).1 ++
          (splitMarked '?' (splitMarked '#' s).1).2.elim [] ('?' :: ·) :=
        (splitMarked_append '?' _).symm
    _ = (parse s).path ++ (parse s).query.elim [] ('?' :: ·) := by
        rw [parse]
        simp only [hsame]

/-! ## Absolute paths, segment by segment -/

/-- The path with these segments. -/
def slashed (segs : List Str) : Str := segs.flatMap ('/' :: ·)

/-- No segment of the path is a dot segment. -/
def DotFree (path : Str) : Prop :=
  ∀ seg ∈ path.splitOn '/', seg ≠ ".".toList ∧ seg ≠ "..".toList

instance (path : Str) : Decidable (DotFree path) := by
  unfold DotFree; infer_instance

/-- The first segment comes first. -/
theorem slashed_cons (seg : Str) (segs : List Str) :
    slashed (seg :: segs) = '/' :: (seg ++ slashed segs) := rfl

/-- The segments of a path may be written in two parts. -/
theorem slashed_append (segs segs' : List Str) :
    slashed (segs ++ segs') = slashed segs ++ slashed segs' := List.flatMap_append

/-- Only no segments make the empty path. -/
theorem slashed_eq_nil_iff {segs : List Str} : slashed segs = [] ↔ segs = [] := by
  cases segs <;> simp [slashed]

/-- A path is at least as long as its segments are many. -/
theorem length_le_slashed (segs : List Str) : segs.length ≤ (slashed segs).length := by
  induction segs with
  | nil => exact le_refl _
  | cons seg segs ih =>
    rw [slashed_cons, List.length_cons, List.length_cons, List.length_append]
    omega

/-- A path starts with a slash. -/
theorem head?_slashed {segs : List Str} (h : segs ≠ []) : (slashed segs).head? = some '/' := by
  obtain ⟨seg, segs, rfl⟩ := List.exists_cons_of_ne_nil h
  rfl

/-- A slash stands in front of each segment. -/
theorem slashed_eq_intercalate {segs : List Str} (h : segs ≠ []) :
    slashed segs = '/' :: ['/'].intercalate segs := by
  induction segs with
  | nil => exact absurd rfl h
  | cons seg segs ih =>
    cases segs with
    | nil => simp [slashed]
    | cons seg' segs =>
      rw [slashed_cons, ih (List.cons_ne_nil _ _), List.intercalate_cons_cons]
      simp

/-- The segments are read back. -/
theorem splitOn_slashed {segs : List Str} (hsegs : ∀ seg ∈ segs, '/' ∉ seg) :
    (slashed segs).splitOn '/' = [] :: segs := by
  by_cases hne : segs = []
  · rw [hne]
    rfl
  · rw [slashed_eq_intercalate hne, List.splitOn_cons_eq_if_modifyHead,
      if_pos (beq_self_eq_true '/'), List.splitOn_intercalate '/' hsegs hne]

/-- A path determines its segments. -/
theorem slashed_inj {segs segs' : List Str} (hsegs : ∀ seg ∈ segs, '/' ∉ seg)
    (hsegs' : ∀ seg ∈ segs', '/' ∉ seg) (h : slashed segs = slashed segs') : segs = segs' := by
  have hsplit := congrArg (List.splitOn '/') h
  rw [splitOn_slashed hsegs, splitOn_slashed hsegs'] at hsplit
  exact (List.cons.inj hsplit).2

/-- An absolute path is made of segments. -/
theorem exists_eq_slashed {path : Str} (h : path.head? = some '/') :
    ∃ segs, segs ≠ [] ∧ (∀ seg ∈ segs, '/' ∉ seg) ∧ path = slashed segs := by
  obtain ⟨rest, rfl⟩ := List.head?_eq_some_iff.mp h
  have hne := List.splitOn_ne_nil '/' rest
  refine ⟨rest.splitOn '/', hne, fun seg => Text.notMem_of_mem_splitOn, ?_⟩
  rw [slashed_eq_intercalate hne, List.intercalate_splitOn]

/-- A segment ends at the next slash. -/
theorem takeWhile_slashed {seg : Str} (hseg : '/' ∉ seg) (segs : List Str) :
    (seg ++ slashed segs).takeWhile (· ≠ '/') = seg := by
  rw [Text.takeWhile_append_of_notMem hseg]
  cases segs <;> simp [slashed]

theorem dropWhile_slashed {seg : Str} (hseg : '/' ∉ seg) (segs : List Str) :
    (seg ++ slashed segs).dropWhile (· ≠ '/') = slashed segs := by
  have h := List.takeWhile_append_dropWhile (p := (· ≠ '/')) (l := seg ++ slashed segs)
  rw [takeWhile_slashed hseg] at h
  exact List.append_cancel_left h

/-- The last segment is removed with its slash. -/
theorem popSegment_slashed {segs : List Str} (hsegs : ∀ seg ∈ segs, '/' ∉ seg) :
    popSegment (slashed segs) = slashed segs.dropLast := by
  induction segs using List.reverseRecOn with
  | nil => rfl
  | append_singleton segs seg _ =>
    have hseg : '/' ∉ seg.reverse := fun h => hsegs seg (by simp) (List.mem_reverse.mp h)
    rw [popSegment, slashed_append, List.dropLast_concat, List.reverse_append]
    simp only [slashed, List.flatMap_cons, List.flatMap_nil, List.append_nil, List.reverse_cons,
      List.append_assoc]
    rw [Text.dropWhile_append_of_notMem hseg]
    simp

/-! ## Dot segments -/

/-- What is left to be read behind a dot segment. -/
def afterDots (segs : List Str) : List Str := if segs = [] then [[]] else segs

/-- An empty path after the dots is a slash. -/
theorem slashed_afterDots (segs : List Str) :
    (if slashed segs = [] then ['/'] else slashed segs) = slashed (afterDots segs) := by
  simp only [slashed_eq_nil_iff, afterDots]
  split <;> rfl

/-- One segment of an absolute path. -/
theorem removeDotSegmentsLoop_slashed_cons {seg : Str} (hseg : '/' ∉ seg) (fuel : ℕ)
    (segs : List Str) (output : Str) :
    removeDotSegmentsLoop (fuel + 1) (slashed (seg :: segs)) output =
      if seg = ".".toList then removeDotSegmentsLoop fuel (slashed (afterDots segs)) output
      else if seg = "..".toList then
        removeDotSegmentsLoop fuel (slashed (afterDots segs)) (popSegment output)
      else removeDotSegmentsLoop fuel (slashed segs) (output ++ '/' :: seg) := by
  rw [slashed_cons, removeDotSegmentsLoop, if_pos rfl]
  simp only [takeWhile_slashed hseg, dropWhile_slashed hseg, slashed_afterDots]

/-- Segments that are kept. -/
def Kept (segs : List Str) : Prop :=
  ∀ seg ∈ segs, '/' ∉ seg ∧ seg ≠ ".".toList ∧ seg ≠ "..".toList

theorem kept_nil : Kept [] := fun _ hmem => absurd hmem List.not_mem_nil

/-- A path has no dots to remove when its segments are kept. -/
theorem dotFree_slashed {segs : List Str} (hsegs : ∀ seg ∈ segs, '/' ∉ seg) :
    DotFree (slashed segs) ↔ Kept segs := by
  rw [DotFree, splitOn_slashed hsegs, List.forall_mem_cons]
  refine (and_iff_right ⟨by decide, by decide⟩).trans ?_
  exact forall₂_congr fun seg hseg => (and_iff_right (hsegs seg hseg)).symm

/-- A path without dot segments is moved to the output. -/
theorem removeDotSegmentsLoop_of_kept {fuel : ℕ} {segs : List Str} (hsegs : Kept segs)
    (hfuel : segs.length ≤ fuel) (output : Str) :
    removeDotSegmentsLoop fuel (slashed segs) output = output ++ slashed segs := by
  induction segs generalizing fuel output with
  | nil => cases fuel <;> simp [slashed, removeDotSegmentsLoop]
  | cons seg segs ih =>
    obtain ⟨hseg, hsegs⟩ := List.forall_mem_cons.mp hsegs
    obtain ⟨fuel, rfl⟩ : ∃ n, fuel = n + 1 := Nat.exists_eq_succ_of_ne_zero (by
      rintro rfl
      exact absurd hfuel (Nat.not_succ_le_zero _))
    rw [removeDotSegmentsLoop_slashed_cons hseg.1, if_neg hseg.2.1, if_neg hseg.2.2,
      ih hsegs (Nat.le_of_succ_le_succ hfuel), slashed_cons]
    simp

/-- The output is made of segments that are kept, whatever is left to be read. -/
theorem exists_kept_output (fuel : ℕ) {segs outs : List Str} (hsegs : ∀ seg ∈ segs, '/' ∉ seg)
    (houts : Kept outs) (hfuel : (slashed segs).length ≤ fuel) (hne : segs ++ outs ≠ []) :
    ∃ res, Kept res ∧ res ≠ [] ∧
      removeDotSegmentsLoop fuel (slashed segs) (slashed outs) = slashed res := by
  induction fuel generalizing segs outs with
  | zero =>
    have hnil := slashed_eq_nil_iff.mp (List.length_eq_zero_iff.mp (Nat.le_zero.mp hfuel))
    subst hnil
    exact ⟨outs, houts, hne, rfl⟩
  | succ fuel ih =>
    cases segs with
    | nil => exact ⟨outs, houts, hne, rfl⟩
    | cons seg segs =>
      obtain ⟨hseg, hsegs⟩ := List.forall_mem_cons.mp hsegs
      rw [slashed_cons, List.length_cons, List.length_append] at hfuel
      have hafter : ∀ seg ∈ afterDots segs, '/' ∉ seg := by
        rw [afterDots]
        split
        · simp
        · exact hsegs
      have hafterne : afterDots segs ≠ [] := by
        rw [afterDots]
        split
        · simp
        · assumption
      rw [removeDotSegmentsLoop_slashed_cons hseg]
      have hafterlen : 0 < seg.length → (slashed (afterDots segs)).length ≤ fuel := by
        intro hpos
        rw [afterDots]
        split
        · show 1 ≤ fuel
          omega
        · omega
      split
      · next hdot =>
        refine ih hafter houts (hafterlen (by rw [hdot]; decide)) ?_
        exact List.append_ne_nil_of_left_ne_nil hafterne _
      · next hdot =>
        split
        · next hdots =>
          rw [popSegment_slashed fun seg hmem => (houts seg hmem).1]
          refine ih hafter (fun seg hmem => houts seg (List.mem_of_mem_dropLast hmem))
            (hafterlen (by rw [hdots]; decide)) ?_
          exact List.append_ne_nil_of_left_ne_nil hafterne _
        · next hdots =>
          have hout : slashed outs ++ '/' :: seg = slashed (outs ++ [seg]) := by
            rw [slashed_append, slashed_cons, slashed, slashed, List.flatMap_nil, List.append_nil]
          rw [hout]
          refine ih hsegs ?_ (by omega) ?_
          · intro seg' hmem
            rcases List.mem_append.mp hmem with hmem | hmem
            · exact houts seg' hmem
            · rw [List.mem_singleton.mp hmem]
              exact ⟨hseg, hdot, hdots⟩
          · simp

/-- Without its dot segments an absolute path is an absolute path. -/
theorem head?_removeDotSegments {path : Str} (h : path.head? = some '/') :
    (removeDotSegments path).head? = some '/' := by
  obtain ⟨segs, hne, hsegs, rfl⟩ := exists_eq_slashed h
  obtain ⟨res, -, hres, heq⟩ :=
    exists_kept_output _ hsegs kept_nil (le_refl _) (by simpa using hne)
  rw [removeDotSegments]
  exact heq ▸ head?_slashed hres

/-- Exactly the absolute paths without dot segments stay as they are. -/
theorem removeDotSegments_eq_self_iff {path : Str} (h : path.head? = some '/') :
    removeDotSegments path = path ↔ DotFree path := by
  obtain ⟨segs, hne, hsegs, rfl⟩ := exists_eq_slashed h
  rw [dotFree_slashed hsegs]
  constructor
  · intro hself
    obtain ⟨res, hkept, -, heq⟩ :=
      exists_kept_output _ hsegs kept_nil (le_refl _) (by simpa using hne)
    have hres : slashed segs = slashed res := hself.symm.trans heq
    rwa [slashed_inj hsegs (fun seg hmem => (hkept seg hmem).1) hres]
  · intro hkept
    rw [removeDotSegments, removeDotSegmentsLoop_of_kept hkept (length_le_slashed segs),
      List.nil_append]

/-- A merged path starts as that of the base. -/
theorem head?_merge {base : Reference} (h : base.path.head? = some '/') (path : Str) :
    (merge base path).head? = some '/' := by
  obtain ⟨rest, hrest⟩ := List.head?_eq_some_iff.mp h
  have hkeep : ((base.path.reverse.dropWhile (· ≠ '/')).reverse).head? = some '/' := by
    rw [hrest, List.head?_reverse, List.reverse_cons, List.dropWhile_append]
    split
    · rfl
    · next hne =>
      rw [List.getLast?_append]
      rfl
  rw [merge, if_neg (by simp [hrest]), List.head?_append, hkeep, Option.some_or]

/-! ## Relative references -/

section Relative

variable {base r : Reference} (hscheme : r.scheme = none) (hauthority : r.authority = none)
include hscheme hauthority

/-- A reference without a path has that of the base. -/
theorem resolve_of_path_nil (h : r.path = []) :
    resolve base r = { base with query := r.query <|> base.query, fragment := r.fragment } := by
  rw [resolve, hscheme, hauthority, if_neg (by simp), if_neg (by simp), if_pos h]

/-- Any other reference has its own path or is merged, without its dots. -/
theorem resolve_of_path_ne_nil (h : r.path ≠ []) :
    resolve base r =
      ⟨base.scheme, base.authority,
        removeDotSegments (if r.path.head? = some '/' then r.path else merge base r.path),
        r.query, r.fragment⟩ := by
  rw [resolve, hscheme, hauthority, if_neg (by simp), if_neg (by simp), if_neg h]

/-- The scheme is that of the base. -/
theorem resolve_scheme : (resolve base r).scheme = base.scheme := by
  by_cases h : r.path = []
  · rw [resolve_of_path_nil hscheme hauthority h]
  · rw [resolve_of_path_ne_nil hscheme hauthority h]

theorem resolve_authority : (resolve base r).authority = base.authority := by
  by_cases h : r.path = []
  · rw [resolve_of_path_nil hscheme hauthority h]
  · rw [resolve_of_path_ne_nil hscheme hauthority h]

/-- A relative reference stands for its own path and query, behind the base's authority, exactly
when its path is absolute and has no dot segments. -/
theorem resolve_path_query_iff (hbase : base.path.head? = some '/') :
    r.path ++ r.query.elim [] ('?' :: ·) =
        (resolve base r).path ++ (resolve base r).query.elim [] ('?' :: ·) ↔
      r.path.head? = some '/' ∧ DotFree r.path := by
  by_cases hpath : r.path.head? = some '/'
  · have hne : r.path ≠ [] := fun h => by simp [h] at hpath
    rw [resolve_of_path_ne_nil hscheme hauthority hne, if_pos hpath, List.append_left_inj,
      eq_comm, removeDotSegments_eq_self_iff hpath]
    exact (and_iff_right hpath).symm
  · have hslash : ((resolve base r).path).head? = some '/' := by
      by_cases hne : r.path = []
      · rw [resolve_of_path_nil hscheme hauthority hne]
        exact hbase
      · rw [resolve_of_path_ne_nil hscheme hauthority hne, if_neg hpath]
        exact head?_removeDotSegments (head?_merge hbase r.path)
    refine iff_of_false (fun h => hpath ?_) fun h => hpath h.1
    have hhead := congrArg List.head? h
    rw [List.head?_append, List.head?_append, hslash, Option.some_or] at hhead
    cases hr : r.path with
    | nil =>
      -- a query does not start with a slash
      rw [hr] at hhead
      cases hq : r.query <;> simp [hq] at hhead
    | cons c rest =>
      rw [hr] at hhead
      exact hhead

end Relative

end Uri
