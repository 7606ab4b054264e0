import Mathlib
import ScriptsMisc.Lib.Text

/-! # `urlparse`

The function of that name in the Python 2 standard library: scheme, authority, path, parameters,
query and fragment of a URL, with its special cases for ports and bracketed hosts.
-/

namespace Urlparse

/-- The fields of a parsed URL; the scripts index them as `url[0]`, `url[1]` and so on. -/
structure ParseResult where
  scheme : Str
  netloc : Str
  path : Str
  params : Str
  query : Str
  fragment : Str
deriving DecidableEq, Repr

/-- `scheme_chars`. -/
def schemeChar (c : Char) : Bool := c.isAlphanum || c == '+' || c == '-' || c == '.'

/-- `uses_params`. -/
def usesParams : List Str :=
  ["".toList, "ftp".toList, "hdl".toList, "prospero".toList, "http".toList, "imap".toList,
    "https".toList, "shttp".toList, "rtsp".toList, "rtspu".toList, "sip".toList, "sips".toList,
    "mms".toList, "sftp".toList, "tel".toList]

/-- `s.split(c, 1)`: the parts before and after the first `c`. -/
def splitFirst (c : Char) (s : Str) : Str × Str :=
  (s.takeWhile (· ≠ c), (s.dropWhile (· ≠ c)).drop 1)

/-- A character that does not end the authority. -/
def authorityChar (c : Char) : Bool := c ≠ '/' && c ≠ '?' && c ≠ '#'

/-- `_splitnetloc`, past the two slashes. -/
def splitNetloc (url : Str) : Str × Str :=
  (url.takeWhile authorityChar, url.dropWhile authorityChar)

/-- The scheme, in lower case, and what follows its colon. A URL whose rest is a port number has
no scheme, except that `http:` is always taken for one. -/
def splitScheme (url : Str) : Str × Str :=
  let scheme := url.takeWhile (· ≠ ':')
  let rest := (url.dropWhile (· ≠ ':')).drop 1
  if scheme = [] ∨ ':' ∉ url then ([], url)
  else if scheme = "http".toList then (scheme, rest)
  -- what follows the colon of a port number is all digits
  else if scheme.all schemeChar && (rest.isEmpty || rest.any (fun c => !c.isDigit)) then
    (scheme.map Char.toLower, rest)
  else ([], url)

/-- `_splitparams`: the parameters of the last segment. -/
def splitParams (url : Str) : Str × Str :=
  let lastSegment := (url.reverse.takeWhile (· ≠ '/')).reverse
  let dir := url.take (url.length - lastSegment.length)
  let (name, params) := splitFirst ';' lastSegment
  (dir ++ name, params)

/-- The authority and what follows it. -/
def splitAuthority (url : Str) : Str × Str :=
  if "//".toList.isPrefixOf url then splitNetloc (url.drop 2) else ([], url)

/-- A bracket of a host address without its partner. -/
def Unbalanced (netloc : Str) : Prop :=
  ('[' ∈ netloc ∧ ']' ∉ netloc) ∨ (']' ∈ netloc ∧ '[' ∉ netloc)

instance (netloc : Str) : Decidable (Unbalanced netloc) := by
  unfold Unbalanced; infer_instance

/-- The fields behind scheme and authority. -/
def parseRest (scheme netloc url : Str) : ParseResult :=
  let (url, fragment) := splitFirst '#' url
  let (url, query) := splitFirst '?' url
  let (path, params) :=
    if usesParams.contains scheme && ';' ∈ url then splitParams url else (url, [])
  ⟨scheme, netloc, path, params, query, fragment⟩

/-- `urlparse(url)`; `none` is the `ValueError` of an unbalanced host address. -/
def urlparse (url : Str) : Option ParseResult :=
  let (scheme, url) := splitScheme url
  let (netloc, url) := splitAuthority url
  if Unbalanced netloc then none else some (parseRest scheme netloc url)

example : urlparse "HTTP://h.org:80/a/b;p?q=1#f".toList =
    some ⟨"http".toList, "h.org:80".toList, "/a/b".toList, "p".toList, "q=1".toList,
      "f".toList⟩ := by decide

/-! ## The parts of a parsed URL -/

@[simp] theorem parseRest_scheme (scheme netloc url : Str) :
    (parseRest scheme netloc url).scheme = scheme := rfl

@[simp] theorem parseRest_netloc (scheme netloc url : Str) :
    (parseRest scheme netloc url).netloc = netloc := rfl

/-- A URL is parsed unless the brackets of its authority are unbalanced. -/
theorem urlparse_eq_some_iff {url : Str} {r : ParseResult} :
    urlparse url = some r ↔
      ¬ Unbalanced (splitAuthority (splitScheme url).2).1 ∧
        parseRest (splitScheme url).1 (splitAuthority (splitScheme url).2).1
          (splitAuthority (splitScheme url).2).2 = r := by
  simp only [urlparse]
  split
  · next h => simp [h]
  · next h => simp [h]

/-- The path comes first. -/
theorem splitParams_prefix (url : Str) : (splitParams url).1 <+: url := by
  let lastSegment := (url.reverse.takeWhile (· ≠ '/')).reverse
  have hsuffix : lastSegment <:+ url := by
    rw [← List.reverse_reverse url]
    exact List.reverse_suffix.mpr (by simpa using List.takeWhile_prefix _)
  obtain ⟨dir, hdir⟩ := hsuffix
  have htake : url.take (url.length - lastSegment.length) = dir := by
    rw [← hdir, List.length_append, Nat.add_sub_cancel, List.take_left]
  show url.take (url.length - lastSegment.length) ++ lastSegment.takeWhile (· ≠ ';') <+: url
  rw [htake]
  conv => rhs; rw [← hdir]
  exact (List.prefix_append_right_inj dir).mpr (List.takeWhile_prefix _)

theorem splitFirst_fst_notMem (c : Char) (s : Str) : c ∉ (splitFirst c s).1 := by
  intro h
  have hall := List.all_takeWhile (p := fun x => decide (x ≠ c)) (l := s)
  simpa using List.all_eq_true.mp hall c h

/-- The path is a prefix of what comes before query and fragment. -/
theorem path_prefix_of_parseRest (scheme netloc url : Str) :
    (parseRest scheme netloc url).path <+: (splitFirst '?' (splitFirst '#' url).1).1 := by
  simp only [parseRest]
  split
  · exact splitParams_prefix _
  · exact List.prefix_refl _

/-- The query never stays in the path. -/
theorem urlparse_path_question {url : Str} {r : ParseResult} (h : urlparse url = some r) :
    '?' ∉ r.path := by
  obtain ⟨-, rfl⟩ := urlparse_eq_some_iff.mp h
  exact fun hmem => splitFirst_fst_notMem '?' _ ((path_prefix_of_parseRest _ _ _).mem hmem)

/-- Behind an authority a path that is not empty starts with a slash. -/
theorem urlparse_path_head {url : Str} {r : ParseResult} (h : urlparse url = some r)
    (hnetloc : r.netloc ≠ []) (hpath : r.path ≠ []) : r.path.head? = some '/' := by
  have hquestion := urlparse_path_question h
  obtain ⟨-, rfl⟩ := urlparse_eq_some_iff.mp h
  rw [parseRest_netloc, splitAuthority] at hnetloc
  split at hnetloc
  · next hslash =>
    have hrest : splitAuthority (splitScheme url).2 = splitNetloc ((splitScheme url).2.drop 2) := by
      rw [splitAuthority, if_pos hslash]
    have hstart := path_prefix_of_parseRest (splitScheme url).1
      (splitAuthority (splitScheme url).2).1 (splitAuthority (splitScheme url).2).2
    obtain ⟨c, path, hc⟩ := List.exists_cons_of_ne_nil hpath
    rw [hc] at hstart hquestion ⊢
    have hfragment : c ≠ '#' := by
      rintro rfl
      have hmem := (List.takeWhile_prefix _).mem (hstart.mem List.mem_cons_self)
      exact splitFirst_fst_notMem '#' _ hmem
    -- what follows the authority starts with the path
    have hhead : (splitAuthority (splitScheme url).2).2.head? = some c := by
      obtain ⟨t, ht⟩ := (hstart.trans (List.takeWhile_prefix _)).trans (List.takeWhile_prefix _)
      rw [← ht]
      rfl
    rw [hrest, splitNetloc] at hhead
    have hstop := List.head?_dropWhile_not authorityChar ((splitScheme url).2.drop 2)
    rw [hhead] at hstop
    have hc' : c ≠ '?' := fun hc' => hquestion (hc' ▸ List.mem_cons_self)
    simpa [authorityChar, hc', hfragment] using hstop
  · exact absurd rfl hnetloc

/-! ## Scheme and authority -/

/-- A scheme may be written in lower case. -/
theorem schemeChar_toLower {c : Char} (h : schemeChar c = true) :
    schemeChar c.toLower = true := by
  by_cases hc : c.isUpper = true
  · have halpha : c.toLower.isAlpha = true := by
      rw [Char.isAlpha_toLower_eq_isAlpha, Char.isAlpha, hc, Bool.true_or]
    rw [schemeChar, Char.isAlphanum, halpha]
    rfl
  · rwa [Char.toLower_eq_of_not_isUpper hc]

/-- A scheme has only characters of a scheme. -/
theorem splitScheme_chars (url : Str) : ∀ c ∈ (splitScheme url).1, schemeChar c = true := by
  intro c hc
  simp only [splitScheme] at hc
  split at hc
  · exact absurd hc List.not_mem_nil
  split at hc
  · next hhttp =>
    have hall : ∀ c ∈ "http".toList, schemeChar c = true :=
      Text.forall_mem_of_all (by decide)
    exact hall c (hhttp ▸ hc)
  split at hc
  · next hchars =>
    obtain ⟨d, hd, rfl⟩ := List.mem_map.mp hc
    exact schemeChar_toLower (List.all_eq_true.mp (Bool.and_eq_true_iff.mp hchars).1 d hd)
  · exact absurd hc List.not_mem_nil

/-- Without a scheme nothing is split off. -/
theorem splitScheme_eq_of_nil {url : Str} (h : (splitScheme url).1 = []) :
    (splitScheme url).2 = url := by
  simp only [splitScheme] at h ⊢
  split
  · rfl
  · next hne =>
    rw [if_neg hne] at h
    split
    · next hhttp =>
      rw [if_pos hhttp] at h
      exact absurd (Or.inl h) hne
    · next hhttp =>
      rw [if_neg hhttp] at h
      split
      · next hchars =>
        rw [if_pos hchars, List.map_eq_nil_iff] at h
        exact absurd (Or.inl h) hne
      · rfl

/-- A scheme is split off at its colon. -/
theorem splitScheme_append {scheme : Str} (hne : scheme ≠ [])
    (hchars : ∀ c ∈ scheme, schemeChar c = true) (rest : Str) :
    splitScheme (scheme ++ "://".toList ++ rest) =
      (scheme.map Char.toLower, "//".toList ++ rest) := by
  have hcolon : ':' ∉ scheme := fun hc => absurd (hchars ':' hc) (by decide)
  have happ : scheme ++ "://".toList ++ rest = scheme ++ ':' :: ("//".toList ++ rest) := by
    rw [List.append_assoc]
    rfl
  have htake : (scheme ++ ':' :: ("//".toList ++ rest)).takeWhile (fun c => decide (c ≠ ':')) =
      scheme := by
    rw [Text.takeWhile_append_of_notMem hcolon]
    simp
  have hdrop : (scheme ++ ':' :: ("//".toList ++ rest)).dropWhile (fun c => decide (c ≠ ':')) =
      ':' :: ("//".toList ++ rest) := by
    rw [Text.dropWhile_append_of_notMem hcolon]
    simp
  have hall : (scheme.all schemeChar &&
      (("//".toList ++ rest).isEmpty || ("//".toList ++ rest).any fun c => !c.isDigit)) = true := by
    rw [List.all_eq_true.mpr hchars]
    rfl
  simp only [splitScheme, happ, htake, hdrop, List.drop_succ_cons, List.drop_zero, hall,
    if_true]
  rw [if_neg (by simp [hne])]
  split
  · next hhttp =>
    rw [hhttp]
    rfl
  · rfl

/-- An authority has only characters of an authority. -/
theorem splitAuthority_chars (url : Str) :
    ∀ c ∈ (splitAuthority url).1, authorityChar c = true := by
  intro c hc
  rw [splitAuthority] at hc
  split at hc
  · exact List.all_eq_true.mp List.all_takeWhile c hc
  · exact absurd hc List.not_mem_nil

/-- The authority stands behind two slashes. -/
theorem splitAuthority_slashes (rest : Str) :
    splitAuthority ("//".toList ++ rest) = splitNetloc rest := rfl

/-- The scheme of a URL has only characters of a scheme. -/
theorem urlparse_scheme_chars {url : Str} {r : ParseResult} (h : urlparse url = some r) :
    ∀ c ∈ r.scheme, schemeChar c = true := by
  obtain ⟨-, rfl⟩ := urlparse_eq_some_iff.mp h
  exact splitScheme_chars url

theorem urlparse_netloc_chars {url : Str} {r : ParseResult} (h : urlparse url = some r) :
    ∀ c ∈ r.netloc, authorityChar c = true := by
  obtain ⟨-, rfl⟩ := urlparse_eq_some_iff.mp h
  exact splitAuthority_chars _

/-- The brackets in the authority of a URL are balanced. -/
theorem not_unbalanced_of_urlparse {url : Str} {r : ParseResult} (h : urlparse url = some r) :
    ¬ Unbalanced r.netloc := by
  obtain ⟨hbal, rfl⟩ := urlparse_eq_some_iff.mp h
  exact hbal

/-- A URL with an authority and no scheme starts with two slashes. -/
theorem exists_eq_slashes {url : Str} {r : ParseResult} (h : urlparse url = some r)
    (hscheme : r.scheme = []) (hnetloc : r.netloc ≠ []) : ∃ rest, url = '/' :: '/' :: rest := by
  obtain ⟨-, rfl⟩ := urlparse_eq_some_iff.mp h
  rw [parseRest_scheme] at hscheme
  rw [parseRest_netloc, splitScheme_eq_of_nil hscheme, splitAuthority] at hnetloc
  split at hnetloc
  · next hslash =>
    obtain ⟨rest, hrest⟩ := List.isPrefixOf_iff_prefix.mp hslash
    exact ⟨rest, hrest.symm⟩
  · exact absurd rfl hnetloc

/-- A URL put together from a scheme and what follows its two slashes. -/
theorem urlparse_append {scheme : Str} (hne : scheme ≠ [])
    (hchars : ∀ c ∈ scheme, schemeChar c = true) {rest : Str} {r : ParseResult} :
    urlparse (scheme ++ "://".toList ++ rest) = some r ↔
      ¬ Unbalanced (rest.takeWhile authorityChar) ∧
        parseRest (scheme.map Char.toLower) (rest.takeWhile authorityChar)
          (rest.dropWhile authorityChar) = r := by
  rw [urlparse_eq_some_iff, splitScheme_append hne hchars, splitAuthority_slashes, splitNetloc]

end Urlparse
