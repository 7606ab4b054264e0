import ScriptsMisc.Lib.Uri
import ScriptsMisc.Python.Crawler

/-! # Relative links

The crawler puts scheme and host in front of a link that has none. That is the URL the link stands
for only when the link is an absolute path without dot segments.
-/

namespace Crawler

open Urlparse

/-- The URL that is queued for the link `x` of the page at `curURL`. -/
def queuedURL (curURL : ParseResult) (x : Str) : Option Str :=
  (urlparse x).bind fun linkURL => rewriteLink curURL linkURL x

/-- The links that are queued are those that have a queued URL. -/
theorem admittedLinks_eq (curURL : ParseResult) (links : List Str) :
    admittedLinks curURL links = links.filterMap (queuedURL curURL) := rfl

/-- The URL that the link `x` of the page at `curPage` stands for, without its fragment. -/
def resolvedURL (curPage x : Str) : Str :=
  Uri.recompose { Uri.resolve (Uri.parse curPage) (Uri.parse x) with fragment := none }

/-- A URL without its fragment. -/
def withoutFragment (url : Str) : Str := url.takeWhile (· ≠ '#')

/-! ## The parts of a page URL -/

/-- A URL with a scheme starts with it. -/
theorem exists_scheme_append {url : Str} (h : (splitScheme url).1 ≠ []) :
    ∃ scheme, scheme ≠ [] ∧ (∀ c ∈ scheme, schemeChar c = true) ∧
      url = scheme ++ ':' :: (splitScheme url).2 ∧
      (splitScheme url).1 = scheme.map Char.toLower := by
  have hcut : ':' ∈ url →
      url = url.takeWhile (· ≠ ':') ++ ':' :: (url.dropWhile (· ≠ ':')).drop 1 := by
    intro hcolon
    obtain ⟨pre, post, rfl, hpre⟩ := List.eq_append_cons_of_mem hcolon
    rw [Text.takeWhile_append_of_notMem hpre, Text.dropWhile_append_of_notMem hpre]
    simp
  simp only [splitScheme] at h ⊢
  split at h
  · exact absurd rfl h
  · next hne =>
    obtain ⟨hscheme, hcolon⟩ := not_or.mp hne
    rw [if_neg hne]
    split at h
    · next hhttp =>
      rw [if_pos hhttp]
      refine ⟨url.takeWhile (· ≠ ':'), hscheme, ?_, hcut (not_not.mp hcolon), ?_⟩
      · rw [hhttp]
        exact Text.forall_mem_of_all (by decide)
      · simp only [hhttp]
        decide
    · next hhttp =>
      rw [if_neg hhttp]
      split at h
      · next hchars =>
        rw [if_pos hchars]
        exact ⟨url.takeWhile (· ≠ ':'), hscheme,
          List.all_eq_true.mp (Bool.and_eq_true_iff.mp hchars).1, hcut (not_not.mp hcolon), rfl⟩
      · exact absurd rfl h

/-- The characters of a scheme are those of RFC 3986. -/
theorem uri_schemeChar {c : Char} (h : schemeChar c = true) : Uri.schemeChar c = true := by
  have hne : ∀ d : Char, schemeChar d = false → decide (c ≠ d) = true := by
    intro d hd
    rw [decide_eq_true_eq]
    rintro rfl
    rw [hd] at h
    exact absurd h (by decide)
  rw [Uri.schemeChar, hne ':' (by decide), hne '/' (by decide), hne '?' (by decide),
    hne '#' (by decide)]
  rfl

/-- The parts of a page URL that a reference is resolved against. -/
theorem parse_of_urlparse {curPage : Str} {curURL : ParseResult}
    (h : urlparse curPage = some curURL) (hscheme : curURL.scheme ≠ [])
    (hnetloc : curURL.netloc ≠ []) (hpath : curURL.path.head? = some '/') :
    (Uri.parse curPage).scheme = some curURL.scheme ∧
      (Uri.parse curPage).authority = some curURL.netloc ∧
      (Uri.parse curPage).path.head? = some '/' := by
  obtain ⟨-, rfl⟩ := urlparse_eq_some_iff.mp h
  rw [parseRest_scheme] at hscheme
  rw [parseRest_netloc] at hnetloc
  obtain ⟨scheme, hne, hchars, hurl, hlower⟩ := exists_scheme_append hscheme
  have huri : Uri.splitScheme curPage =
      (some (splitScheme curPage).1, (splitScheme curPage).2) := by
    rw [hlower]
    conv => lhs; rw [hurl]
    exact Uri.splitScheme_append hne (fun c hc => uri_schemeChar (hchars c hc)) _
  have hauth : Uri.splitAuthority (splitScheme curPage).2 =
      (some (splitAuthority (splitScheme curPage).2).1,
        (splitAuthority (splitScheme curPage).2).2) := by
    rw [splitAuthority] at hnetloc
    split at hnetloc
    · next hslash =>
      rw [Uri.splitAuthority, splitAuthority, if_pos hslash, if_pos hslash]
      rfl
    · exact absurd rfl hnetloc
  refine ⟨?_, ?_, ?_⟩
  · show (Uri.splitScheme curPage).1 = _
    rw [huri]
    rfl
  · show (Uri.splitAuthority (Uri.splitScheme curPage).2).1 = _
    rw [huri, hauth]
    rfl
  · have hstart := path_prefix_of_parseRest (splitScheme curPage).1
      (splitAuthority (splitScheme curPage).2).1 (splitAuthority (splitScheme curPage).2).2
    have hsame : (Uri.parse curPage).path =
        (splitFirst '?' (splitFirst '#' (splitAuthority (splitScheme curPage).2).2).1).1 := by
      show (Uri.splitMarked '?' (Uri.splitMarked '#'
        (Uri.splitAuthority (Uri.splitScheme curPage).2).2).1).1 = _
      rw [huri, hauth]
      rfl
    obtain ⟨rest, hrest⟩ := hstart
    rw [hsame, ← hrest, List.head?_append, hpath, Option.some_or]

/-! ## Relative references -/

/-- A reference without scheme and authority is put behind scheme and host. -/
theorem queuedURL_of_relative {curURL : ParseResult} {x : Str}
    (hscheme : (Uri.parse x).scheme = none) (hauthority : (Uri.parse x).authority = none) :
    queuedURL curURL x = some (curURL.scheme ++ "://".toList ++ (curURL.netloc ++ x)) := by
  have hsplit : (splitScheme x).1 = [] := by
    by_contra hne
    obtain ⟨scheme, hscheme', hchars, hx, -⟩ := exists_scheme_append hne
    have hsome := Uri.splitScheme_append hscheme' (fun c hc => uri_schemeChar (hchars c hc))
      (splitScheme x).2
    rw [← hx] at hsome
    have hnone : (Uri.splitScheme x).1 = none := hscheme
    rw [hsome] at hnone
    exact absurd hnone (Option.some_ne_none _)
  have hrest : (Uri.splitScheme x).2 = x := Uri.splitScheme_of_none hscheme
  have hslash : ¬ "//".toList.isPrefixOf x = true := by
    intro hslash
    have hnone : (Uri.splitAuthority (Uri.splitScheme x).2).1 = none := hauthority
    rw [hrest, Uri.splitAuthority, if_pos hslash] at hnone
    exact absurd hnone (Option.some_ne_none _)
  have hparse : urlparse x = some (parseRest [] [] x) := by
    refine urlparse_eq_some_iff.mpr ?_
    rw [splitScheme_eq_of_nil hsplit, hsplit, splitAuthority, if_neg hslash]
    exact ⟨by simp [Unbalanced], rfl⟩
  simp [queuedURL, hparse, rewriteLink, parseRest]

/-- A reference without scheme and authority is resolved within those of the page. -/
theorem resolvedURL_eq {curPage x : Str} {scheme authority : Str}
    (hscheme : (Uri.parse curPage).scheme = some scheme)
    (hauthority : (Uri.parse curPage).authority = some authority)
    (hx : (Uri.parse x).scheme = none) (hx' : (Uri.parse x).authority = none) :
    resolvedURL curPage x = scheme ++ "://".toList ++ (authority ++
      ((Uri.resolve (Uri.parse curPage) (Uri.parse x)).path ++
        (Uri.resolve (Uri.parse curPage) (Uri.parse x)).query.elim [] ('?' :: ·))) := by
  rw [resolvedURL, Uri.recompose]
  simp only [Uri.resolve_scheme hx hx', Uri.resolve_authority hx hx', hscheme, hauthority,
    Option.elim_some, Option.elim_none, List.append_nil, List.append_assoc]
  rfl

/-- A fragment is dropped from the link. -/
theorem withoutFragment_append {curPage : Str} {curURL : ParseResult}
    (h : urlparse curPage = some curURL) (x : Str) :
    withoutFragment (curURL.scheme ++ "://".toList ++ (curURL.netloc ++ x)) =
      curURL.scheme ++ "://".toList ++ (curURL.netloc ++ x.takeWhile (· ≠ '#')) := by
  have hscheme : '#' ∉ curURL.scheme ++ "://".toList := by
    intro hc
    rcases List.mem_append.mp hc with hc | hc
    · exact absurd (urlparse_scheme_chars h '#' hc) (by decide)
    · exact absurd hc (by decide)
  have hnetloc : '#' ∉ curURL.netloc := fun hc =>
    absurd (urlparse_netloc_chars h '#' hc) (by decide)
  rw [withoutFragment, Text.takeWhile_append_of_notMem hscheme,
    Text.takeWhile_append_of_notMem hnetloc]

/-- A relative link is queued as the URL it stands for, up to the fragment, exactly when it is an
absolute path without dot segments. -/
theorem queuedURL_resolves_iff {curPage x : Str} {curURL : ParseResult}
    (h : urlparse curPage = some curURL) (hscheme : curURL.scheme ≠ [])
    (hnetloc : curURL.netloc ≠ []) (hpath : curURL.path.head? = some '/')
    (hx : (Uri.parse x).scheme = none) (hx' : (Uri.parse x).authority = none) :
    (∃ y, queuedURL curURL x = some y ∧ withoutFragment y = resolvedURL curPage x) ↔
      (Uri.parse x).path.head? = some '/' ∧ Uri.DotFree (Uri.parse x).path := by
  obtain ⟨hs, ha, hp⟩ := parse_of_urlparse h hscheme hnetloc hpath
  rw [← Uri.resolve_path_query_iff hx hx' hp, queuedURL_of_relative hx hx']
  simp only [Option.some.injEq, exists_eq_left']
  rw [withoutFragment_append h, resolvedURL_eq hs ha hx hx', Uri.takeWhile_eq_of_relative hx hx',
    List.append_right_inj, List.append_right_inj]

/-- A link with a query and a fragment, on a page without a dot. -/
theorem queuedURL_resolves_index :
    ∃ y, queuedURL ⟨"http".toList, "h".toList, "/a".toList, [], [], []⟩ "/b?q#f".toList = some y ∧
      withoutFragment y = resolvedURL "http://h/a".toList "/b?q#f".toList :=
  (queuedURL_resolves_iff (by decide) (by decide) (by decide) (by decide) (by decide)
    (by decide)).mpr (by decide)

/-- The link `b` of the page `http://h/a` is queued at another host. -/
theorem queuedURL_sibling :
    urlparse "http://h/a".toList =
        some ⟨"http".toList, "h".toList, "/a".toList, [], [], []⟩ ∧
      (Uri.parse "b".toList).scheme = none ∧ (Uri.parse "b".toList).authority = none ∧
      queuedURL ⟨"http".toList, "h".toList, "/a".toList, [], [], []⟩ "b".toList =
        some "http://hb".toList ∧
      resolvedURL "http://h/a".toList "b".toList = "http://h/b".toList := by
  decide

end Crawler
