import ScriptsMisc.Python.SavePage

/-! # Saves in the way of later saves

A page is saved as a file or, with an index page, as a directory. A sequence of saves goes wrong
where the file of one page is a directory on the way to another.
-/

namespace SavePage

open Urlparse

/-! ## Blocked saves -/

/-- Nothing is stored. The storage directory itself may be there. -/
structure Store.IsEmpty (st : Store) : Prop where
  files : st.files = []
  dirs : ∀ p ∈ st.dirs, p <+: [storeDir.dropLast]

/-- The file name of the page is `.` or `..`: the path names a directory. -/
def DotNamed (url : ParseResult) : Prop :=
  (pageSegments url).getLast? = some ".".toList ∨ (pageSegments url).getLast? = some "..".toList

instance (url : ParseResult) : Decidable (DotNamed url) := by
  unfold DotNamed; infer_instance

/-- The path of the page is a directory that is there already. One that ends with `.` or `..` is
when the directory before it is. -/
def ExistsAsDir (st : Store) (url : ParseResult) : Prop :=
  st.isDir (fileOf url) = true ∨ (DotNamed url ∧ st.isDir (fileOf url).dropLast = true)

/-- A directory on the path of the page was written as a file, or the path is a directory. -/
def Blocked (st : Store) (url : ParseResult) : Prop :=
  (∃ p, p <+: fileOf url ∧ p ≠ fileOf url ∧ st.isFile p = true) ∨ ExistsAsDir st url

/-- No page of the sequence is blocked when its turn comes. A save that raises ends the sequence. -/
def NeverBlocked : Store → List (ParseResult × Str) → Prop
  | _, [] => True
  | st, (url, data) :: pages =>
    ¬ Blocked st url ∧ ∀ st', savePage st url data = some st' → NeverBlocked st' pages

/-! ## Pages in each other's way -/

/-- The file of `a` is a directory on the way to `b`: `a` ends, its escapes read back, where `b`
has a segment that others follow. -/
def IsDirectoryOf (a b : ParseResult) : Prop :=
  Escape.endsWithin
    (fun s t => endMark.read (colonCode.decode s) = endMark.read (colonCode.decode t))
    (fun s t => colonCode.decode s = endMark.add (colonCode.decode t))
    (pageSegments a) (pageSegments b) = true

/-- The directories of the page, their escapes read back. -/
def directories (url : ParseResult) : List Str :=
  (pageSegments url).dropLast.map fun seg => endMark.read (colonCode.decode seg)

/-- A page saved before `b` that keeps `b` from being saved. -/
def InTheWay (a b : ParseResult) : Prop :=
  IsDirectoryOf a b ∨ IsDirectoryOf b a ∨ (DotNamed b ∧ directories b <+: directories a)

instance (a b : ParseResult) : Decidable (InTheWay a b) := by
  unfold InTheWay IsDirectoryOf; infer_instance

/-- The pages up to the first whose file name is `.` or `..`, which cannot be written. -/
def attempted : List (ParseResult × Str) → List (ParseResult × Str)
  | [] => []
  | page :: pages => if DotNamed page.1 then [page] else page :: attempted pages

/-! ## Paths and their directories -/

/-- A slash divides the segments. -/
theorem resolve_append_slash (s t : Str) : resolve (s ++ '/' :: t) = resolve s ++ resolve t := by
  rw [resolve, List.splitOn_append_cons_self, List.filter_append]
  rfl

/-- A text without a slash is one segment. -/
theorem resolve_of_notMem {s : Str} (h : '/' ∉ s) (hne : s ≠ []) : resolve s = [s] := by
  rw [resolve, List.splitOn_eq_singleton h, List.filter_cons_of_pos (by simpa using hne)]
  rfl

/-- Final slashes name no segment. -/
theorem resolve_strip (s : Str) :
    resolve (s.reverse.dropWhile (· == '/')).reverse = resolve s := by
  induction s using List.reverseRecOn with
  | nil => rfl
  | append_singleton s c ih =>
    rw [List.reverse_append, List.reverse_singleton, List.singleton_append]
    by_cases hc : c = '/'
    · subst hc
      rw [List.dropWhile_cons_of_pos (by decide), ih, resolve_append_slash]
      exact (List.append_nil _).symm
    · rw [List.dropWhile_cons_of_neg (by simpa using hc)]
      simp

/-- `os.path.dirname` names the directory a file stands in. -/
theorem resolve_dirname {path : Str} {c : Char} (hlast : path.getLast? = some c) (hc : c ≠ '/') :
    resolve (dirname path) = (resolve path).dropLast := by
  let name := (path.reverse.takeWhile (· ≠ '/')).reverse
  let head := (path.reverse.dropWhile (· ≠ '/')).reverse
  have hsplit : head ++ name = path := by
    rw [← List.reverse_append, List.takeWhile_append_dropWhile, List.reverse_reverse]
  have hname : '/' ∉ name := fun hmem => by
    simpa using List.all_eq_true.mp List.all_takeWhile _ (List.mem_reverse.mp hmem)
  have hne : name ≠ [] := by
    obtain ⟨ys, rfl⟩ := List.getLast?_eq_some_iff.mp hlast
    simp [name, hc]
  have htake : path.take (path.length - (path.reverse.takeWhile (· ≠ '/')).length) = head := by
    have hlen : (path.reverse.takeWhile (· ≠ '/')).length = name.length := List.length_reverse.symm
    rw [hlen, ← hsplit, List.length_append, Nat.add_sub_cancel, List.take_left]
  have hdir : resolve (dirname path) = resolve head := by
    rw [dirname]
    simp only [htake]
    split
    · rfl
    · exact resolve_strip head
  have hpath : resolve path = resolve head ++ [name] := by
    cases hhead : head.reverse with
    | nil =>
      have hnil : head = [] := List.reverse_eq_nil_iff.mp hhead
      rw [← hsplit, hnil, List.nil_append, resolve_of_notMem hname hne]
      rfl
    | cons d rest =>
      have hd : d = '/' := by
        have h := List.head?_dropWhile_not (· ≠ '/') path.reverse
        rw [show path.reverse.dropWhile (· ≠ '/') = d :: rest by simpa [head] using hhead] at h
        simpa using h
      have hcut : head = rest.reverse ++ ['/'] := by
        rw [← List.reverse_reverse head, hhead, hd, List.reverse_cons]
      rw [← hsplit, hcut, List.append_assoc, List.singleton_append, resolve_append_slash,
        resolve_append_slash, resolve_of_notMem hname hne]
      exact congrArg (· ++ [name]) (List.append_nil _).symm
  rw [hdir, hpath, List.dropLast_concat]

/-! ## The segments of a page -/

/-- A page with a host. -/
def Hosted (url : ParseResult) : Prop := ∃ u, urlparse u = some url ∧ url.netloc ≠ []

/-- A page with a host has a segment for the host and a file name. -/
theorem exists_pageSegments_eq {url : ParseResult} (h : Hosted url) :
    ∃ segs, segs ≠ [] ∧ pageSegments url = url.netloc :: segs := by
  obtain ⟨u, hu, hnetloc⟩ := h
  obtain ⟨c, hlast, hc⟩ := getLast?_indexPath url.path
  have hslash : ∃ rest, indexPath url.path = '/' :: rest := by
    by_cases hpath : url.path = []
    · exact ⟨_, by rw [hpath]; rfl⟩
    · obtain ⟨rest, hrest⟩ := List.head?_eq_some_iff.mp (urlparse_path_head hu hnetloc hpath)
      rw [indexPath, hrest]
      split
      · exact ⟨_, rfl⟩
      · split <;> exact ⟨_, rfl⟩
  obtain ⟨rest, hrest⟩ := hslash
  have hhost : '/' ∉ url.netloc := fun hmem =>
    absurd (urlparse_netloc_chars hu '/' hmem) (by decide)
  have hrestlast : rest.getLast? = some c := by
    rw [hrest] at hlast
    cases rest with
    | nil => exact absurd (Option.some.inj hlast).symm hc
    | cons d rest => rwa [List.getLast?_cons_cons] at hlast
  refine ⟨(rest.splitOn '/').filter (· ≠ []), ?_, ?_⟩
  · intro hnil
    obtain ⟨seg, hseg⟩ : ∃ seg, (rest.splitOn '/').getLast? = some seg :=
      ⟨_, List.getLast?_eq_some_getLast (List.splitOn_ne_nil '/' rest)⟩
    have hempty := List.filter_eq_nil_iff.mp hnil seg (List.mem_of_getLast? hseg)
    refine getLast?_splitOn_ne hrestlast hc ?_
    rw [hseg]
    simpa using hempty
  · rw [pageSegments, hrest, List.splitOn_append_cons_self_of_not_mem hhost,
      List.filter_cons_of_pos (by simpa using hnetloc)]

section Page

variable {url : ParseResult} (h : Hosted url)
include h

/-- The path of a page has a segment. -/
theorem pageSegments_ne_nil : pageSegments url ≠ [] := by
  obtain ⟨segs, -, hsegs⟩ := exists_pageSegments_eq h
  rw [hsegs]
  exact List.cons_ne_nil _ _

/-- There is no question mark in the path of a URL that was parsed. -/
theorem hosted_path_question : '?' ∉ url.path := by
  obtain ⟨u, hu, -⟩ := h
  exact urlparse_path_question hu

/-- The file has a name. -/
theorem fileOf_ne_nil : fileOf url ≠ [] := by
  rw [fileOf_eq (hosted_path_question h)]
  exact List.cons_ne_nil _ _

/-- The directory of a page. -/
theorem dropLast_fileOf :
    (fileOf url).dropLast = "crawler-download".toList ::
      (pageSegments url).dropLast.map fun seg => colonCode.encode (endMark.add seg) := by
  rw [fileOf_eq (hosted_path_question h), List.dropLast_cons_of_ne_nil
    (Escape.mapSegments_ne_nil _ _ (pageSegments_ne_nil h)), Escape.dropLast_mapSegments]

/-- The directory of a page stands inside the storage directory. -/
theorem dropLast_fileOf_inside : ¬ (fileOf url).dropLast <+: ["crawler-download".toList] := by
  obtain ⟨segs, hne, hsegs⟩ := exists_pageSegments_eq h
  rw [dropLast_fileOf h, hsegs, List.dropLast_cons_of_ne_nil hne]
  simp

/-- It is the one that `dirname` gives. -/
theorem resolve_dirname_targetPath :
    resolve (dirname (targetPath url)) = (fileOf url).dropLast := by
  obtain ⟨c, hlast, hc⟩ := getLast?_indexPath url.path
  have hend : (targetPath url).getLast? ≠ some '/' := by
    rw [targetPath_eq (hosted_path_question h)]
    refine colonCode.getLast?_encode_ne (by decide) ?_
    rw [endMark.getLast?_write, List.getLast?_append, List.getLast?_append, hlast]
    simpa using hc
  have hne : targetPath url ≠ [] := by
    intro hnil
    exact fileOf_ne_nil h (by rw [fileOf, hnil]; rfl)
  have hsome := List.getLast?_eq_some_getLast hne
  exact resolve_dirname hsome fun hslash => hend (hsome.trans (congrArg some hslash))

/-- A file name without escapes is the last segment of the page. -/
theorem getLast?_fileOf {w : Str} (hw : ':' ∉ w) (hw' : '(' ∉ w) :
    (fileOf url).getLast? = some w ↔ (pageSegments url).getLast? = some w := by
  have hne := Escape.mapSegments_ne_nil (fun seg => colonCode.encode (endMark.add seg))
    colonCode.encode (pageSegments_ne_nil h)
  obtain ⟨x, xs, hxs⟩ := List.exists_cons_of_ne_nil hne
  have hlast := Escape.getLast?_mapSegments (fun seg => colonCode.encode (endMark.add seg))
    colonCode.encode (pageSegments url)
  rw [fileOf_eq (hosted_path_question h), hxs, List.getLast?_cons_cons, ← hxs, hlast,
    Option.map_eq_some_iff]
  constructor
  · rintro ⟨seg, hseg, rfl⟩
    have hletter : ':' ∉ seg := fun hmem => hw' (colonCode.head_mem_encode hmem)
    rw [hseg, colonCode.encode_eq_self hletter]
  · exact fun hseg => ⟨w, hseg, colonCode.encode_eq_self hw⟩

/-- The file of a page has the name of a dot directory. -/
theorem dotNamed_iff :
    DotNamed url ↔
      (fileOf url).getLast? = some ".".toList ∨ (fileOf url).getLast? = some "..".toList := by
  rw [getLast?_fileOf h (by decide) (by decide), getLast?_fileOf h (by decide) (by decide),
    DotNamed]

end Page

/-! ## Pages in each other's way, by their files -/

/-- A page needs the file of another for a directory. -/
theorem isDirectoryOf_iff {a b : ParseResult} (ha : Hosted a) (hb : Hosted b) :
    IsDirectoryOf a b ↔ fileOf a <+: fileOf b ∧ fileOf a ≠ fileOf b := by
  rw [fileOf_eq (hosted_path_question ha), fileOf_eq (hosted_path_question hb),
    List.cons_prefix_cons, ne_eq, List.cons.injEq, IsDirectoryOf,
    Escape.endsWithin_iff (f := fun seg => colonCode.encode (endMark.add seg))
      (g := colonCode.encode) ?_ ?_ (pageSegments_ne_nil ha)]
  · tauto
  · exact fun s t => decide_eq_true_iff.trans (encode_add_eq_iff s t).symm
  · intro s t
    rw [decide_eq_true_iff, colonCode.encode_eq_iff, decode_add]

/-- The directories of a page are among those of another. -/
theorem directories_prefix_iff {a b : ParseResult} (ha : Hosted a) (hb : Hosted b) :
    directories b <+: directories a ↔ (fileOf b).dropLast <+: (fileOf a).dropLast := by
  rw [dropLast_fileOf ha, dropLast_fileOf hb, List.cons_prefix_cons, directories, directories,
    Escape.map_prefix_map_iff encode_add_eq_iff]
  exact (and_iff_right rfl).symm

/-- A path is a proper prefix exactly when it is one of the directories. -/
theorem prefix_dropLast_iff {p q : Place} (hq : q ≠ []) :
    p <+: q.dropLast ↔ p <+: q ∧ p ≠ q := by
  obtain ⟨xs, x, rfl⟩ := (List.eq_nil_or_concat' q).resolve_left hq
  rw [List.dropLast_concat, List.prefix_concat_iff]
  constructor
  · intro hp
    refine ⟨Or.inr hp, ?_⟩
    rintro rfl
    have hlen := hp.length_le
    rw [List.length_append, List.length_singleton] at hlen
    omega
  · rintro ⟨rfl | hp, hne⟩
    · exact absurd rfl hne
    · exact hp

/-! ## What is on the disk -/

/-- The files are those of the pages saved so far, and so are the directories inside the storage
directory. -/
structure Holds (st : Store) (saved : List ParseResult) : Prop where
  isFile : ∀ p, st.isFile p = true ↔ ∃ a ∈ saved, p = fileOf a
  isDir : ∀ p, ¬ p <+: ["crawler-download".toList] →
    (st.isDir p = true ↔ ∃ a ∈ saved, p <+: (fileOf a).dropLast)

/-- An empty store holds no page. -/
theorem Store.IsEmpty.holds {st : Store} (h : st.IsEmpty) : Holds st [] where
  isFile p := by simp [Store.isFile, Store.read, h.files]
  isDir p hp := by
    have hne : p ≠ [] := by
      rintro rfl
      exact hp List.nil_prefix
    have hmem : p ∉ st.dirs := fun hmem => hp (h.dirs p hmem)
    simp [Store.isDir, hne, hmem]

section Step

variable {st : Store} {saved : List ParseResult} {url : ParseResult}

/-- A save is blocked by an earlier page, and by nothing else. -/
theorem blocked_iff (hst : Holds st saved) (hsaved : ∀ a ∈ saved, Hosted a) (h : Hosted url) :
    Blocked st url ↔ ∃ a ∈ saved, InTheWay a url := by
  have hinside := dropLast_fileOf_inside h
  have hinside' : ¬ fileOf url <+: ["crawler-download".toList] := fun hp =>
    hinside ((List.dropLast_prefix _).trans hp)
  have hfile : (∃ p, p <+: fileOf url ∧ p ≠ fileOf url ∧ st.isFile p = true) ↔
      ∃ a ∈ saved, IsDirectoryOf a url := by
    constructor
    · rintro ⟨p, hp, hne, hpfile⟩
      obtain ⟨a, ha, rfl⟩ := (hst.isFile p).mp hpfile
      exact ⟨a, ha, (isDirectoryOf_iff (hsaved a ha) h).mpr ⟨hp, hne⟩⟩
    · rintro ⟨a, ha, hdir⟩
      obtain ⟨hp, hne⟩ := (isDirectoryOf_iff (hsaved a ha) h).mp hdir
      exact ⟨fileOf a, hp, hne, (hst.isFile _).mpr ⟨a, ha, rfl⟩⟩
  have hdir : st.isDir (fileOf url) = true ↔ ∃ a ∈ saved, IsDirectoryOf url a := by
    rw [hst.isDir _ hinside']
    refine exists_congr fun a => and_congr_right fun ha => ?_
    rw [isDirectoryOf_iff h (hsaved a ha), prefix_dropLast_iff (fileOf_ne_nil (hsaved a ha))]
  have hdot : (DotNamed url ∧ st.isDir (fileOf url).dropLast = true) ↔
      ∃ a ∈ saved, DotNamed url ∧ directories url <+: directories a := by
    rw [hst.isDir _ hinside]
    constructor
    · rintro ⟨hdot, a, ha, hp⟩
      exact ⟨a, ha, hdot, (directories_prefix_iff (hsaved a ha) h).mpr hp⟩
    · rintro ⟨a, ha, hdot, hp⟩
      exact ⟨hdot, a, ha, (directories_prefix_iff (hsaved a ha) h).mp hp⟩
  rw [Blocked, ExistsAsDir, hfile, hdir, hdot]
  simp only [InTheWay, and_or_left, exists_or]

/-- `open` refuses a file name that is `.` or `..`. -/
theorem savePage_of_dotNamed (h : Hosted url) (hdot : DotNamed url) (data : Str) :
    savePage st url data = none := by
  have hwrite : ∀ st : Store, st.write (targetPath url) data = none := by
    intro st
    simp only [Store.write]
    rw [if_pos]
    exact Or.inr (Or.inr ((dotNamed_iff h).mp hdot))
  simp only [savePage, hwrite]
  split
  · rfl
  · exact Option.bind_eq_none_iff.mpr fun st _ => rfl

/-- A save that is not blocked makes the directories of the page and writes into the last. -/
theorem exists_savePage_eq_write (hst : Holds st saved) (h : Hosted url) (hfree : ¬ Blocked st url)
    (data : Str) :
    ∃ st₀ : Store, st₀.files = st.files ∧
      (∀ p, ¬ p <+: ["crawler-download".toList] →
        (st₀.isDir p = true ↔ st.isDir p = true ∨ p <+: (fileOf url).dropLast)) ∧
      savePage st url data = st₀.write (targetPath url) data := by
  have hnofile : ∀ p, p <+: (fileOf url).dropLast → st.isFile p = false := by
    intro p hp
    obtain ⟨hp', hne⟩ := (prefix_dropLast_iff (fileOf_ne_nil h)).mp hp
    by_contra hpfile
    exact hfree (Or.inl ⟨p, hp', hne, by simpa using hpfile⟩)
  simp only [savePage, resolve_dirname_targetPath h, hnofile _ (List.prefix_refl _),
    Bool.false_or]
  by_cases hdir : st.isDir (fileOf url).dropLast = true
  · -- the directory was made for an earlier page
    refine ⟨st, rfl, fun p hp => (or_iff_left_of_imp fun hpre => ?_).symm, if_pos hdir⟩
    obtain ⟨a, ha, hpa⟩ := (hst.isDir _ (dropLast_fileOf_inside h)).mp hdir
    exact (hst.isDir p hp).mpr ⟨a, ha, hpre.trans hpa⟩
  · have hmake : st.makedirs (fileOf url).dropLast =
        some ⟨(fileOf url).dropLast.inits ++ st.dirs, st.files⟩ := by
      rw [Store.makedirs, if_neg]
      simpa [List.mem_inits] using hnofile
    refine ⟨⟨(fileOf url).dropLast.inits ++ st.dirs, st.files⟩, rfl, fun p hp => ?_, ?_⟩
    · have hne : p ≠ [] := by
        rintro rfl
        exact hp List.nil_prefix
      simp only [Store.isDir, List.isEmpty_eq_false_iff.mpr hne, Bool.false_or,
        List.contains_eq_mem, List.mem_append, List.mem_inits, decide_eq_true_eq]
      exact or_comm
    · rw [if_neg hdir, hmake, Option.bind_some]

/-- A save that is not blocked adds the page. -/
theorem exists_savePage_eq_some (hst : Holds st saved) (h : Hosted url) (hdot : ¬ DotNamed url)
    (hfree : ¬ Blocked st url) (data : Str) :
    ∃ st', savePage st url data = some st' ∧ Holds st' (url :: saved) := by
  have hinside := dropLast_fileOf_inside h
  have hinside' : ¬ fileOf url <+: ["crawler-download".toList] := fun hp =>
    hinside ((List.dropLast_prefix _).trans hp)
  obtain ⟨st₀, hfiles, hdirs, hsave⟩ := exists_savePage_eq_write hst h hfree data
  have hnotdir : ¬ st₀.isDir (fileOf url) = true := by
    rw [hdirs _ hinside', not_or]
    refine ⟨fun hdir => hfree (Or.inr (Or.inl hdir)), fun hp => ?_⟩
    exact ((prefix_dropLast_iff (fileOf_ne_nil h)).mp hp).2 rfl
  have hparent : st₀.isDir (fileOf url).dropLast = true :=
    (hdirs _ hinside).mpr (Or.inr (List.prefix_refl _))
  have hwrite : st₀.write (targetPath url) data =
      some ⟨st₀.dirs, (fileOf url, data) :: st₀.files⟩ := by
    simp only [Store.write, resolve_dirname_targetPath h]
    rw [if_neg]
    · rfl
    · rintro (hdir | hdir | hlast)
      · exact hnotdir hdir
      · rw [hparent] at hdir
        exact absurd hdir (by decide)
      · exact hdot ((dotNamed_iff h).mpr hlast)
  refine ⟨_, hsave.trans hwrite, ⟨fun p => ?_, fun p hp => ?_⟩⟩
  · have hread := savePage_read (hsave.trans hwrite) p
    rw [Store.isFile, hread, List.exists_mem_cons_iff, ← hst.isFile p, Store.isFile]
    split <;> simp [*]
  · have hsame : Store.isDir ⟨st₀.dirs, (fileOf url, data) :: st₀.files⟩ p = st₀.isDir p := rfl
    rw [hsame, hdirs p hp, hst.isDir p hp, List.exists_mem_cons_iff, or_comm]

end Step

/-! ## Sequences of saves -/

/-- The pages are saved one after the other when no file is in the way of another. -/
theorem neverBlocked_iff_of_holds {st : Store} {saved : List ParseResult}
    {pages : List (ParseResult × Str)} (hst : Holds st saved) (hsaved : ∀ a ∈ saved, Hosted a)
    (hpages : ∀ page ∈ pages, Hosted page.1) :
    NeverBlocked st pages ↔
      (∀ a ∈ saved, ∀ page ∈ attempted pages, ¬ InTheWay a page.1) ∧
        (attempted pages).Pairwise fun p q => ¬ InTheWay p.1 q.1 := by
  induction pages generalizing st saved with
  | nil => simp [NeverBlocked, attempted]
  | cons page pages ih =>
    obtain ⟨url, data⟩ := page
    obtain ⟨h, hpages⟩ := List.forall_mem_cons.mp hpages
    have hblocked := blocked_iff hst hsaved h
    rw [NeverBlocked, attempted]
    by_cases hdot : DotNamed url
    · -- the sequence ends with this page
      have hnone : savePage st url data = none := savePage_of_dotNamed h hdot data
      rw [if_pos hdot, hblocked]
      simp [hnone]
    · rw [if_neg hdot]
      by_cases hfree : Blocked st url
      · obtain ⟨a, ha, hway⟩ := hblocked.mp hfree
        refine iff_of_false (fun hnever => hnever.1 hfree) fun hclear => ?_
        exact hclear.1 a ha (url, data) List.mem_cons_self hway
      · obtain ⟨st', hsave, hst'⟩ := exists_savePage_eq_some hst h hdot hfree data
        have hrest := ih hst' (List.forall_mem_cons.mpr ⟨h, hsaved⟩) hpages
        have hclear : ∀ a ∈ saved, ¬ InTheWay a url := fun a ha hway =>
          hfree (hblocked.mpr ⟨a, ha, hway⟩)
        have hnext : (∀ st'', savePage st url data = some st'' → NeverBlocked st'' pages) ↔
            NeverBlocked st' pages := by
          rw [hsave]
          simp
        rw [hnext, hrest, List.pairwise_cons, List.forall_mem_cons]
        constructor
        · rintro ⟨-, ⟨hurl, hold⟩, hpair⟩
          refine ⟨fun a ha => List.forall_mem_cons.mpr ⟨hclear a ha, hold a ha⟩, hurl, hpair⟩
        · rintro ⟨hold, hurl, hpair⟩
          refine ⟨hfree, ⟨hurl, fun a ha => ?_⟩, hpair⟩
          exact (List.forall_mem_cons.mp (hold a ha)).2

/-- From an empty storage directory no save is blocked by an earlier one exactly when, among the
pages up to the first that cannot be written at all, no page is in the way of a later one. -/
theorem neverBlocked_iff {st : Store} (hst : st.IsEmpty) (pages : List (ParseResult × Str))
    (hpages : ∀ page ∈ pages, Hosted page.1) :
    NeverBlocked st pages ↔ (attempted pages).Pairwise fun p q => ¬ InTheWay p.1 q.1 := by
  rw [neverBlocked_iff_of_holds hst.holds (fun a ha => absurd ha List.not_mem_nil) hpages]
  simp

/-- Two pages of one directory are saved side by side. -/
theorem neverBlocked_siblings :
    NeverBlocked ⟨[], []⟩
      [(⟨"http".toList, "h".toList, "/d/a.b".toList, [], [], []⟩, "1".toList),
        (⟨"http".toList, "h".toList, "/d/c".toList, [], [], []⟩, "2".toList)] :=
  (neverBlocked_iff ⟨rfl, fun p hp => absurd hp List.not_mem_nil⟩ _
    (List.forall_mem_cons.mpr ⟨⟨"http://h/d/a.b".toList, by decide, by decide⟩,
      List.forall_mem_singleton.mpr ⟨"http://h/d/c".toList, by decide, by decide⟩⟩)).mpr
    (by decide +kernel)

/-- The file of `/a.b` is a directory on the way to `/a.b/c.d`. -/
theorem savePages_fails :
    ∃ a b, urlparse "http://h/a.b".toList = some a ∧ urlparse "http://h/a.b/c.d".toList = some b ∧
      fileOf a ≠ fileOf b ∧ ∃ st, savePage ⟨[], []⟩ a "1".toList = some st ∧ Blocked st b ∧
        savePage st b "2".toList = none :=
  ⟨⟨"http".toList, "h".toList, "/a.b".toList, [], [], []⟩,
    ⟨"http".toList, "h".toList, "/a.b/c.d".toList, [], [], []⟩, by decide, by decide, by decide,
    _, rfl, Or.inl ⟨["crawler-download".toList, "h".toList, "a.b".toList], by decide +kernel⟩,
    by decide +kernel⟩

end SavePage
