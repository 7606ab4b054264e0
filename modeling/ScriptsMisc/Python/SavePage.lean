import ScriptsMisc.Lib.Escape
import ScriptsMisc.Lib.Regex
import ScriptsMisc.Python.Urlparse

/-! # `savePage`

The crawler stores each page under its host and path. The file name is the path, completed by an
index page where it looks like a directory, with three substitutions for the characters a file
name cannot hold. Parameters and query take no part in it.
-/

namespace SavePage

open Urlparse

/-- `storeDir`. -/
def storeDir : Str := "crawler-download/".toList

/-- `url[2][url[2].rfind('/'):len(url[2])]`; without a slash `rfind` is `-1` and the slice is the
last character. -/
def lastSlice (path : Str) : Str :=
  if '/' ∈ path then '/' :: (path.reverse.takeWhile (· ≠ '/')).reverse
  else path.drop (path.length - 1)

/-- The path that is written, before the substitutions for `./` and `:`. -/
def rawPath (url : ParseResult) : Str :=
  if url.path.getLast? = some '/' then
    storeDir ++ url.netloc ++ url.path ++ "index.html".toList
  else if url.path = [] ∨ '.' ∉ lastSlice url.path then
    storeDir ++ url.netloc ++ url.path ++ "/index.html".toList
  else
    storeDir ++ url.netloc ++ Regex.replaceAll (.chr '?') (fun _ => "(&q&)".toList) url.path

/-- The path that is written. -/
def targetPath (url : ParseResult) : Str :=
  let path := Regex.replaceAll (.lit "./".toList) (fun _ => ".(&end&)/".toList) (rawPath url)
  Regex.replaceAll (.chr ':') (fun _ => "(&col&)".toList) path

/-- `os.path.dirname`. -/
def dirname (path : Str) : Str :=
  let head := path.take (path.length - (path.reverse.takeWhile (· ≠ '/')).length)
  -- final slashes go, unless there is nothing else
  if head.all (· == '/') then head else (head.reverse.dropWhile (· == '/')).reverse

/-! ## The file store -/

/-- The place a path names: its segments, runs of slashes counting as one. -/
abbrev Place := List Str

/-- The place named by a path. -/
def resolve (path : Str) : Place := (path.splitOn '/').filter (· ≠ [])

/-- The directories and files of a disk; the latest contents of a file stand first. Places are
compared with their case, as on a POSIX file system. -/
structure Store where
  dirs : List Place
  files : List (Place × Str)
deriving DecidableEq, Repr

/-- The contents of a file. -/
def Store.read (st : Store) (p : Place) : Option Str := st.files.lookup p

def Store.isFile (st : Store) (p : Place) : Bool := (st.read p).isSome

def Store.isDir (st : Store) (p : Place) : Bool := p.isEmpty || st.dirs.contains p

/-- `os.makedirs`; `none` when a file stands in the way. -/
def Store.makedirs (st : Store) (p : Place) : Option Store :=
  if p.inits.any st.isFile then none else some { st with dirs := p.inits ++ st.dirs }

/-- `open(path, 'w')`, the write and the close; `none` is the `IOError` of a path that names a
directory or has no directory to stand in. -/
def Store.write (st : Store) (path data : Str) : Option Store :=
  let file := resolve path
  if st.isDir file ∨ !st.isDir (resolve (dirname path)) ∨
      file.getLast? = some ".".toList ∨ file.getLast? = some "..".toList then none
  else some { st with files := (file, data) :: st.files }

/-- `savePage(url, data)`; `none` is an exception. -/
def savePage (st : Store) (url : ParseResult) (data : Str) : Option Store :=
  let path := targetPath url
  let dir := resolve (dirname path)
  -- `os.path.exists`
  if st.isFile dir || st.isDir dir then st.write path data
  else (st.makedirs dir).bind fun st => st.write path data

/-- The file a page is saved to. -/
def fileOf (url : ParseResult) : Place := resolve (targetPath url)

/-- Save pages one after the other. -/
def savePages (st : Store) : List (ParseResult × Str) → Option Store
  | [] => some st
  | (url, data) :: pages => (savePage st url data).bind fun st => savePages st pages

/-! ## What a page's file name depends on -/

/-- `(&col&)` for a colon. -/
def colonCode : Escape.Code Char where
  letter := ':'
  head := '('
  tail := "&col&)".toList
  letter_ne_head := by decide
  letter_notMem := by decide
  head_notMem := by decide

/-- `(&q&)` for a question mark. -/
def questionCode : Escape.Code Char where
  letter := '?'
  head := '('
  tail := "&q&)".toList
  letter_ne_head := by decide
  letter_notMem := by decide
  head_notMem := by decide

/-- `(&end&)` for the end of a segment that ends with a dot. -/
def endMark : Escape.Mark Char where
  dot := '.'
  sep := '/'
  text := "(&end&)".toList
  dot_ne_sep := by decide
  sep_notMem := by decide
  last := ')'
  text_getLast? := by decide
  last_ne_dot := by decide

/-- A path with its index page. -/
def indexPath (path : Str) : Str :=
  if path.getLast? = some '/' then path ++ "index.html".toList
  else if path = [] ∨ '.' ∉ lastSlice path then path ++ "/index.html".toList
  else path

/-- The segments of host and path, with the index page. -/
def pageSegments (url : ParseResult) : List Str :=
  ((url.netloc ++ indexPath url.path).splitOn '/').filter (· ≠ [])

/-- The segments with the escapes that stand in them read back: `(&col&)` as a colon, and
`(&end&)` behind the final dot of a segment, unless it is the last, as nothing. -/
def readSegments (segments : List Str) : List Str :=
  Escape.mapSegments (fun seg => endMark.read (colonCode.decode seg)) colonCode.decode segments

/-- Two URLs whose hosts and paths the file names cannot tell apart. -/
def SamePage (a b : ParseResult) : Prop :=
  readSegments (pageSegments a) = readSegments (pageSegments b)

instance (a b : ParseResult) : Decidable (SamePage a b) := by
  unfold SamePage; infer_instance

/-- The `./` substitution marks segment ends. -/
theorem replaceAll_dotSlash (s : Str) :
    Regex.replaceAll (.lit "./".toList) (fun _ => ".(&end&)/".toList) s = endMark.write s := by
  apply Regex.scan_induction
    (P := fun _ s ps => Regex.render (fun _ => ".(&end&)/".toList) ps = endMark.write s)
  · exact fun _ => rfl
  · intro atStart m s ps hm _ ih
    rw [Regex.matchAt_lit] at hm
    split at hm
    · rw [← Option.some.inj hm, Regex.render, ih]
      rfl
    · exact absurd hm (Option.some_ne_none m).symm
  · intro atStart c s ps hpass ih
    have hmark : ¬ (c = '.' ∧ s.head? = some '/') := by
      rintro ⟨rfl, hslash⟩
      obtain ⟨t, rfl⟩ := List.head?_eq_some_iff.mp hslash
      exact absurd (hpass ⟨"./".toList, []⟩ (Regex.matchAt_lit _ _ _)) (by decide)
    rw [Regex.render, ih, Escape.Mark.write]
    exact (if_neg hmark).symm

/-- The substitution of one character writes code words. -/
theorem replaceAll_chr (code : Escape.Code Char) (s : Str) :
    Regex.replaceAll (.chr code.letter) (fun _ => code.word) s = code.encode s := by
  rw [Regex.Pat.chr, Regex.replaceAll_cls, Escape.Code.encode]
  refine congrArg (List.flatMap · s) (funext fun c => ?_)
  simp only [beq_iff_eq]

/-- The substitution of colons is a code. -/
theorem replaceAll_colon (s : Str) :
    Regex.replaceAll (.chr ':') (fun _ => "(&col&)".toList) s = colonCode.encode s :=
  replaceAll_chr colonCode s

theorem replaceAll_question (s : Str) :
    Regex.replaceAll (.chr '?') (fun _ => "(&q&)".toList) s = questionCode.encode s :=
  replaceAll_chr questionCode s

/-- The written path, its substitutions taken apart. -/
theorem targetPath_eq {url : ParseResult} (hpath : '?' ∉ url.path) :
    targetPath url =
      colonCode.encode (endMark.write (storeDir ++ (url.netloc ++ indexPath url.path))) := by
  have hraw : rawPath url = storeDir ++ (url.netloc ++ indexPath url.path) := by
    rw [rawPath, indexPath]
    split
    · simp only [List.append_assoc]
    · split
      · simp only [List.append_assoc]
      · rw [replaceAll_question, questionCode.encode_eq_self hpath, List.append_assoc]
  rw [targetPath, replaceAll_dotSlash, replaceAll_colon, hraw]

/-- The name of a page never ends with a slash. -/
theorem getLast?_indexPath (path : Str) :
    ∃ c, (indexPath path).getLast? = some c ∧ c ≠ '/' := by
  have hindex : ∀ w : Str, w.getLast? = some 'l' →
      ∃ c, (path ++ w).getLast? = some c ∧ c ≠ '/' := by
    intro w hw
    exact ⟨'l', by rw [List.getLast?_append, hw, Option.some_or], by decide⟩
  rw [indexPath]
  split
  · exact hindex _ (by decide)
  · next hslash =>
    split
    · exact hindex _ (by decide)
    · next hdot =>
      have hne : path ≠ [] := fun h => hdot (Or.inl h)
      have hlast := List.getLast?_eq_some_getLast hne
      exact ⟨_, hlast, fun h => hslash (by rw [hlast, h])⟩

/-- The last segment of a text is empty only behind a final separator. -/
theorem getLast?_splitOn_ne {s : Str} {c : Char} (h : s.getLast? = some c) (hc : c ≠ '/') :
    (s.splitOn '/').getLast? ≠ some [] := by
  obtain ⟨ys, rfl⟩ := List.getLast?_eq_some_iff.mp h
  induction ys with
  | nil =>
    rw [List.nil_append, List.splitOn_cons_eq_if_modifyHead, if_neg (by simpa using hc)]
    simp
  | cons y ys ih =>
    have ih' := ih (by simp)
    obtain ⟨hd, tl, hsplit⟩ := List.exists_cons_of_ne_nil (List.splitOn_ne_nil '/' (ys ++ [c]))
    rw [List.cons_append, List.splitOn_cons_eq_if_modifyHead]
    rw [hsplit] at ih' ⊢
    split
    · rwa [List.getLast?_cons_cons]
    · cases tl with
      | nil => simp
      | cons z tl => simpa [List.getLast?_cons_cons] using ih'

/-- The written path, segment by segment. -/
theorem splitOn_written (s : Str) :
    (colonCode.encode (endMark.write (storeDir ++ s))).splitOn '/' =
      "crawler-download".toList ::
        Escape.mapSegments (fun seg => colonCode.encode (endMark.add seg)) colonCode.encode
          (s.splitOn '/') := by
  have hstore : storeDir = "crawler-download".toList ++ ['/'] := by decide
  have hsplit : (storeDir ++ s).splitOn '/' = "crawler-download".toList :: s.splitOn '/' := by
    rw [hstore, List.append_assoc, List.singleton_append,
      List.splitOn_append_cons_self_of_not_mem (by decide)]
  have hmark := endMark.splitOn_write (storeDir ++ s)
  have hsep : endMark.sep = '/' := rfl
  rw [hsep, hsplit, Escape.mapSegments_cons _ _ _ (List.splitOn_ne_nil _ _)] at hmark
  rw [colonCode.splitOn_encode (by decide) (by decide), hmark, List.map_cons,
    Escape.map_mapSegments]
  exact congrArg (· :: _) (by decide)

/-- The file of a page, segment by segment. -/
theorem fileOf_eq {url : ParseResult} (hpath : '?' ∉ url.path) :
    fileOf url = "crawler-download".toList ::
      Escape.mapSegments (fun seg => colonCode.encode (endMark.add seg)) colonCode.encode
        (pageSegments url) := by
  obtain ⟨c, hlast, hc⟩ := getLast?_indexPath url.path
  have hlast' : (url.netloc ++ indexPath url.path).getLast? = some c := by
    rw [List.getLast?_append, hlast, Option.some_or]
  have hadd : ∀ seg : Str, endMark.add seg = [] ↔ seg = [] := by
    intro seg
    rw [Escape.Mark.add]
    split
    · next hdot =>
      refine iff_of_false (by simp [endMark]) ?_
      rintro rfl
      simp at hdot
    · rfl
  rw [fileOf, resolve, targetPath_eq hpath, splitOn_written, List.filter_cons_of_pos (by decide),
    Escape.filter_mapSegments (fun seg => by rw [colonCode.encode_eq_nil_iff, hadd])
      colonCode.encode_eq_nil_iff _ (getLast?_splitOn_ne hlast' hc)]
  rfl

/-- The mark of an end and the code of colons do not meet. -/
theorem decode_add (s : Str) :
    colonCode.decode (endMark.add s) = endMark.add (colonCode.decode s) := by
  have hlast := colonCode.getLast?_decode_iff (d := '.') (by decide) (by decide) s
  have hdot : endMark.dot = '.' := rfl
  rw [Escape.Mark.add, Escape.Mark.add, hdot]
  by_cases h : s.getLast? = some '.'
  · rw [if_pos h, if_pos (hlast.mpr h)]
    exact colonCode.decode_append_mark (m := "&end&)".toList) (by decide) (by decide) s
  · rw [if_neg h, if_neg (fun h' => h (hlast.mp h'))]

/-- Two segments are written alike exactly when they are read back alike. -/
theorem encode_add_eq_iff (s t : Str) :
    colonCode.encode (endMark.add s) = colonCode.encode (endMark.add t) ↔
      endMark.read (colonCode.decode s) = endMark.read (colonCode.decode t) := by
  rw [colonCode.encode_eq_iff, decode_add, decode_add, endMark.add_eq_iff]

/-- Two pages share their file exactly when the file names cannot tell them apart. -/
theorem fileOf_eq_iff {a b : ParseResult} (ha : '?' ∉ a.path) (hb : '?' ∉ b.path) :
    fileOf a = fileOf b ↔ SamePage a b := by
  rw [fileOf_eq ha, fileOf_eq hb, List.cons.injEq, SamePage, readSegments, readSegments]
  rw [Escape.mapSegments_eq_iff encode_add_eq_iff colonCode.encode_eq_iff]
  exact ⟨fun h => h.2, fun h => ⟨rfl, h⟩⟩

/-! ## What saving a page does to the other pages -/

/-- A write adds a file and the directories above it. -/
theorem Store.write_eq_some {st st' : Store} {path data : Str}
    (h : st.write path data = some st') :
    st' = { st with files := (resolve path, data) :: st.files } := by
  simp only [Store.write] at h
  split at h
  · exact absurd h (by simp)
  · exact (Option.some.inj h).symm

/-- A saved page stands in its file, and every other file is as it was. -/
theorem savePage_read {st st' : Store} {url : ParseResult} {data : Str}
    (h : savePage st url data = some st') (p : Place) :
    st'.read p = if p = fileOf url then some data else st.read p := by
  obtain ⟨st₀, hfiles, hwrite⟩ :
      ∃ st₀ : Store, st₀.files = st.files ∧ st₀.write (targetPath url) data = some st' := by
    simp only [savePage] at h
    split at h
    · exact ⟨st, rfl, h⟩
    · obtain ⟨st₀, hmk, hwrite⟩ := Option.bind_eq_some_iff.mp h
      refine ⟨st₀, ?_, hwrite⟩
      simp only [Store.makedirs] at hmk
      split at hmk
      · exact absurd hmk (by simp)
      · rw [← Option.some.inj hmk]
  have hread : st'.read p = ((fileOf url, data) :: st.files).lookup p := by
    rw [Store.write_eq_some hwrite, ← hfiles]
    rfl
  rw [hread, List.lookup_cons]
  by_cases hp : p = fileOf url
  · simp [hp]
  · rw [if_neg hp, show (p == fileOf url) = false from beq_eq_false_iff_ne.mpr hp]
    rfl

/-- A file no later page goes to keeps its contents. -/
theorem savePages_read_of_notMem {st st' : Store} {pages : List (ParseResult × Str)}
    (h : savePages st pages = some st') {p : Place} (hp : ∀ page ∈ pages, p ≠ fileOf page.1) :
    st'.read p = st.read p := by
  induction pages generalizing st with
  | nil =>
    rw [Option.some.inj h]
  | cons page pages ih =>
    obtain ⟨url, data⟩ := page
    obtain ⟨st₁, hsave, hrest⟩ := Option.bind_eq_some_iff.mp h
    rw [ih hrest (fun page hmem => hp page (List.mem_cons_of_mem _ hmem)),
      savePage_read hsave, if_neg (hp (url, data) List.mem_cons_self)]

/-- Pages that go to different files are all there in the end. -/
theorem savePages_read {st st' : Store} {pages : List (ParseResult × Str)}
    (h : savePages st pages = some st')
    (hdiff : pages.Pairwise fun p q => fileOf p.1 ≠ fileOf q.1) :
    ∀ page ∈ pages, st'.read (fileOf page.1) = some page.2 := by
  induction pages generalizing st with
  | nil => exact fun page hmem => absurd hmem List.not_mem_nil
  | cons page pages ih =>
    obtain ⟨url, data⟩ := page
    obtain ⟨st₁, hsave, hrest⟩ := Option.bind_eq_some_iff.mp h
    obtain ⟨hhead, htail⟩ := List.pairwise_cons.mp hdiff
    intro page hmem
    rcases List.mem_cons.mp hmem with rfl | hmem
    · rw [savePages_read_of_notMem hrest hhead, savePage_read hsave, if_pos rfl]
    · exact ih hrest htail page hmem

/-- The second of two pages that the file names cannot tell apart overwrites the first. -/
theorem savePages_read_of_samePage {st st' : Store} {u v : Str} {a b : ParseResult} {d e : Str}
    (hu : urlparse u = some a) (hv : urlparse v = some b) (hsame : SamePage a b)
    (h : savePages st [(a, d), (b, e)] = some st') : st'.read (fileOf a) = some e := by
  have hfile :=
    (fileOf_eq_iff (urlparse_path_question hu) (urlparse_path_question hv)).mpr hsame
  obtain ⟨st₁, -, hrest⟩ := Option.bind_eq_some_iff.mp h
  obtain ⟨st₂, hsave, hlast⟩ := Option.bind_eq_some_iff.mp hrest
  rw [← Option.some.inj hlast, savePage_read hsave, if_pos hfile]

/-- URLs go to different files, and after any sequence of saves every page stands in its own,
exactly when no two of them are the same page for the file names. -/
theorem savePage_keeps_apart (urls : List ParseResult)
    (hurls : ∀ url ∈ urls, ∃ u, urlparse u = some url) :
    (urls.Pairwise (fun a b => fileOf a ≠ fileOf b) ∧
      ∀ (st st' : Store) (pages : List (ParseResult × Str)), pages.map Prod.fst = urls →
        savePages st pages = some st' →
        ∀ page ∈ pages, st'.read (fileOf page.1) = some page.2) ↔
    urls.Pairwise fun a b => ¬ SamePage a b := by
  have hiff : ∀ a ∈ urls, ∀ b ∈ urls, (fileOf a ≠ fileOf b ↔ ¬ SamePage a b) := by
    intro a ha b hb
    obtain ⟨u, hu⟩ := hurls a ha
    obtain ⟨v, hv⟩ := hurls b hb
    rw [ne_eq, fileOf_eq_iff (urlparse_path_question hu) (urlparse_path_question hv)]
  constructor
  · rintro ⟨hdiff, -⟩
    exact hdiff.imp_of_mem fun {a b} ha hb => (hiff a ha b hb).mp
  · intro hdiff
    have hfiles : urls.Pairwise fun a b => fileOf a ≠ fileOf b :=
      hdiff.imp_of_mem fun {a b} ha hb => (hiff a ha b hb).mpr
    refine ⟨hfiles, fun st st' pages hpages hsave => savePages_read hsave ?_⟩
    rw [← hpages, List.pairwise_map] at hfiles
    exact hfiles

/-- `/a.html` and `/b.html` of one host are saved side by side. -/
theorem savePage_keeps_apart_h :
    fileOf ⟨"http".toList, "h".toList, "/a.html".toList, [], [], []⟩ ≠
        fileOf ⟨"http".toList, "h".toList, "/b.html".toList, [], [], []⟩ ∧
      ∃ st', savePages ⟨[], []⟩
          [(⟨"http".toList, "h".toList, "/a.html".toList, [], [], []⟩, "1".toList),
            (⟨"http".toList, "h".toList, "/b.html".toList, [], [], []⟩, "2".toList)] = some st' ∧
        st'.read (fileOf ⟨"http".toList, "h".toList, "/a.html".toList, [], [], []⟩) =
          some "1".toList := by
  have ha : urlparse "http://h/a.html".toList =
      some ⟨"http".toList, "h".toList, "/a.html".toList, [], [], []⟩ := by decide
  have hb : urlparse "http://h/b.html".toList =
      some ⟨"http".toList, "h".toList, "/b.html".toList, [], [], []⟩ := by decide
  obtain ⟨hdiff, hread⟩ := (savePage_keeps_apart
    [⟨"http".toList, "h".toList, "/a.html".toList, [], [], []⟩,
      ⟨"http".toList, "h".toList, "/b.html".toList, [], [], []⟩]
    (List.forall_mem_cons.mpr ⟨⟨_, ha⟩, List.forall_mem_singleton.mpr ⟨_, hb⟩⟩)).mpr (by decide)
  refine ⟨List.rel_of_pairwise_cons hdiff List.mem_cons_self, _, rfl, ?_⟩
  exact hread ⟨[], []⟩ _ [(_, "1".toList), (_, "2".toList)] rfl rfl (_, "1".toList)
    List.mem_cons_self

/-- Two queries of one page are saved to one file, and the first answer is lost. -/
theorem savePage_overwrites :
    ∃ a b, urlparse "http://h/a?x=1".toList = some a ∧ urlparse "http://h/a?x=2".toList = some b ∧
      a.query ≠ b.query ∧ targetPath a = targetPath b ∧
      ∃ st', savePages ⟨[], []⟩ [(a, "1".toList), (b, "2".toList)] = some st' ∧
        st'.read (fileOf a) = some "2".toList :=
  ⟨⟨"http".toList, "h".toList, "/a".toList, [], "x=1".toList, []⟩,
    ⟨"http".toList, "h".toList, "/a".toList, [], "x=2".toList, []⟩, by decide, by decide,
    by decide, by decide, _, rfl, by decide +kernel⟩

end SavePage
