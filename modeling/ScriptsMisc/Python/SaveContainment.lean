import ScriptsMisc.Lib.Lexical
import ScriptsMisc.Python.SavePage

/-! # Where saved pages go

On Windows a path has two separators. A page is saved outside the storage directory when its path
leads there, and only the dot segments in front of a slash are rewritten.
-/

namespace SavePage

open Urlparse Lexical

/-! ## The way a page's path leads -/

/-- A segment in front of a slash. It is marked when it ends with a dot, so it is a name. -/
def stepBeforeSlash (c : Str) : Step :=
  if c = [] then .stay else .down (decide (c = "crawler-download".toList))

/-- The text between two slashes, taken apart at the backslashes: the last of its segments stands
in front of a slash. -/
def stepsBeforeSlash (seg : Str) : List Step :=
  Escape.mapSegments (stepOf "crawler-download".toList) stepBeforeSlash (seg.splitOn '\\')

/-- The text behind the last slash. -/
def stepsAtEnd (seg : Str) : List Step :=
  (seg.splitOn '\\').map (stepOf "crawler-download".toList)

/-- The steps from the storage directory on: host and path, with the index page. -/
def pageSteps (url : ParseResult) : List Step :=
  (Escape.mapSegments stepsBeforeSlash stepsAtEnd
    ((url.netloc ++ indexPath url.path).splitOn '/')).flatten

/-- The steps end below the storage directory. -/
def StaysInside (url : ParseResult) : Prop :=
  ((pageSteps url).foldl Position.move (.inside 0)).isInside = true

instance (url : ParseResult) : Decidable (StaysInside url) := by
  unfold StaysInside; infer_instance

/-! ## The segments that are written -/

/-- The written path of any URL, its substitutions taken apart. -/
theorem exists_targetPath_eq (url : ParseResult) :
    ∃ s, questionCode.Written (url.netloc ++ indexPath url.path) s ∧
      targetPath url = colonCode.encode (endMark.write (storeDir ++ s)) := by
  obtain ⟨s, hwritten, hraw⟩ : ∃ s, questionCode.Written (url.netloc ++ indexPath url.path) s ∧
      rawPath url = storeDir ++ s := by
    rw [rawPath, indexPath]
    split
    · exact ⟨_, questionCode.written_refl _, by simp only [List.append_assoc]⟩
    · split
      · exact ⟨_, questionCode.written_refl _, by simp only [List.append_assoc]⟩
      · refine ⟨url.netloc ++ questionCode.encode url.path,
          (questionCode.written_encode url.path).append_left url.netloc, ?_⟩
        rw [replaceAll_question, List.append_assoc]
  exact ⟨s, hwritten, by rw [targetPath, replaceAll_dotSlash, replaceAll_colon, hraw]⟩

section Piece

variable {c c' : Str} (h : questionCode.Written c c')
include h

/-- A segment is written as one of the names that matter only when it is that name. -/
theorem encode_eq_iff_of_written {w : Str} (hquestion : '?' ∉ w) (hcolon : ':' ∉ w)
    (hparen : '(' ∉ w) : colonCode.encode c' = w ↔ c = w :=
  ((colonCode.written_encode c').eq_iff hcolon hparen).trans (h.eq_iff hquestion hparen)

/-- Writing a colon in another way makes no difference to a segment. -/
theorem stepOf_encode :
    stepOf "crawler-download".toList (colonCode.encode c') =
      stepOf "crawler-download".toList c := by
  refine stepOf_congr fun w hw => ?_
  have hplain : ∀ w ∈ [[], ".".toList, "..".toList, "crawler-download".toList],
      '?' ∉ w ∧ ':' ∉ w ∧ '(' ∉ w := by
    decide
  obtain ⟨hquestion, hcolon, hparen⟩ := hplain w hw
  exact encode_eq_iff_of_written h hquestion hcolon hparen

/-- In front of a slash no segment is written as a dot segment. -/
theorem stepOf_encode_add :
    stepOf "crawler-download".toList (colonCode.encode (endMark.add c')) = stepBeforeSlash c := by
  have hname : ∀ w ∈ [[], "crawler-download".toList], c = w → c'.getLast? ≠ some '.' := by
    intro w hw hc
    have hplain : ∀ w ∈ [[], "crawler-download".toList],
        '?' ∉ w ∧ '(' ∉ w ∧ w.getLast? ≠ some '.' := by decide
    obtain ⟨hquestion, hparen, hlast⟩ := hplain w hw
    rwa [(h.eq_iff hquestion hparen).mpr hc]
  by_cases hdot : c'.getLast? = some '.'
  · -- the mark shows in what is written
    have hparen : '(' ∈ colonCode.encode (endMark.add c') := by
      have hmark : endMark.add c' = c' ++ "(&end&)".toList := if_pos hdot
      rw [hmark, colonCode.encode_append]
      exact List.mem_append_right _ (by decide)
    have hne : ∀ w : Str, '(' ∉ w → colonCode.encode (endMark.add c') ≠ w := by
      rintro w hw rfl
      exact hw hparen
    have hroot := hne "crawler-download".toList (by decide)
    have hstay : ¬ (colonCode.encode (endMark.add c') = [] ∨
        colonCode.encode (endMark.add c') = ".".toList) :=
      not_or.mpr ⟨hne [] (by decide), hne _ (by decide)⟩
    have hnil : c ≠ [] := fun hc => hname [] List.mem_cons_self hc hdot
    have hroot' : c ≠ "crawler-download".toList := fun hc =>
      hname _ (List.mem_cons_of_mem _ List.mem_cons_self) hc hdot
    rw [stepOf, if_neg hstay, if_neg (hne _ (by decide)), stepBeforeSlash, if_neg hnil,
      decide_eq_false hroot, decide_eq_false hroot']
  · have hadd : endMark.add c' = c' := if_neg hdot
    have hne : ∀ w ∈ [".".toList, "..".toList], c ≠ w := by
      intro w hw hc
      have hplain : ∀ w ∈ [".".toList, "..".toList],
          '?' ∉ w ∧ '(' ∉ w ∧ w.getLast? = some '.' := by decide
      obtain ⟨hquestion, hparen, hlast⟩ := hplain w hw
      rw [(h.eq_iff hquestion hparen).mpr hc] at hdot
      exact hdot hlast
    have hdot' : c ≠ ".".toList := hne _ List.mem_cons_self
    have hdots : c ≠ "..".toList := hne _ (List.mem_cons_of_mem _ List.mem_cons_self)
    rw [hadd, stepOf_encode h, stepOf, stepBeforeSlash, if_neg hdots]
    simp only [hdot', or_false]

end Piece

/-- The segments of the written path lead as those of the page do. -/
theorem components_targetPath (url : ParseResult) :
    (components (targetPath url)).map (stepOf "crawler-download".toList) =
      .down true :: pageSteps url := by
  obtain ⟨s, hwritten, htarget⟩ := exists_targetPath_eq url
  have hsegs := hwritten.splitOn '/' (by decide) (by decide)
  have hfirst : ("crawler-download".toList.splitOn '\\').map (stepOf "crawler-download".toList) =
      [.down true] := by decide
  have hrest : Escape.mapSegments
      (fun seg => ((colonCode.encode (endMark.add seg)).splitOn '\\').map
        (stepOf "crawler-download".toList))
      (fun seg => ((colonCode.encode seg).splitOn '\\').map (stepOf "crawler-download".toList))
      (s.splitOn '/') =
      Escape.mapSegments stepsBeforeSlash stepsAtEnd
        ((url.netloc ++ indexPath url.path).splitOn '/') := by
    symm
    refine Escape.mapSegments_congr (fun seg seg' hseg => ?_) (fun seg seg' hseg => ?_) hsegs
    · rw [colonCode.splitOn_encode (by decide) (by decide), endMark.splitOn_add (by decide)
        (by decide), Escape.map_mapSegments, Escape.map_mapSegments]
      refine Escape.mapSegments_congr (fun c c' hc => ?_) (fun c c' hc => ?_)
        (hseg.splitOn '\\' (by decide) (by decide))
      · exact (stepOf_encode hc).symm
      · exact (stepOf_encode_add hc).symm
    · rw [colonCode.splitOn_encode (by decide) (by decide), List.map_map, stepsAtEnd]
      have hpieces := hseg.splitOn '\\' (by decide) (by decide)
      rw [← List.forall₂_eq_eq_eq, List.forall₂_map_left_iff, List.forall₂_map_right_iff]
      exact hpieces.imp fun c c' hc => (stepOf_encode hc).symm
  rw [components, htarget, splitOn_written, List.flatMap_cons, List.map_append, hfirst,
    List.singleton_append, pageSteps, ← hrest, List.map_flatMap, List.flatMap_def,
    Escape.map_mapSegments]
  rfl

/-- The file of a page is inside the storage directory exactly when the page's path stays there. -/
theorem targetPath_inside_iff (url : ParseResult) :
    Inside "crawler-download".toList (targetPath url) ↔ StaysInside url := by
  rw [inside_iff (by decide), components_targetPath]
  rfl

/-- The backslashes in the path of `http://h/\..\..\..\x.html` lead out of the storage directory. -/
theorem targetPath_outside :
    urlparse "http://h/\\..\\..\\..\\x.html".toList =
        some ⟨"http".toList, "h".toList, "/\\..\\..\\..\\x.html".toList, [], [], []⟩ ∧
      normalise (targetPath
        ⟨"http".toList, "h".toList, "/\\..\\..\\..\\x.html".toList, [], [], []⟩) =
        ["..".toList, "x.html".toList] ∧
      ¬ Inside "crawler-download".toList (targetPath
        ⟨"http".toList, "h".toList, "/\\..\\..\\..\\x.html".toList, [], [], []⟩) := by
  have hpath : normalise (targetPath
      ⟨"http".toList, "h".toList, "/\\..\\..\\..\\x.html".toList, [], [], []⟩) =
      ["..".toList, "x.html".toList] := by decide +kernel
  refine ⟨by decide, hpath, ?_⟩
  rintro ⟨c, cs, h⟩
  rw [hpath] at h
  exact absurd (List.cons.inj h).1 (by decide)

end SavePage
