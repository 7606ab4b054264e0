import Mathlib
import ScriptsMisc.Lib.Regex
import ScriptsMisc.Vbs.Variant

/-! # The two camel-casing routines of the CDR tests

`fixHtmlIDs` tags the elements of a page with ids that a JavaScript `camelCase` makes of their
labels; `validateField` looks the elements up under ids that the VBScript `camelCase` of
`CommonBrowserFuncs.qfl` makes of the same labels.
-/

namespace CamelCase

/-! ## JavaScript -/

/-- `\s` of a JavaScript pattern. -/
def jsSpace (c : Char) : Bool :=
  [' ', '\t', '\n', '\x0b', '\x0c', '\r', '\u00a0', '\u1680', '\u2000', '\u2001', '\u2002',
    '\u2003', '\u2004', '\u2005', '\u2006', '\u2007', '\u2008', '\u2009', '\u200a', '\u2028',
    '\u2029', '\u202f', '\u205f', '\u3000', '\ufeff'].contains c

/-- `[\s\-\\\/]`. -/
def jsSeparator (c : Char) : Bool := jsSpace c || c == '-' || c == '\\' || c == '/'

/-- `([\s\-\\\/]+[a-zA-Z])`. -/
def wordStart : Regex.Pat := .group (.seq (.plus jsSeparator) (.cls Char.isAlpha))

/-- The function that replaces the start of a word: upper case, without the first separator. -/
def joinWord (m : Regex.Match) : Str :=
  Regex.replaceFirst (.cls jsSeparator) (fun _ => []) (m.text.map Char.toUpper)

/-- `camelCase` of `fixHtmlIDs`. -/
def jsCamelCase (str : Str) : Str :=
  let camelStr := Regex.replaceAll wordStart joinWord str
  Regex.replaceAll (.seq .start (.cls Char.isUpper)) (fun m => m.text.map Char.toLower) camelStr

/-- What follows the coverage name in the id of a label: `camelCase(innerText).replace(':','')`. -/
def idSuffix (innerText : Str) : Str :=
  Regex.replaceFirst (.chr ':') (fun _ => []) (jsCamelCase innerText)

/-! ## VBScript -/

/-- `[\/\\\.\s]`. -/
def vbSeparator (c : Char) : Bool :=
  ['/', '\\', '.', ' ', '\t', '\n', '\r', '\x0b', '\x0c'].contains c

/-- `UCase(Left(word, 1)) & Mid(word, 2)`. -/
def capitalise : Str → Str
  | [] => []
  | c :: word => c.toUpper :: word

/-- `camelCase(nm_str)`. -/
def camelCase (nm_str : Str) : Str :=
  let str := Regex.replaceAll (.plus vbSeparator) (fun _ => ['-']) (nm_str.map Char.toLower)
  match Vbs.split str ['-'] with
  | [] => []
  | word :: words => word ++ words.flatMap capitalise

example : idSuffix "Effective Date:".toList = "effectiveDate".toList := by decide +kernel

example : camelCase "Effective Date".toList = "effectiveDate".toList := by decide +kernel

/-! ## Labels -/

/-- The characters of a label. -/
def labelChar (c : Char) : Bool := c.isAlphanum || [' ', '.', '/', '\\', '-'].contains c

/-- Every separator is followed directly by a letter. -/
def SeparatorsLead : Str → Prop
  | [] => True
  | c :: s => (jsSeparator c = true → s.head?.any Char.isAlpha = true) ∧ SeparatorsLead s

instance decidableSeparatorsLead : (s : Str) → Decidable (SeparatorsLead s)
  | [] => inferInstanceAs (Decidable True)
  | _ :: s => haveI := decidableSeparatorsLead s; inferInstanceAs (Decidable (_ ∧ _))

/-- The label has no dot, and every blank, slash, backslash and hyphen of it is followed directly by
a letter. -/
def Plain (label : Str) : Prop := '.' ∉ label ∧ SeparatorsLead label

instance (label : Str) : Decidable (Plain label) := by
  unfold Plain; infer_instance

/-- Equality up to letter case. -/
def SameUpToCase (s t : Str) : Prop := s.map Char.toLower = t.map Char.toLower

instance (s t : Str) : Decidable (SameUpToCase s t) := by
  unfold SameUpToCase; infer_instance

/-- What neither routine means to keep. -/
def removed (c : Char) : Bool := vbSeparator c || c == '-'

/-- Letters and digits are kept. -/
theorem removed_eq_of_isAlphanum {c : Char} (h : c.isAlphanum = true) : removed c = false := by
  have hall : ∀ c ∈ ['/', '\\', '.', ' ', '\t', '\n', '\r', '\x0b', '\x0c', '-'],
      ¬ c.isAlphanum = true := Text.forall_mem_of_all (by decide)
  by_contra hc
  have hmem : c ∈ ['/', '\\', '.', ' ', '\t', '\n', '\r', '\x0b', '\x0c'] ++ ['-'] := by
    simpa only [removed, vbSeparator, Bool.not_eq_false, Bool.or_eq_true, List.contains_iff_mem,
      beq_iff_eq, List.mem_append, List.mem_singleton] using hc
  exact hall c hmem h

theorem removed_eq_of_isAlpha {c : Char} (h : c.isAlpha = true) : removed c = false :=
  removed_eq_of_isAlphanum (by simp [Char.isAlphanum, h])

/-- Whether a character is removed does not depend on its case. -/
theorem removed_toLower (c : Char) : removed c.toLower = removed c := by
  by_cases h : c.isUpper = true
  · have halpha : c.isAlpha = true := by simp [Char.isAlpha, h]
    rw [removed_eq_of_isAlpha halpha, removed_eq_of_isAlpha (by simpa using halpha)]
  · rw [Char.toLower_eq_of_not_isUpper h]

/-- A separator has no case and is neither a letter nor a digit. -/
theorem of_jsSeparator {c : Char} (h : jsSeparator c = true) :
    c.toUpper = c ∧ c.isAlphanum = false := by
  have hall : ∀ c ∈ [' ', '\t', '\n', '\x0b', '\x0c', '\r', '\u00a0', '\u1680', '\u2000', '\u2001',
      '\u2002', '\u2003', '\u2004', '\u2005', '\u2006', '\u2007', '\u2008', '\u2009', '\u200a',
      '\u2028', '\u2029', '\u202f', '\u205f', '\u3000', '\ufeff'],
      c.toUpper = c ∧ c.isAlphanum = false := Text.forall_mem_of_all (by decide +kernel)
  simp only [jsSeparator, jsSpace, Bool.or_eq_true, List.contains_iff_mem, beq_iff_eq] at h
  rcases h with ((h | rfl) | rfl) | rfl
  · exact hall c h
  · decide
  · decide
  · decide

/-- A separator is no letter. -/
theorem isAlpha_of_jsSeparator (c : Char) (h : jsSeparator c = true) : c.isAlpha = false := by
  have hnot := (of_jsSeparator h).2
  rw [Char.isAlphanum, Bool.or_eq_false_iff] at hnot
  exact hnot.1

theorem jsSeparator_of_isAlpha {c : Char} (h : c.isAlpha = true) : jsSeparator c = false := by
  by_contra hsep
  rw [isAlpha_of_jsSeparator c (by simpa using hsep)] at h
  exact Bool.false_ne_true h

/-- In a label the separators are what is removed, but for the dot. -/
theorem jsSeparator_eq {c : Char} (h : labelChar c = true ∨ c = ':') :
    jsSeparator c = (removed c && c != '.') := by
  rcases h with h | rfl
  · rw [labelChar, Bool.or_eq_true, List.contains_iff_mem] at h
    rcases h with h | h
    · rw [removed_eq_of_isAlphanum h, Bool.false_and]
      by_contra hsep
      rw [(of_jsSeparator (by simpa using hsep)).2] at h
      exact Bool.false_ne_true h
    · have hall : ∀ c ∈ [' ', '.', '/', '\\', '-'],
          jsSeparator c = (removed c && c != '.') := Text.forall_mem_of_all (by decide)
      exact hall c h
  · decide

/-- The separators of a label are all removed in the end. -/
theorem removed_of_jsSeparator {c : Char} (h : labelChar c = true ∨ c = ':')
    (hsep : jsSeparator c = true) : removed c = true ∧ c ≠ '.' := by
  simpa [hsep] using (jsSeparator_eq h).symm

/-! ## The VBScript routine removes all of it -/

/-- Runs of separators become hyphens. -/
theorem filter_replaceAll_vb (s : Str) :
    (Regex.replaceAll (.plus vbSeparator) (fun _ => ['-']) s).filter (· ≠ '-') =
      s.filter (!removed ·) := by
  apply Regex.scan_induction (P := fun _ s ps =>
    (Regex.render (fun _ => ['-']) ps).filter (· ≠ '-') = s.filter (!removed ·))
  · exact fun _ => rfl
  · intro atStart m s ps hm _ ih
    -- of a run only its hyphen is written, and that is taken out
    have hremoved : m.text.filter (!removed ·) = [] := by
      refine List.filter_eq_nil_iff.mpr fun c hc => ?_
      simp [removed, Regex.forall_mem_of_matchAt_plus hm c hc]
    rw [Regex.render, List.filter_append, List.filter_append, hremoved, ih]
    rfl
  · intro atStart c s ps hpass ih
    have hc : vbSeparator c = false := by
      by_contra h
      have hm := Regex.matchAt_plus vbSeparator atStart c s
      rw [if_pos (by simpa using h)] at hm
      exact absurd (hpass _ hm) (List.cons_ne_nil c _)
    rw [Regex.render, List.filter_cons, List.filter_cons, ih]
    simp [removed, hc]

/-- A capital changes a word only in its case. -/
theorem map_toLower_capitalise (word : Str) :
    (capitalise word).map Char.toLower = word.map Char.toLower := by
  cases word with
  | nil => rfl
  | cons c word => simp [capitalise]

/-- The VBScript routine removes separators, dots and hyphens and changes nothing else but the
case. -/
theorem map_toLower_camelCase (nm_str : Str) :
    (camelCase nm_str).map Char.toLower = (nm_str.filter (!removed ·)).map Char.toLower := by
  have hwords : ∀ words : List Str, (words.flatMap capitalise).map Char.toLower =
      words.flatten.map Char.toLower := by
    intro words
    induction words with
    | nil => rfl
    | cons word words ih =>
      rw [List.flatMap_cons, List.map_append, map_toLower_capitalise, ih, List.flatten_cons,
        List.map_append]
  have hjoin : ∀ str : Str, (match Vbs.split str ['-'] with
      | [] => []
      | word :: words => word ++ words.flatMap capitalise).map Char.toLower =
      (str.filter (· ≠ '-')).map Char.toLower := by
    intro str
    rw [← Vbs.flatten_splitFrom, Vbs.split]
    split_ifs with hnil
    · subst hnil
      rfl
    · obtain ⟨word, words, hparts⟩ := List.exists_cons_of_ne_nil (Vbs.splitFrom_ne_nil ['-'] 0 str)
      rw [hparts, List.map_append, hwords, List.flatten_cons, List.map_append]
  rw [camelCase, hjoin, filter_replaceAll_vb, List.filter_map, List.map_map]
  have hcomp : ((!removed ·) ∘ Char.toLower) = (!removed ·) :=
    funext fun c => congrArg (!·) (removed_toLower c)
  rw [hcomp]
  exact List.map_congr_left fun c _ => Char.toLower_toLower_eq_toLower c

/-! ## What the JavaScript routine keeps -/

/-- A match is replaced by what follows its first separator, in capitals. -/
theorem joinWord_eq {c : Char} (hc : jsSeparator c = true) (run : Str) (d : Char) (gs : List Str) :
    joinWord ⟨c :: run ++ [d], gs⟩ = (run ++ [d]).map Char.toUpper := by
  have hup : jsSeparator c.toUpper = true := by rw [(of_jsSeparator hc).1, hc]
  exact Regex.replaceFirst_cls (fun _ => []) (s := []) (t := (run ++ [d]).map Char.toUpper)
    (fun _ hmem => absurd hmem List.not_mem_nil) hup

/-- The text that the JavaScript routine makes of a label, before the case of its first letter. -/
def joined (atStart : Bool) (s : Str) : Str :=
  Regex.render joinWord (Regex.scan wordStart 0 atStart s)

/-- The pattern takes a run of separators with the letter that follows it. -/
theorem matchAt_wordStart (atStart : Bool) (c : Char) (s : Str) :
    Regex.matchAt wordStart atStart (c :: s) =
      if jsSeparator c then
        ((s.dropWhile jsSeparator).head?.filter Char.isAlpha).map fun d =>
          ⟨c :: s.takeWhile jsSeparator ++ [d], [c :: s.takeWhile jsSeparator ++ [d]]⟩
      else none := by
  rw [wordStart, Regex.matchAt_group, Regex.matchAt_plus_cls isAlpha_of_jsSeparator]
  split
  · rw [Option.map_map]
    rfl
  · rfl

/-- A match is a run of separators with a letter behind it. -/
theorem exists_of_matchAt_wordStart {atStart : Bool} {s : Str} {m : Regex.Match}
    (h : Regex.matchAt wordStart atStart s = some m) :
    ∃ c run d gs, m = ⟨c :: run ++ [d], gs⟩ ∧ jsSeparator c = true ∧
      (∀ e ∈ run, jsSeparator e = true) ∧ d.isAlpha = true := by
  cases s with
  | nil => exact absurd h (Option.some_ne_none m).symm
  | cons c s =>
    rw [matchAt_wordStart] at h
    split at h
    · next hc =>
      obtain ⟨d, hd, rfl⟩ := Option.map_eq_some_iff.mp h
      exact ⟨c, s.takeWhile jsSeparator, d, _, rfl, hc, List.all_eq_true.mp List.all_takeWhile,
        (Option.filter_eq_some_iff.mp hd).2⟩
    · exact absurd h (Option.some_ne_none m).symm

/-- What is said of a text that the JavaScript routine makes: nothing is lost but separators, and no
separator and no dot is left exactly when the label is plain. -/
def JoinedSpec (s out : Str) : Prop :=
  (out.filter (!removed ·)).map Char.toLower = (s.filter (!removed ·)).map Char.toLower ∧
    ((∀ c ∈ out, removed c = false) ↔ Plain s)

/-- A character that is no separator stays. -/
theorem joinedSpec_cons {c : Char} {s out : Str} (hsep : jsSeparator c = false)
    (hc : labelChar c = true ∨ c = ':') (h : JoinedSpec s out) :
    JoinedSpec (c :: s) (c :: out) := by
  have hrem : removed c = false ↔ c ≠ '.' := by
    have heq := jsSeparator_eq hc
    rw [hsep] at heq
    constructor
    · rintro hkeep rfl
      exact absurd hkeep (by decide)
    · intro hdot
      simpa [hdot] using heq
  refine ⟨?_, ?_⟩
  · rw [List.filter_cons, List.filter_cons]
    split
    · rw [List.map_cons, List.map_cons, h.1]
    · exact h.1
  · rw [List.forall_mem_cons, hrem, h.2, Plain, Plain, SeparatorsLead, List.mem_cons, not_or,
      ne_comm, hsep]
    simp only [Bool.false_eq_true, false_implies, true_and, and_assoc, ne_eq]

theorem joinedSpec_stuck {c : Char} {s out : Str} (hsep : jsSeparator c = true)
    (hrem : removed c = true) (hs : (s.dropWhile jsSeparator).head?.any Char.isAlpha = false)
    (h : JoinedSpec s out) : JoinedSpec (c :: s) (c :: out) := by
  refine ⟨?_, iff_of_false (fun hall => ?_) fun hplain => ?_⟩
  · simpa [hrem] using h.1
  · rw [hall c List.mem_cons_self] at hrem
    exact Bool.false_ne_true hrem
  · have hletter := hplain.2.1 hsep
    cases s with
    | nil => exact absurd hletter Bool.false_ne_true
    | cons d t =>
      have hd : jsSeparator d = false := jsSeparator_of_isAlpha hletter
      rw [List.dropWhile_cons_of_neg (by simp [hd])] at hs
      rw [hs] at hletter
      exact Bool.false_ne_true hletter

/-- A run of separators goes to its letter, which becomes a capital. -/
theorem joinedSpec_word {c d : Char} {run t out : Str} (hsep : jsSeparator c = true)
    (hrun : ∀ e ∈ c :: run, jsSeparator e = true ∧ removed e = true) (hd : d.isAlpha = true)
    (hdot : c ≠ '.') (h : JoinedSpec t out) :
    JoinedSpec (c :: (run ++ d :: t)) ((run ++ [d]).map Char.toUpper ++ out) := by
  have hkeep : removed d = false := removed_eq_of_isAlpha hd
  have hkeep' : removed d.toUpper = false := removed_eq_of_isAlpha (by simpa using hd)
  have hupper : ∀ e ∈ run, e.toUpper = e ∧ removed e = true := fun e he =>
    ⟨(of_jsSeparator (hrun e (List.mem_cons_of_mem c he)).1).1,
      (hrun e (List.mem_cons_of_mem c he)).2⟩
  have hmap : run.map Char.toUpper = run := by
    exact (List.map_congr_left fun e he => (hupper e he).1).trans (List.map_id run)
  have hnone : run.filter (!removed ·) = [] :=
    List.filter_eq_nil_iff.mpr fun e he => by simp [(hupper e he).2]
  have hcrem := (hrun c List.mem_cons_self).2
  rw [List.map_append, hmap, List.map_singleton]
  refine ⟨?_, ?_⟩
  · simp [List.filter_append, hnone, hcrem, hkeep, hkeep', h.1]
  · cases run with
    | nil =>
      have hdsep : jsSeparator d = false := jsSeparator_of_isAlpha hd
      have hddot : d ≠ '.' := by
        rintro rfl
        exact absurd hd (by decide)
      rw [List.nil_append, List.singleton_append, List.nil_append, List.forall_mem_cons, h.2, Plain,
        Plain, SeparatorsLead, SeparatorsLead, List.mem_cons, List.mem_cons]
      simp [hkeep', hdsep, hd, hdot.symm, hddot.symm]
    | cons e run =>
      obtain ⟨hesep, herem⟩ := hrun e (List.mem_cons_of_mem c List.mem_cons_self)
      refine iff_of_false (fun hall => ?_) fun hplain => ?_
      · rw [hall e (List.mem_append_left _ (List.mem_append_left _ List.mem_cons_self))] at herem
        exact Bool.false_ne_true herem
      · have hletter := hplain.2.1 hsep
        rw [List.cons_append, List.head?_cons, Option.any_some,
          isAlpha_of_jsSeparator e hesep] at hletter
        exact Bool.false_ne_true hletter

/-- The scan meets its specification. -/
theorem joinedSpec (s : Str) (hs : ∀ c ∈ s, labelChar c = true ∨ c = ':') (atStart : Bool) :
    JoinedSpec s (joined atStart s) := by
  revert hs
  unfold joined
  apply Regex.scan_induction (P := fun _ s ps =>
    (∀ c ∈ s, labelChar c = true ∨ c = ':') → JoinedSpec s (Regex.render joinWord ps))
  · intro _ _
    simp [JoinedSpec, Regex.render, Plain, SeparatorsLead]
  · intro atStart m s ps hm _ ih hs
    obtain ⟨c, run, d, gs, rfl, hsep, hrun, hd⟩ := exists_of_matchAt_wordStart hm
    have hword : c :: run ++ [d] ++ s = c :: (run ++ d :: s) := by simp
    have hseps : ∀ e ∈ c :: run, jsSeparator e = true := List.forall_mem_cons.mpr ⟨hsep, hrun⟩
    have hremoved : ∀ e ∈ c :: run, removed e = true ∧ e ≠ '.' := fun e he =>
      removed_of_jsSeparator (hs e (List.mem_append_left _ (List.mem_append_left _ he)))
        (hseps e he)
    rw [Regex.render, joinWord_eq hsep]
    rw [hword] at hs ⊢
    exact joinedSpec_word hsep (fun e he => ⟨hseps e he, (hremoved e he).1⟩) hd
      (hremoved c List.mem_cons_self).2
      (ih fun e he => hs e (List.mem_cons_of_mem c (List.mem_append_right _
        (List.mem_cons_of_mem d he))))
  · intro atStart c s ps hpass ih hs
    have hspec := ih fun e he => hs e (List.mem_cons_of_mem c he)
    rw [Regex.render]
    cases hsep : jsSeparator c with
    | false => exact joinedSpec_cons hsep (hs c List.mem_cons_self) hspec
    | true =>
      -- no letter follows the run, or it would have been a match
      have hhead : (s.dropWhile jsSeparator).head?.any Char.isAlpha = false := by
        cases hd : (s.dropWhile jsSeparator).head? with
        | none => rfl
        | some d =>
          rw [Option.any_some]
          by_contra halpha
          have hm := matchAt_wordStart atStart c s
          rw [if_pos hsep, hd, Option.filter_some, if_pos (by simpa using halpha)] at hm
          exact absurd (hpass _ hm) (List.cons_ne_nil c _)
      exact joinedSpec_stuck hsep (removed_of_jsSeparator (hs c List.mem_cons_self) hsep).1 hhead
        hspec

/-- So does the replacement in the page. -/
theorem jsCamelCase_spec {s : Str} (hs : ∀ c ∈ s, labelChar c = true ∨ c = ':') :
    JoinedSpec s (jsCamelCase s) := by
  have hspec := joinedSpec s hs true
  have hjs : jsCamelCase s = Regex.replaceAll (.seq .start (.cls Char.isUpper))
    (fun m => m.text.map Char.toLower) (joined true s) := rfl
  cases hjoined : joined true s with
  | nil =>
    rw [hjoined] at hjs hspec
    rwa [hjs]
  | cons c t =>
    rw [hjoined] at hjs hspec
    rw [Regex.replaceAll_start_cls] at hjs
    split at hjs
    · rw [hjs]
      obtain ⟨hfilter, hplain⟩ := hspec
      refine ⟨hfilter ▸ ?_, Iff.trans ?_ hplain⟩
      · simp only [List.map_cons, List.map_nil, List.singleton_append, List.filter_cons,
          removed_toLower]
        split
        · rw [List.map_cons, List.map_cons, Char.toLower_toLower_eq_toLower]
        · rfl
      · simp only [List.map_cons, List.map_nil, List.singleton_append, List.forall_mem_cons,
          removed_toLower]
    · rwa [hjs]

/-- Only the colon has a colon for its lower case. -/
theorem eq_colon_of_toLower {c : Char} (h : c.toLower = ':') : c = ':' := by
  by_cases hc : c.isUpper = true
  · have halpha := Char.isAlpha_toLower_eq_isAlpha c
    rw [h, show c.isAlpha = true by simp [Char.isAlpha, hc]] at halpha
    exact absurd halpha (by decide)
  · rwa [Char.toLower_eq_of_not_isUpper hc] at h

/-- A colon at the end makes no difference. -/
theorem plain_append_colon (label : Str) : Plain (label ++ [':']) ↔ Plain label := by
  have hlead : SeparatorsLead (label ++ [':']) ↔ SeparatorsLead label := by
    induction label with
    | nil => simp [SeparatorsLead, show jsSeparator ':' = false by decide]
    | cons c label ih =>
      rw [List.cons_append, SeparatorsLead, SeparatorsLead, ih]
      cases label with
      | nil => simp [show ':'.isAlpha = false by decide]
      | cons d label => rfl
  rw [Plain, Plain, hlead, List.mem_append, List.mem_singleton]
  simp

/-- The suffix keeps everything of the label but separators, and no separator and no dot is left
exactly when the label is plain. -/
theorem idSuffix_spec {label : Str} (hlabel : ∀ c ∈ label, labelChar c = true) :
    JoinedSpec label (idSuffix (label ++ [':'])) := by
  have hs : ∀ c ∈ label ++ [':'], labelChar c = true ∨ c = ':' := by
    intro c hc
    rcases List.mem_append.mp hc with hc | hc
    · exact Or.inl (hlabel c hc)
    · exact Or.inr (List.mem_singleton.mp hc)
  obtain ⟨hfilter, hplain⟩ := jsCamelCase_spec hs
  have hkeep : removed ':' = false := by decide
  have hcolon : ':' ∉ (label.filter (!removed ·)).map Char.toLower := by
    intro hmem
    obtain ⟨c, hc, hlower⟩ := List.mem_map.mp hmem
    have hlab := hlabel c (List.mem_filter.mp hc).1
    rw [eq_colon_of_toLower hlower] at hlab
    exact absurd hlab (by decide)
  have hcolon' : ':' ∈ jsCamelCase (label ++ [':']) := by
    have hmem : ':' ∈ ((jsCamelCase (label ++ [':'])).filter (!removed ·)).map Char.toLower := by
      rw [hfilter, List.filter_append, List.map_append]
      exact List.mem_append_right _ (by decide)
    obtain ⟨c, hc, hlower⟩ := List.mem_map.mp hmem
    exact eq_colon_of_toLower hlower ▸ (List.mem_filter.mp hc).1
  obtain ⟨before, after, hsplit, hbefore⟩ := List.eq_append_cons_of_mem hcolon'
  -- the suffix is what stands before and behind the first colon
  have hsuffix : idSuffix (label ++ [':']) = before ++ after := by
    rw [idSuffix, hsplit, Regex.Pat.chr, Regex.replaceFirst_cls _ (fun d hd => ?_) (by decide)]
    · rw [List.append_nil]
    · have hne : d ≠ ':' := fun h => hbefore (h ▸ hd)
      simpa using hne
  rw [hsplit] at hfilter hplain
  have hparts : (label.filter (!removed ·)).map Char.toLower ++ ':' :: [] =
      (before.filter (!removed ·)).map Char.toLower ++
        ':' :: (after.filter (!removed ·)).map Char.toLower := by
    have hlower : ':'.toLower = ':' := by decide
    simpa [List.filter_append, List.filter_cons, hkeep, hlower] using hfilter.symm
  obtain ⟨hbefore', -, hafter⟩ :=
    (List.append_cons_inj_of_notMem hcolon List.not_mem_nil).mp hparts
  rw [hsuffix]
  refine ⟨?_, ?_⟩
  · rw [List.filter_append, List.map_append, ← hbefore', ← hafter, List.append_nil]
  · rw [← plain_append_colon, ← hplain, List.forall_mem_append, List.forall_mem_append,
      List.forall_mem_cons]
    exact and_congr_right fun _ => (and_iff_right hkeep).symm

/-- The two routines agree on a label, up to case, exactly when it is plain. -/
theorem idSuffix_eq_camelCase_iff {label : Str} (hlabel : ∀ c ∈ label, labelChar c = true) :
    SameUpToCase (idSuffix (label ++ [':'])) (camelCase label) ↔ Plain label := by
  obtain ⟨hfilter, hplain⟩ := idSuffix_spec hlabel
  rw [SameUpToCase, map_toLower_camelCase, ← hfilter, ← hplain]
  constructor
  · intro hsame
    have hlength := congrArg List.length hsame
    rw [List.length_map, List.length_map] at hlength
    intro c hc
    simpa using List.length_filter_eq_length_iff.mp hlength.symm c hc
  · intro hkept
    rw [List.filter_eq_self.mpr fun c hc => by rw [hkept c hc]; rfl]

/-- `Effective Date` is plain. -/
theorem idSuffix_eq_camelCase_effectiveDate :
    SameUpToCase (idSuffix "Effective Date:".toList) (camelCase "Effective Date".toList) :=
  (idSuffix_eq_camelCase_iff (Text.forall_mem_of_all (s := "Effective Date".toList)
    (by decide))).mpr (by decide)

/-- `Eff. Date` is tagged `eff.Date` and looked up as `effDate`. -/
theorem idSuffix_ne_camelCase_effDate :
    "Eff. Date".toList.all labelChar = true ∧
      idSuffix "Eff. Date:".toList = "eff.Date".toList ∧
      camelCase "Eff. Date".toList = "effDate".toList ∧
      ¬ SameUpToCase (idSuffix "Eff. Date:".toList) (camelCase "Eff. Date".toList) := by
  decide +kernel

end CamelCase
