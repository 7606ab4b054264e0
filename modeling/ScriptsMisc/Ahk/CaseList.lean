import Mathlib.Data.List.Forall2
import ScriptsMisc.Ahk.SaveData
import ScriptsMisc.Lib.Regex

/-! # The case list

`BuildGui` of `case_select_gui.ahk` fills a ListView from a file of cases, and `AltMainButton`
takes the case to be processed out of the rows selected there. Whether the list has two columns is
decided by the first line, split at blanks; whether a row holds two cases by every line, split at
white space of any kind.
-/

namespace CaseSelect

open SaveData (stringSplit)

/-! ## The code -/

/-- The variables of the loops over the file, and the rows of the ListView. -/
structure Builder where
  dualCases : Bool
  caseIDs1 : Str
  caseIDs2 : Str
  caseIDs3 : Str
  rows : List (List Str)

/-- `stringSplit caseIDs, ..`: a part that a text does not have keeps its value. -/
def Builder.setCaseIDs (s : Builder) (caseIDs : List Str) : Builder :=
  { s with
    caseIDs1 := caseIDs[0]?.getD s.caseIDs1
    caseIDs2 := caseIDs[1]?.getD s.caseIDs2
    caseIDs3 := caseIDs[2]?.getD s.caseIDs3 }

/-- The loop that leaves after the first line. -/
def readFirst (s : Builder) : List Str → Builder
  | [] => s
  | line :: _ =>
    let caseIDs := stringSplit [' '] line
    { s.setCaseIDs caseIDs with dualCases := decide (1 < caseIDs.length) }

/-- `[0-9]+[\s]+[0-9]+[\s]+[a-zA-Z]+` -/
def requestPattern : Regex.Pat :=
  .seq (.plus Char.isDigit) (.seq (.plus Text.isSpace)
    (.seq (.plus Char.isDigit) (.seq (.plus Text.isSpace) (.plus Char.isAlpha))))

/-- The options of the row for a line. -/
def options (line : Str) : Str := "check gMyListView v".toList ++ line

/-- `LV_Add`: fields beyond the columns are dropped. `start` columns are left out where the options
hold a word such as `Col2`. -/
def lvAdd (columns start : ℕ) (fields : List Str) : List Str :=
  (List.replicate start [] ++ fields).take columns

/-- `LV_GetText`: a column that is missing is empty. -/
def lvGetText (row : List Str) (column : ℕ) : Str := row.getD (column - 1) []

/-- The body of the loop that adds the rows; `startColumn` reads the options. -/
def addLine (startColumn : Str → ℕ) (columns : ℕ) (s : Builder) (line : Str) : Builder :=
  let formattedLine := Regex.replaceAll (.plus Text.isSpace) (fun _ => ['|']) line
  let caseIDs := stringSplit ['|'] formattedLine
  let s := s.setCaseIDs caseIDs
  let add (fields : List Str) :=
    s.rows ++ [lvAdd columns (startColumn (options line)) fields]
  if caseIDs.length = 1 then { s with rows := add [line] }
  else if Regex.search requestPattern line then
    { s with
      rows := add [s.caseIDs1 ++ "  ".toList ++ s.caseIDs2 ++ "  ".toList ++ s.caseIDs3] }
  else { s with dualCases := true, rows := add [s.caseIDs1, s.caseIDs2] }

/-- The part of `BuildGui` that reads the file. The variables may be left from another file. -/
def buildGui (startColumn : Str → ℕ) (s : Builder) (lines : List Str) : Builder :=
  let s := readFirst s lines
  let columns := if s.dualCases then 2 else 1
  lines.foldl (addLine startColumn columns) { s with rows := [] }

/-- The environment chosen in the settings. -/
inductive Env where
  | stage
  | dev
deriving DecidableEq, Repr

/-- The `caseID` that `AltMainButton` sets for a row. -/
def caseID (s : Builder) (env : Env) (row : List Str) : Str :=
  if s.dualCases then
    match env with
    | .stage => lvGetText row 1
    | .dev => lvGetText row 2
  else lvGetText row 1

/-! ## Case lists -/

/-- A field of a line. -/
structure Field where
  text : Str
  ne_nil : text ≠ []
  solid : ∀ c ∈ text, Text.isSpace c = false

/-- What stands between two fields. -/
structure Gap where
  text : Str
  ne_nil : text ≠ []
  blank : ∀ c ∈ text, c = ' ' ∨ c = '\t'

inductive Shape where
  | one
  | dual
  | request
deriving DecidableEq, Repr

/-- A line: an id, the ids of the two environments, or id, frequency and type. -/
inductive Case where
  | one (id : Field)
  | dual (stage : Field) (gap : Gap) (dev : Field)
  | request (id : Field) (gap : Gap) (freq : Field) (gap' : Gap) (type : Field)

def Case.shape : Case → Shape
  | .one _ => .one
  | .dual _ _ _ => .dual
  | .request _ _ _ _ _ => .request

def Case.line : Case → Str
  | .one id => id.text
  | .dual stage gap dev => stage.text ++ (gap.text ++ dev.text)
  | .request id gap freq gap' type =>
    id.text ++ (gap.text ++ (freq.text ++ (gap'.text ++ type.text)))

/-- A file whose lines have the same shape. -/
structure CaseFile where
  shape : Shape
  cases : List Case
  same_shape : ∀ c ∈ cases, c.shape = shape

/-- The text is the one to be processed for the case. -/
def Case.Right : Case → Env → Str → Prop
  | .one id, _, t => t = id.text
  | .dual stage _ _, .stage, t => t = stage.text
  | .dual _ _ dev, .dev, t => t = dev.text
  | .request id _ freq _ type, _, t =>
    Spacing.words Text.isSpace t = [id.text, freq.text, type.text]

/-- For every row the case of its line is processed, in either environment. -/
def CaseFile.Processed (startColumn : Str → ℕ) (before : Builder) (file : CaseFile) : Prop :=
  let gui := buildGui startColumn before (file.cases.map Case.line)
  List.Forall₂ (fun c row => ∀ env, c.Right env (caseID gui env row)) file.cases gui.rows

/-- No field holds the character `|`; the id of a request ends with a digit, its frequency is a
number and its type begins with a letter. -/
def Case.Plain : Case → Prop
  | .one id => '|' ∉ id.text
  | .dual stage _ dev => '|' ∉ stage.text ∧ '|' ∉ dev.text
  | .request id _ freq _ type =>
    ('|' ∉ id.text ∧ '|' ∉ type.text) ∧
      (∃ c ∈ id.text.getLast?, c.isDigit = true) ∧ (∀ c ∈ freq.text, c.isDigit = true) ∧
      ∃ c ∈ type.text.head?, c.isAlpha = true

/-- Every line is plain and has its fields put into the first columns; of two cases the first line
holds a blank, of requests it holds none. -/
def CaseFile.Plain (startColumn : Str → ℕ) (file : CaseFile) : Prop :=
  (∀ c ∈ file.cases, startColumn (options c.line) = 0 ∧ c.Plain) ∧
    (file.shape = .dual → ∀ c ∈ file.cases.head?, ' ' ∈ c.line) ∧
    (file.shape = .request → ∀ c ∈ file.cases.head?, ' ' ∉ c.line)

/-! ## The parts of a line -/

theorem Gap.isSpace (g : Gap) : ∀ c ∈ g.text, Text.isSpace c = true := by
  intro c hc
  rcases g.blank c hc with rfl | rfl <;> rfl

/-- A text that starts with a field starts with no white space. -/
theorem Field.head_solid (f : Field) (s : Str) :
    ∀ c ∈ (f.text ++ s).head?, Text.isSpace c = false := by
  intro c hc
  rw [List.head?_append_of_ne_nil _ f.ne_nil] at hc
  exact f.solid c (List.mem_of_mem_head? hc)

/-- The line with `|` in the place of the gaps. -/
def formatted (s : Str) : Str := Regex.replaceAll (.plus Text.isSpace) (fun _ => ['|']) s

/-- A field is kept as it is. -/
theorem formatted_field (f : Field) (s : Str) :
    formatted (f.text ++ s) = f.text ++ formatted s := by
  rw [formatted, formatted, Regex.replaceAll_plus, Regex.replaceAll_plus,
    Spacing.squeeze_append f.solid]

/-- A gap in front of a field becomes a bar. -/
theorem formatted_gap (g : Gap) (f : Field) (s : Str) :
    formatted (g.text ++ (f.text ++ s)) = '|' :: (f.text ++ formatted s) := by
  rw [← formatted_field, formatted, formatted, Regex.replaceAll_plus, Regex.replaceAll_plus,
    Spacing.squeeze_gap g.ne_nil g.isSpace (f.head_solid s)]

/-- No white space is left. -/
theorem isSpace_formatted {s : Str} {c : Char} (hc : c ∈ formatted s) :
    Text.isSpace c = false := by
  rw [formatted, Regex.replaceAll_plus] at hc
  rcases Spacing.mem_of_mem_squeeze hc with rfl | ⟨-, h⟩
  · rfl
  · exact h

/-- Only the empty text has no parts at all. -/
theorem stringSplit_of_ne_nil {x : Char} {s : Str} (h : s ≠ []) :
    stringSplit [x] s = s.splitOnP (· ∈ [x]) := by
  rw [stringSplit, if_neg h]

theorem mem_singleton_false {x : Char} {s : Str} (h : x ∉ s) :
    ∀ c ∈ s, decide (c ∈ [x]) = false := by
  intro c hc
  rw [decide_eq_false_iff_not, List.mem_singleton]
  rintro rfl
  exact h hc

/-- A text is split at each of its bars. -/
theorem splitOnP_bar (s t : Str) (x : Char) :
    (s ++ x :: t).splitOnP (· ∈ [x]) = s.splitOnP (· ∈ [x]) ++ t.splitOnP (· ∈ [x]) :=
  List.splitOnP_append_cons s t (by simp)

/-- A text has one part when it does not hold the separator. -/
theorem one_lt_length_stringSplit {x : Char} {s : Str} (h : s ≠ []) :
    1 < (stringSplit [x] s).length ↔ x ∈ s := by
  rw [stringSplit_of_ne_nil h]
  constructor
  · intro hlength
    by_contra hx
    rw [List.splitOnP_eq_singleton (mem_singleton_false hx)] at hlength
    exact Nat.lt_irrefl 1 hlength
  · intro hx
    obtain ⟨t, u, rfl⟩ := List.append_of_mem hx
    have ht := List.length_pos_iff.mpr (List.splitOnP_ne_nil (· ∈ [x]) t)
    have hu := List.length_pos_iff.mpr (List.splitOnP_ne_nil (· ∈ [x]) u)
    rw [splitOnP_bar, List.length_append]
    omega

/-- No line of the file is empty. -/
theorem Case.line_ne_nil (c : Case) : c.line ≠ [] := by
  cases c <;> simp [Case.line, Field.ne_nil]

/-- What `stringSplit` makes of the line. -/
def Case.parts (c : Case) : List Str := stringSplit ['|'] (formatted c.line)

def Case.part (c : Case) (i : ℕ) : Str := c.parts[i]?.getD []

/-- The fields of a line with bars for its gaps. -/
theorem formatted_line (c : Case) :
    formatted c.line =
      match c with
      | .one id => id.text
      | .dual stage _ dev => stage.text ++ '|' :: dev.text
      | .request id _ freq _ type => id.text ++ '|' :: (freq.text ++ '|' :: type.text) := by
  have hlast : ∀ f : Field, formatted f.text = f.text := fun f => by
    have hf := formatted_field f []
    rwa [List.append_nil, show formatted [] = [] from rfl, List.append_nil] at hf
  cases c with
  | one id => exact hlast id
  | dual stage gap dev =>
    have hgap := formatted_gap gap dev []
    rw [List.append_nil, show formatted [] = [] from rfl, List.append_nil] at hgap
    rw [Case.line, formatted_field, hgap]
  | request id gap freq gap' type =>
    have hgap := formatted_gap gap' type []
    rw [List.append_nil, show formatted [] = [] from rfl, List.append_nil] at hgap
    rw [Case.line, formatted_field, formatted_gap, hgap]

/-- The parts of a case are those that its line is split into. -/
theorem Case.parts_eq (c : Case) : c.parts = (formatted c.line).splitOnP (· ∈ ['|']) := by
  refine stringSplit_of_ne_nil ?_
  rw [formatted_line]
  cases c <;> simp [Field.ne_nil]

/-- A part holds neither the separator nor white space. -/
theorem mem_part {c : Case} {i : ℕ} {x : Char} (hx : x ∈ c.part i) :
    x ≠ '|' ∧ Text.isSpace x = false := by
  rw [Case.part, Case.parts_eq] at hx
  cases hpart : ((formatted c.line).splitOnP (· ∈ ['|']))[i]? with
  | none =>
    rw [hpart] at hx
    exact absurd hx List.not_mem_nil
  | some piece =>
    rw [hpart] at hx
    obtain ⟨hmem, hbar⟩ := Text.mem_of_mem_splitOnP (List.mem_of_getElem? hpart) x hx
    refine ⟨?_, isSpace_formatted hmem⟩
    simpa using hbar

/-- The fields of a line. -/
def Case.fields : Case → List Str
  | .one id => [id.text]
  | .dual stage _ dev => [stage.text, dev.text]
  | .request id _ freq _ type => [id.text, freq.text, type.text]

/-- There are at least as many parts as fields. -/
theorem Case.length_fields_le (c : Case) : c.fields.length ≤ c.parts.length := by
  have hpos : ∀ s : Str, 1 ≤ (s.splitOnP (· ∈ ['|'])).length := fun s =>
    List.length_pos_iff.mpr (List.splitOnP_ne_nil _ s)
  rw [Case.parts_eq, formatted_line]
  cases c with
  | one id => exact hpos id.text
  | dual stage gap dev =>
    have h₁ := hpos stage.text
    have h₂ := hpos dev.text
    rw [splitOnP_bar, List.length_append]
    exact Nat.add_le_add h₁ h₂
  | request id gap freq gap' type =>
    have h₁ := hpos id.text
    have h₂ := hpos freq.text
    have h₃ := hpos type.text
    rw [splitOnP_bar, splitOnP_bar, List.length_append, List.length_append]
    show 3 ≤ _
    omega

/-- Without the separator in them the fields are the parts. -/
theorem Case.parts_of_notMem (c : Case) (h : ∀ f ∈ c.fields, '|' ∉ f) : c.parts = c.fields := by
  have hone : ∀ f ∈ c.fields, f.splitOnP (· ∈ ['|']) = [f] := fun f hf =>
    List.splitOnP_eq_singleton (mem_singleton_false (h f hf))
  rw [Case.parts_eq, formatted_line]
  cases c with
  | one id => exact hone id.text (by simp [Case.fields])
  | dual stage gap dev =>
    rw [splitOnP_bar, hone stage.text (by simp [Case.fields]),
      hone dev.text (by simp [Case.fields])]
    rfl
  | request id gap freq gap' type =>
    rw [splitOnP_bar, splitOnP_bar, hone id.text (by simp [Case.fields]),
      hone freq.text (by simp [Case.fields]), hone type.text (by simp [Case.fields])]
    rfl

theorem Field.words (f : Field) : Spacing.words Text.isSpace f.text = [f.text] :=
  Spacing.words_of_forall f.ne_nil f.solid

/-- The words of a line are its fields. -/
theorem Case.words_line (c : Case) : Spacing.words Text.isSpace c.line = c.fields := by
  cases c with
  | one id => exact id.words
  | dual stage gap dev =>
    rw [Case.line, Spacing.words_append_gap _ gap.ne_nil gap.isSpace, stage.words, dev.words]
    rfl
  | request id gap freq gap' type =>
    rw [Case.line, Spacing.words_append_gap _ gap.ne_nil gap.isSpace,
      Spacing.words_append_gap _ gap'.ne_nil gap'.isSpace, id.words, freq.words, type.words]
    rfl

/-! ## Requests -/

theorem isSpace_of_isDigit {c : Char} (h : c.isDigit = true) : Text.isSpace c = false := by
  rw [Bool.eq_false_iff]
  intro hspace
  simp only [Text.isSpace, Bool.or_eq_true, decide_eq_true_eq] at hspace
  rcases hspace with ((((rfl | rfl) | rfl) | rfl) | rfl) | rfl <;> cases h

theorem isSpace_of_isAlpha {c : Char} (h : c.isAlpha = true) : Text.isSpace c = false := by
  rw [Bool.eq_false_iff]
  intro hspace
  simp only [Text.isSpace, Bool.or_eq_true, decide_eq_true_eq] at hspace
  rcases hspace with ((((rfl | rfl) | rfl) | rfl) | rfl) | rfl <;> cases h

/-- Where the pattern is found. -/
theorem search_request_iff (s : Str) :
    Regex.search requestPattern s = true ↔
      ∃ pre d₁ w₁ d₂ w₂ l post, s = pre ++ (d₁ ++ (w₁ ++ (d₂ ++ (w₂ ++ (l ++ post))))) ∧
        (d₁ ≠ [] ∧ ∀ c ∈ d₁, c.isDigit = true) ∧ (w₁ ≠ [] ∧ ∀ c ∈ w₁, Text.isSpace c = true) ∧
        (d₂ ≠ [] ∧ ∀ c ∈ d₂, c.isDigit = true) ∧ (w₂ ≠ [] ∧ ∀ c ∈ w₂, Text.isSpace c = true) ∧
        (l ≠ [] ∧ ∀ c ∈ l, c.isAlpha = true) := by
  rw [Regex.search_iff rfl rfl]
  constructor
  · rintro ⟨t, ⟨pre, rfl⟩, hrun⟩
    obtain ⟨d₁, t₁, rfl, hd₁, hdigit₁, hrun⟩ := (Regex.run_plus_seq_ne_nil t).mp hrun
    obtain ⟨w₁, t₂, rfl, hw₁, hspace₁, hrun⟩ := (Regex.run_plus_seq_ne_nil t₁).mp hrun
    obtain ⟨d₂, t₃, rfl, hd₂, hdigit₂, hrun⟩ := (Regex.run_plus_seq_ne_nil t₂).mp hrun
    obtain ⟨w₂, t₄, rfl, hw₂, hspace₂, hrun⟩ := (Regex.run_plus_seq_ne_nil t₃).mp hrun
    obtain ⟨l, post, rfl, hl, halpha⟩ := (Regex.run_plus_ne_nil t₄).mp hrun
    exact ⟨pre, d₁, w₁, d₂, w₂, l, post, rfl, ⟨hd₁, hdigit₁⟩, ⟨hw₁, hspace₁⟩, ⟨hd₂, hdigit₂⟩,
      ⟨hw₂, hspace₂⟩, hl, halpha⟩
  · rintro ⟨pre, d₁, w₁, d₂, w₂, l, post, rfl, ⟨hd₁, hdigit₁⟩, ⟨hw₁, hspace₁⟩, ⟨hd₂, hdigit₂⟩,
      ⟨hw₂, hspace₂⟩, hl, halpha⟩
    refine ⟨_, List.suffix_append pre _, ?_⟩
    refine (Regex.run_plus_seq_ne_nil _).mpr ⟨d₁, _, rfl, hd₁, hdigit₁, ?_⟩
    refine (Regex.run_plus_seq_ne_nil _).mpr ⟨w₁, _, rfl, hw₁, hspace₁, ?_⟩
    refine (Regex.run_plus_seq_ne_nil _).mpr ⟨d₂, _, rfl, hd₂, hdigit₂, ?_⟩
    refine (Regex.run_plus_seq_ne_nil _).mpr ⟨w₂, _, rfl, hw₂, hspace₂, ?_⟩
    exact (Regex.run_plus_ne_nil _).mpr ⟨l, post, rfl, hl, halpha⟩

/-- The pattern takes three words. -/
theorem words_of_search {s : Str} (h : Regex.search requestPattern s = true) :
    ∃ ws w d₁ d₂ l w' ws', Spacing.words Text.isSpace s =
        ws ++ [w ++ d₁] ++ [d₂] ++ (l ++ w') :: ws' ∧ (d₁ ≠ [] ∧ ∀ c ∈ d₁, c.isDigit = true) ∧
      (∀ c ∈ d₂, c.isDigit = true) ∧ l ≠ [] ∧ ∀ c ∈ l, c.isAlpha = true := by
  obtain ⟨pre, d₁, w₁, d₂, w₂, l, post, rfl, ⟨hd₁, hdigit₁⟩, ⟨hw₁, hspace₁⟩, ⟨hd₂, hdigit₂⟩,
    ⟨hw₂, hspace₂⟩, hl, halpha⟩ := (search_request_iff s).mp h
  obtain ⟨ws, w, hleft⟩ := Spacing.words_append_right (p := Text.isSpace) pre hd₁
    fun c hc => isSpace_of_isDigit (hdigit₁ c hc)
  obtain ⟨w', ws', hright⟩ := Spacing.words_append_left (p := Text.isSpace) hl
    (fun c hc => isSpace_of_isAlpha (halpha c hc)) post
  refine ⟨ws, w, d₁, d₂, l, w', ws', ?_, ⟨hd₁, hdigit₁⟩, hdigit₂, hl, halpha⟩
  rw [← List.append_assoc pre, Spacing.words_append_gap _ hw₁ hspace₁,
    Spacing.words_append_gap _ hw₂ hspace₂, hleft, hright,
    Spacing.words_of_forall hd₂ fun c hc => isSpace_of_isDigit (hdigit₂ c hc)]
  simp

/-- Only requests are found. -/
theorem Case.shape_of_search {c : Case} (h : Regex.search requestPattern c.line = true) :
    3 ≤ c.fields.length := by
  obtain ⟨ws, w, d₁, d₂, l, w', ws', hwords, -⟩ := words_of_search h
  rw [c.words_line] at hwords
  rw [hwords]
  simp only [List.length_append, List.length_cons, List.length_nil]
  omega

/-- A line with less than three fields is no request. -/
theorem Case.search_eq_false {c : Case} (h : c.fields.length < 3) :
    Regex.search requestPattern c.line = false := by
  rw [Bool.eq_false_iff]
  intro hsearch
  exact absurd (Case.shape_of_search hsearch) (Nat.not_le.mpr h)

/-- A line with three fields is a request exactly when its id ends in a digit, its frequency is a
number and its type starts with a letter. -/
theorem search_line_iff (id : Field) (gap : Gap) (freq : Field) (gap' : Gap) (type : Field) :
    Regex.search requestPattern (Case.request id gap freq gap' type).line = true ↔
      (∃ c ∈ id.text.getLast?, c.isDigit = true) ∧ (∀ c ∈ freq.text, c.isDigit = true) ∧
        ∃ c ∈ type.text.head?, c.isAlpha = true := by
  constructor
  · intro h
    obtain ⟨ws, w, d₁, d₂, l, w', ws', hwords, ⟨hd₁, hdigit₁⟩, hdigit₂, hl, halpha⟩ :=
      words_of_search h
    rw [Case.words_line, Case.fields] at hwords
    have hlength := congrArg List.length hwords
    simp only [List.length_append, List.length_cons, List.length_nil] at hlength
    obtain rfl : ws = [] := List.length_eq_zero_iff.mp (by omega)
    obtain rfl : ws' = [] := List.length_eq_zero_iff.mp (by omega)
    simp only [List.nil_append, List.cons_append, List.cons.injEq, and_true] at hwords
    obtain ⟨hid, hfreq, htype⟩ := hwords
    rw [hid, hfreq, htype, List.getLast?_append_of_ne_nil _ hd₁, List.head?_append_of_ne_nil _ hl]
    exact ⟨⟨_, List.getLast?_eq_some_getLast hd₁, hdigit₁ _ (List.getLast_mem hd₁)⟩, hdigit₂,
      _, List.head?_eq_some_head hl, halpha _ (List.head_mem hl)⟩
  · rintro ⟨⟨c, hc, hdigit⟩, hfreq, ⟨d, hd, halpha⟩⟩
    obtain ⟨pre, hid⟩ := List.getLast?_eq_some_iff.mp hc
    obtain ⟨post, htype⟩ := List.head?_eq_some_iff.mp hd
    refine (search_request_iff _).mpr ⟨pre, [c], gap.text, freq.text, gap'.text, [d], post, ?_,
      ⟨List.cons_ne_nil c [], by simpa using hdigit⟩, ⟨gap.ne_nil, gap.isSpace⟩,
      ⟨freq.ne_nil, hfreq⟩, ⟨gap'.ne_nil, gap'.isSpace⟩, List.cons_ne_nil d [],
      by simpa using halpha⟩
    rw [Case.line, hid, htype]
    simp

/-! ## The rows -/

/-- The parts of a request in one text. -/
def Case.joined (c : Case) : Str :=
  c.part 0 ++ "  ".toList ++ c.part 1 ++ "  ".toList ++ c.part 2

/-- The texts that `LV_Add` gets for a line. -/
def Case.texts (c : Case) : List Str :=
  if c.parts.length = 1 then [c.line]
  else if Regex.search requestPattern c.line then [c.joined]
  else [c.part 0, c.part 1]

/-- The line is taken for the ids of two environments. -/
def Case.isPair (c : Case) : Bool :=
  decide (c.parts.length ≠ 1) && !Regex.search requestPattern c.line

/-- A part that there is does not depend on the default. -/
theorem getD_part {c : Case} {i : ℕ} (h : i < c.parts.length) (x : Str) :
    c.parts[i]?.getD x = c.part i := by
  rw [Case.part, List.getElem?_eq_getElem h, Option.getD_some, Option.getD_some]

/-- A line adds one row, and nothing of it is left from the line before. -/
theorem addLine_line (startColumn : Str → ℕ) (columns : ℕ) (s : Builder) (c : Case) :
    (addLine startColumn columns s c.line).rows =
        s.rows ++ [lvAdd columns (startColumn (options c.line)) c.texts] ∧
      (addLine startColumn columns s c.line).dualCases = (s.dualCases || c.isPair) := by
  have hpos : 1 ≤ c.fields.length := by cases c <;> simp [Case.fields]
  have hle := c.length_fields_le
  rw [addLine, ← formatted, ← Case.parts, Case.texts, Case.isPair]
  by_cases hone : c.parts.length = 1
  · simp [hone, Builder.setCaseIDs]
  · have h₀ := getD_part (c := c) (i := 0) (by omega)
    have h₁ := getD_part (c := c) (i := 1) (by omega)
    cases hsearch : Regex.search requestPattern c.line with
    | true =>
      have hthree := c.shape_of_search hsearch
      have h₂ := getD_part (c := c) (i := 2) (by omega)
      simp [hone, Builder.setCaseIDs, Case.joined, h₀, h₁, h₂]
    | false => simp [hone, Builder.setCaseIDs, h₀, h₁]

/-- The lines give a row each, and one that is a pair sets the flag. -/
theorem foldl_addLine (startColumn : Str → ℕ) (columns : ℕ) (s : Builder) (cs : List Case) :
    ((cs.map Case.line).foldl (addLine startColumn columns) s).rows =
        s.rows ++ cs.map (fun c => lvAdd columns (startColumn (options c.line)) c.texts) ∧
      ((cs.map Case.line).foldl (addLine startColumn columns) s).dualCases =
        (s.dualCases || cs.any Case.isPair) := by
  induction cs generalizing s with
  | nil => simp
  | cons c cs ih =>
    obtain ⟨hrows, hdual⟩ := addLine_line startColumn columns s c
    obtain ⟨ihrows, ihdual⟩ := ih (addLine startColumn columns s c.line)
    rw [List.map_cons, List.foldl_cons, ihrows, ihdual, hrows, hdual]
    simp [Bool.or_assoc]

/-- The first line of the cases holds a blank. -/
def blankFirst (cs : List Case) : Bool := cs.head?.any fun c => decide (' ' ∈ c.line)

/-- The first line sets the flag when it has a blank. -/
theorem dualCases_readFirst (s : Builder) {cs : List Case} (hne : cs ≠ []) :
    (readFirst s (cs.map Case.line)).dualCases = blankFirst cs := by
  obtain ⟨c, cs, rfl⟩ := List.exists_cons_of_ne_nil hne
  simp only [List.map_cons, readFirst, blankFirst, List.head?_cons, Option.any_some]
  exact decide_eq_decide.mpr (one_lt_length_stringSplit c.line_ne_nil)

/-- What the list shows of a file, and how it is read. -/
theorem buildGui_lines (startColumn : Str → ℕ) (before : Builder) {cs : List Case}
    (hne : cs ≠ []) :
    (buildGui startColumn before (cs.map Case.line)).rows =
        cs.map (fun c => lvAdd (if blankFirst cs then 2 else 1) (startColumn (options c.line))
          c.texts) ∧
      (buildGui startColumn before (cs.map Case.line)).dualCases =
        (blankFirst cs || cs.any Case.isPair) := by
  have hfirst := dualCases_readFirst before hne
  have hloop := foldl_addLine startColumn (if blankFirst cs then 2 else 1)
    { readFirst before (cs.map Case.line) with rows := [] } cs
  rw [buildGui]
  simp only [hfirst, List.nil_append] at hloop ⊢
  exact hloop

/-! ## Reading the columns -/

/-- The row for a line; `blank` says that the list has two columns. -/
def Case.row (startColumn : Str → ℕ) (blank : Bool) (c : Case) : List Str :=
  lvAdd (if blank then 2 else 1) (startColumn (options c.line)) c.texts

/-- The first column of a row has the first text, unless the options shift it. -/
theorem first_column (startColumn : Str → ℕ) (blank : Bool) (c : Case) :
    lvGetText (c.row startColumn blank) 1 =
      if startColumn (options c.line) = 0 then c.texts[0]?.getD [] else [] := by
  have hcolumns : 0 < if blank then 2 else 1 := by split <;> omega
  rw [lvGetText, Case.row, lvAdd, List.getD_eq_getElem?_getD,
    List.getElem?_take_of_lt (by omega)]
  cases startColumn (options c.line) with
  | zero => rfl
  | succ n => rfl

/-- The second column has the second text if there are two columns. -/
theorem second_column {startColumn : Str → ℕ} {c : Case} (h : startColumn (options c.line) = 0)
    (blank : Bool) :
    lvGetText (c.row startColumn blank) 2 = if blank then c.texts[1]?.getD [] else [] := by
  rw [lvGetText, Case.row, lvAdd, h, List.replicate_zero, List.nil_append,
    List.getD_eq_getElem?_getD, List.getElem?_take]
  cases blank <;> rfl

/-- The text to be processed is not empty. -/
theorem Case.Right.ne_nil {c : Case} {env : Env} {t : Str} (h : c.Right env t) : t ≠ [] := by
  rintro rfl
  cases c with
  | one id => exact id.ne_nil h.symm
  | dual stage gap dev =>
    cases env with
    | stage => exact stage.ne_nil h.symm
    | dev => exact dev.ne_nil h.symm
  | request id gap freq gap' type => cases h

/-- In the stage environment the first column is read. -/
theorem right_stage_iff {startColumn : Str → ℕ} {blank : Bool} {c : Case} :
    c.Right .stage (lvGetText (c.row startColumn blank) 1) ↔
      startColumn (options c.line) = 0 ∧ c.Right .stage (c.texts[0]?.getD []) := by
  rw [first_column]
  constructor
  · intro h
    have hne := h.ne_nil
    split at h
    · next hstart => exact ⟨hstart, h⟩
    · next hstart => exact absurd (if_neg hstart) hne
  · rintro ⟨hstart, h⟩
    rwa [if_pos hstart]

/-- The column that is read in the other environment. -/
def devColumn (cs : List Case) : ℕ := if blankFirst cs || cs.any Case.isPair then 2 else 1

/-- Both columns hold the right text for every case. -/
def Read (startColumn : Str → ℕ) (cs : List Case) : Prop :=
  ∀ c ∈ cs, c.Right .stage (lvGetText (c.row startColumn (blankFirst cs)) 1) ∧
    c.Right .dev (lvGetText (c.row startColumn (blankFirst cs)) (devColumn cs))

/-- A file is processed right exactly when its cases are read right. -/
theorem processed_iff_read {startColumn : Str → ℕ} {before : Builder} {file : CaseFile}
    (hne : file.cases ≠ []) :
    file.Processed startColumn before ↔ Read startColumn file.cases := by
  obtain ⟨hrows, hdual⟩ := buildGui_lines startColumn before hne
  have hstage : ∀ row, caseID (buildGui startColumn before (file.cases.map Case.line)) .stage row =
      lvGetText row 1 := fun row => by rw [caseID]; split <;> rfl
  have hdev : ∀ row, caseID (buildGui startColumn before (file.cases.map Case.line)) .dev row =
      lvGetText row (devColumn file.cases) := fun row => by
    rw [caseID, hdual, devColumn]; split <;> rfl
  simp only [CaseFile.Processed, hrows]
  rw [List.forall₂_map_right_iff, List.forall₂_same]
  refine forall₂_congr fun c hc => ⟨fun h => ⟨?_, ?_⟩, fun h env => ?_⟩
  · rw [← hstage]
    exact h .stage
  · rw [← hdev]
    exact h .dev
  · cases env with
    | stage => rw [hstage]; exact h.1
    | dev => rw [hdev]; exact h.2

/-! ## One id -/

/-- The text of a single case is its id exactly when the id has no bar. -/
theorem texts_one_iff (id : Field) :
    (Case.one id).texts[0]?.getD [] = id.text ↔ '|' ∉ id.text := by
  constructor
  · intro h hbar
    have hparts : (Case.one id).parts = stringSplit ['|'] id.text := by
      rw [Case.parts, formatted_line]
    have hlength := (one_lt_length_stringSplit id.ne_nil).mpr hbar
    rw [← hparts] at hlength
    rw [Case.texts, if_neg (by omega), Case.search_eq_false (Nat.lt_of_sub_eq_succ rfl)] at h
    have hpart : (Case.one id).part 0 = id.text := h
    rw [← hpart] at hbar
    exact (mem_part hbar).1 rfl
  · intro hbar
    rw [Case.texts, (Case.one id).parts_of_notMem (by simpa [Case.fields] using hbar)]
    rfl

/-- A single case without a bar is no pair. -/
theorem isPair_one {id : Field} (h : '|' ∉ id.text) : (Case.one id).isPair = false := by
  rw [Case.isPair, (Case.one id).parts_of_notMem (by simpa [Case.fields] using h)]
  rfl

/-! ## Two ids -/

section Dual

variable {stage : Field} {gap : Gap} {dev : Field}

/-- A line of two fields is split. -/
theorem length_parts_dual : (Case.dual stage gap dev).parts.length ≠ 1 := by
  have hle : 2 ≤ _ := (Case.dual stage gap dev).length_fields_le
  omega

theorem isPair_dual : (Case.dual stage gap dev).isPair = true := by
  rw [Case.isPair, Case.search_eq_false (Nat.lt_of_sub_eq_succ rfl),
    decide_eq_true length_parts_dual]
  rfl

/-- The texts of a pair are its first two parts. -/
theorem texts_dual :
    (Case.dual stage gap dev).texts =
      [(Case.dual stage gap dev).part 0, (Case.dual stage gap dev).part 1] := by
  rw [Case.texts, if_neg length_parts_dual, Case.search_eq_false (Nat.lt_of_sub_eq_succ rfl)]
  rfl

/-- They are its ids exactly when neither has a bar. -/
theorem texts_dual_iff :
    ((Case.dual stage gap dev).texts[0]?.getD [] = stage.text ∧
        (Case.dual stage gap dev).texts[1]?.getD [] = dev.text) ↔
      '|' ∉ stage.text ∧ '|' ∉ dev.text := by
  rw [texts_dual]
  constructor
  · rintro ⟨h₀, h₁⟩
    have hstage : (Case.dual stage gap dev).part 0 = stage.text := h₀
    have hdev : (Case.dual stage gap dev).part 1 = dev.text := h₁
    rw [← hstage, ← hdev]
    exact ⟨fun h => (mem_part h).1 rfl, fun h => (mem_part h).1 rfl⟩
  · intro h
    have hparts := (Case.dual stage gap dev).parts_of_notMem (by simpa [Case.fields] using h)
    rw [Case.part, Case.part, hparts]
    exact ⟨rfl, rfl⟩

end Dual

/-! ## Three fields -/

/-- A part is at most one word. -/
theorem length_words_part (c : Case) (i : ℕ) :
    (Spacing.words Text.isSpace (c.part i)).length ≤ 1 := by
  by_cases hne : c.part i = []
  · rw [hne]
    exact Nat.zero_le 1
  · rw [Spacing.words_of_forall hne fun x hx => (mem_part hx).2]
    exact Nat.le_refl 1

section Request

variable {id : Field} {gap : Gap} {freq : Field} {gap' : Gap} {type : Field}

theorem length_parts_request : (Case.request id gap freq gap' type).parts.length ≠ 1 := by
  have hle : 3 ≤ _ := (Case.request id gap freq gap' type).length_fields_le
  omega

/-- Three fields make a pair when they are not taken for a request. -/
theorem isPair_request :
    (Case.request id gap freq gap' type).isPair =
      !Regex.search requestPattern (Case.request id gap freq gap' type).line := by
  rw [Case.isPair, decide_eq_true length_parts_request, Bool.true_and]

/-- The only text of a request is its first three parts, joined. -/
theorem texts_request (h : Regex.search requestPattern (Case.request id gap freq gap' type).line) :
    (Case.request id gap freq gap' type).texts =
      [(Case.request id gap freq gap' type).joined] := by
  rw [Case.texts, if_neg length_parts_request, if_pos h]

/-- The words of the joined text are those of the parts. -/
theorem words_joined (c : Case) :
    Spacing.words Text.isSpace c.joined =
      Spacing.words Text.isSpace (c.part 0) ++ (Spacing.words Text.isSpace (c.part 1) ++
        Spacing.words Text.isSpace (c.part 2)) := by
  have hspace : ∀ x ∈ "  ".toList, Text.isSpace x = true := Text.forall_mem_of_all rfl
  rw [Case.joined, List.append_assoc, List.append_assoc, List.append_assoc,
    Spacing.words_append_gap _ (by simp) hspace, Spacing.words_append_gap _ (by simp) hspace]

/-- There is no bar in it. -/
theorem notMem_joined (c : Case) : '|' ∉ c.joined := by
  have hpart : ∀ i, '|' ∉ c.part i := fun i h => (mem_part h).1 rfl
  simp [Case.joined, hpart]

/-- The row of a request holds its fields when they are the parts of its line. -/
theorem texts_request_iff {env : Env}
    (h : Regex.search requestPattern (Case.request id gap freq gap' type).line) :
    (Case.request id gap freq gap' type).Right env
        ((Case.request id gap freq gap' type).texts[0]?.getD []) ↔
      ∀ f ∈ (Case.request id gap freq gap' type).fields, '|' ∉ f := by
  rw [texts_request h]
  constructor
  · intro hwords f hf hbar
    have hfields : Spacing.words Text.isSpace (Case.request id gap freq gap' type).joined =
      (Case.request id gap freq gap' type).fields := hwords
    rw [← hfields] at hf
    exact notMem_joined _ (Spacing.mem_of_mem_words hf hbar)
  · intro hbar
    have hparts := Case.parts_of_notMem _ hbar
    refine (words_joined _).trans ?_
    rw [Case.part, Case.part, Case.part, hparts]
    show Spacing.words Text.isSpace id.text ++ (Spacing.words Text.isSpace freq.text ++
      Spacing.words Text.isSpace type.text) = _
    rw [id.words, freq.words, type.words]
    rfl

/-- The second column never holds the three fields. -/
theorem not_right_second {env : Env} :
    ¬(Case.request id gap freq gap' type).Right env
      ((Case.request id gap freq gap' type).texts[1]?.getD []) := by
  cases hsearch : Regex.search requestPattern (Case.request id gap freq gap' type).line with
  | true =>
    rw [texts_request hsearch]
    intro h
    cases h
  | false =>
    rw [Case.texts, if_neg length_parts_request, hsearch]
    intro h
    have hfields : Spacing.words Text.isSpace ((Case.request id gap freq gap' type).part 1) =
      [id.text, freq.text, type.text] := h
    have hle := length_words_part (Case.request id gap freq gap' type) 1
    rw [hfields] at hle
    exact absurd hle (Nat.not_le.mpr (Nat.lt_of_sub_eq_succ rfl))

/-- A request is plain when it is taken for one and none of its fields has a bar. -/
theorem plain_request_iff :
    (Case.request id gap freq gap' type).Plain ↔
      Regex.search requestPattern (Case.request id gap freq gap' type).line = true ∧
        ∀ f ∈ (Case.request id gap freq gap' type).fields, '|' ∉ f := by
  rw [search_line_iff, Case.Plain, Case.fields]
  constructor
  · rintro ⟨⟨hid, htype⟩, hdigits⟩
    have hfreq : '|' ∉ freq.text := fun h => by cases hdigits.2.1 _ h
    exact ⟨hdigits, by simp [hid, hfreq, htype]⟩
  · rintro ⟨hdigits, hbar⟩
    exact ⟨⟨hbar _ (by simp), hbar _ (by simp)⟩, hdigits⟩

end Request

/-! ## All lines -/

/-- A case of the first shape has an id. -/
theorem exists_one {c : Case} (h : c.shape = .one) : ∃ id, c = .one id := by
  cases c with
  | one id => exact ⟨id, rfl⟩
  | dual | request => cases h

theorem exists_dual {c : Case} (h : c.shape = .dual) :
    ∃ stage gap dev, c = .dual stage gap dev := by
  cases c with
  | dual stage gap dev => exact ⟨stage, gap, dev, rfl⟩
  | one | request => cases h

theorem exists_request {c : Case} (h : c.shape = .request) :
    ∃ id gap freq gap' type, c = .request id gap freq gap' type := by
  cases c with
  | request id gap freq gap' type => exact ⟨id, gap, freq, gap', type, rfl⟩
  | one | dual => cases h

/-- Two columns are made when the first line has a blank. -/
theorem blankFirst_eq_true_iff {cs : List Case} (hne : cs ≠ []) :
    blankFirst cs = true ↔ ∀ c ∈ cs.head?, ' ' ∈ c.line := by
  obtain ⟨c, cs, rfl⟩ := List.exists_cons_of_ne_nil hne
  simp [blankFirst]

/-- One is made when it has none. -/
theorem blankFirst_eq_false_iff {cs : List Case} :
    blankFirst cs = false ↔ ∀ c ∈ cs.head?, ' ' ∉ c.line := by
  cases cs <;> simp [blankFirst]

variable {startColumn : Str → ℕ} {cs : List Case}

/-- Without a pair the id is read off the first column. -/
theorem devColumn_eq_one (hblank : blankFirst cs = false) (hpair : ∀ c ∈ cs, c.isPair = false) :
    devColumn cs = 1 := by
  have hany : cs.any Case.isPair = false := by
    rw [List.any_eq_false]
    intro c hc
    rw [hpair c hc]
    exact Bool.false_ne_true
  rw [devColumn, hblank, hany]
  rfl

/-- Single cases are read right exactly when they are plain and their options shift nothing. -/
theorem read_one_iff (hshape : ∀ c ∈ cs, c.shape = .one) :
    Read startColumn cs ↔ ∀ c ∈ cs, startColumn (options c.line) = 0 ∧ c.Plain := by
  have hcase : ∀ c ∈ cs, c.Right .stage (lvGetText (c.row startColumn (blankFirst cs)) 1) ↔
      startColumn (options c.line) = 0 ∧ c.Plain := by
    intro c hc
    obtain ⟨id, rfl⟩ := exists_one (hshape c hc)
    rw [right_stage_iff]
    exact and_congr_right fun _ => texts_one_iff id
  constructor
  · exact fun h c hc => (hcase c hc).mp (h c hc).1
  · intro h
    have hpair : ∀ c ∈ cs, c.isPair = false := by
      intro c hc
      have hplain := (h c hc).2
      obtain ⟨id, rfl⟩ := exists_one (hshape c hc)
      exact isPair_one hplain
    have hblank : blankFirst cs = false := by
      rw [blankFirst_eq_false_iff]
      intro c hc hblank
      obtain ⟨id, rfl⟩ := exists_one (hshape c (List.mem_of_mem_head? hc))
      cases id.solid _ hblank
    have hcolumn := devColumn_eq_one hblank hpair
    intro c hc
    have hright := (hcase c hc).mpr (h c hc)
    obtain ⟨id, rfl⟩ := exists_one (hshape c hc)
    rw [hcolumn]
    exact ⟨hright, hright⟩

/-- Two ids always count as two, but there is room for the second one only when the first line
holds a blank. -/
theorem read_dual_iff (hne : cs ≠ []) (hshape : ∀ c ∈ cs, c.shape = .dual) :
    Read startColumn cs ↔
      (∀ c ∈ cs, startColumn (options c.line) = 0 ∧ c.Plain) ∧ blankFirst cs = true := by
  obtain ⟨first, hfirst⟩ := List.exists_mem_of_ne_nil cs hne
  have hcolumn : devColumn cs = 2 := by
    have hpair : cs.any Case.isPair = true := by
      obtain ⟨stage, gap, dev, rfl⟩ := exists_dual (hshape first hfirst)
      exact List.any_eq_true.mpr ⟨_, hfirst, isPair_dual⟩
    rw [devColumn, hpair, Bool.or_true]
    rfl
  have hcase : ∀ c ∈ cs, (c.Right .stage (lvGetText (c.row startColumn (blankFirst cs)) 1) ∧
        c.Right .dev (lvGetText (c.row startColumn (blankFirst cs)) 2)) ↔
      (startColumn (options c.line) = 0 ∧ c.Plain) ∧ blankFirst cs = true := by
    intro c hc
    obtain ⟨stage, gap, dev, rfl⟩ := exists_dual (hshape c hc)
    rw [right_stage_iff]
    constructor
    · rintro ⟨⟨hstart, hstage⟩, hdev⟩
      have hne := hdev.ne_nil
      rw [second_column hstart] at hdev hne
      split at hdev
      · next hblank => exact ⟨⟨hstart, texts_dual_iff.mp ⟨hstage, hdev⟩⟩, hblank⟩
      · next hblank => exact absurd (if_neg hblank) hne
    · rintro ⟨⟨hstart, hplain⟩, hblank⟩
      obtain ⟨hstage, hdev⟩ := texts_dual_iff.mpr hplain
      rw [second_column hstart, if_pos hblank]
      exact ⟨⟨hstart, hstage⟩, hdev⟩
  rw [Read, hcolumn]
  constructor
  · exact fun h => ⟨fun c hc => ((hcase c hc).mp (h c hc)).1,
      ((hcase first hfirst).mp (h first hfirst)).2⟩
  · exact fun h c hc => (hcase c hc).mpr ⟨h.1 c hc, h.2⟩

/-- Three fields are read in both environments only when nothing counts as two ids. -/
theorem no_pair_of_read (hne : cs ≠ []) (hshape : ∀ c ∈ cs, c.shape = .request)
    (h : Read startColumn cs) : blankFirst cs = false ∧ ∀ c ∈ cs, ¬c.isPair = true := by
  rw [← List.any_eq_false, ← Bool.or_eq_false_iff, Bool.eq_false_iff]
  intro hdual
  obtain ⟨c, hc⟩ := List.exists_mem_of_ne_nil cs hne
  obtain ⟨hstage, hdev⟩ := h c hc
  rw [devColumn, if_pos hdual, second_column (right_stage_iff.mp hstage).1] at hdev
  obtain ⟨id, gap, freq, gap', type, rfl⟩ := exists_request (hshape c hc)
  split at hdev
  · exact not_right_second hdev
  · exact hdev.ne_nil rfl

/-- Three fields stand in the first column, which is read in both environments only when no line
counts as two ids. -/
theorem read_request_iff (hne : cs ≠ []) (hshape : ∀ c ∈ cs, c.shape = .request) :
    Read startColumn cs ↔
      (∀ c ∈ cs, startColumn (options c.line) = 0 ∧ c.Plain) ∧ blankFirst cs = false := by
  constructor
  · intro h
    obtain ⟨hblank, hpair⟩ := no_pair_of_read hne hshape h
    refine ⟨fun c hc => ?_, hblank⟩
    have hsearch := hpair c hc
    obtain ⟨hstart, hright⟩ := right_stage_iff.mp (h c hc).1
    obtain ⟨id, gap, freq, gap', type, rfl⟩ := exists_request (hshape c hc)
    rw [isPair_request, Bool.not_eq_true', Bool.not_eq_false] at hsearch
    exact ⟨hstart, plain_request_iff.mpr ⟨hsearch, (texts_request_iff hsearch).mp hright⟩⟩
  · rintro ⟨h, hblank⟩
    have hpair : ∀ c ∈ cs, c.isPair = false := by
      intro c hc
      have hplain := (h c hc).2
      obtain ⟨id, gap, freq, gap', type, rfl⟩ := exists_request (hshape c hc)
      rw [isPair_request, (plain_request_iff.mp hplain).1]
      rfl
    have hcolumn := devColumn_eq_one hblank hpair
    intro c hc
    obtain ⟨hstart, hplain⟩ := h c hc
    obtain ⟨id, gap, freq, gap', type, rfl⟩ := exists_request (hshape c hc)
    obtain ⟨hsearch, hbar⟩ := plain_request_iff.mp hplain
    have hright : (Case.request id gap freq gap' type).Right .stage
        (lvGetText (Case.row startColumn (blankFirst cs) _) 1) :=
      right_stage_iff.mpr ⟨hstart, (texts_request_iff hsearch).mpr hbar⟩
    rw [hcolumn]
    exact ⟨hright, hright⟩

/-- The case selected is the one that is processed exactly for the plain files. -/
theorem processed_iff_plain (startColumn : Str → ℕ) (before : Builder) (file : CaseFile) :
    file.Processed startColumn before ↔ file.Plain startColumn := by
  by_cases hne : file.cases = []
  · refine iff_of_true ?_ ?_
    · simp only [CaseFile.Processed, hne]
      exact List.Forall₂.nil
    · simp [CaseFile.Plain, hne]
  · rw [processed_iff_read hne, CaseFile.Plain]
    have hshape := file.same_shape
    cases hfile : file.shape with
    | one =>
      rw [hfile] at hshape
      simpa using read_one_iff hshape
    | dual =>
      rw [hfile] at hshape
      rw [← blankFirst_eq_true_iff hne]
      simpa using read_dual_iff hne hshape
    | request =>
      rw [hfile] at hshape
      rw [← blankFirst_eq_false_iff]
      simpa using read_request_iff hne hshape

/-- A list of one request, written with blanks. -/
def blankRequest : CaseFile where
  shape := .request
  cases := [.request
    ⟨"51482".toList, by simp, Text.forall_mem_of_all rfl⟩ ⟨[' '], by simp, by simp⟩
    ⟨"12".toList, by simp, Text.forall_mem_of_all rfl⟩ ⟨[' '], by simp, by simp⟩
    ⟨"medical".toList, by simp, Text.forall_mem_of_all rfl⟩]
  same_shape := by simp [Case.shape]

/-- The options of its row hold no word for another column. In the second environment the missing
column is read. -/
theorem not_processed_blankRequest :
    ¬blankRequest.Processed (fun _ => 0) ⟨false, [], [], [], []⟩ := by
  rw [processed_iff_read (List.cons_ne_nil _ [])]
  intro h
  have hblank := ((read_request_iff (List.cons_ne_nil _ []) blankRequest.same_shape).mp h).2
  cases hblank

end CaseSelect
