import ScriptsMisc.Cdr.CamelCase
import ScriptsMisc.OaBills.Validation

/-! # The ids of the policy summary

`fixPolSummaryIDs` gives the cells of the summary table ids that it makes of what the page shows;
`validatePolicySummary` looks the cells up under ids that it makes of the columns of the
recordset.
-/

namespace OaBills

open CamelCase (jsSpace)
open Vbs (shown)

/-! ## The table and its ids -/

/-- A table of the page: the texts of the `th` cells of its first row, and of the `td` cells of
every row. -/
structure SummaryTable where
  headers : List Str
  rows : List (List Str)

/-- `coverages[i]` for `i` from 2 up to `coverages.length - 3`. -/
def SummaryTable.walked (t : SummaryTable) : List (List Str) :=
  (t.rows.drop 2).take (t.rows.length - 4)

/-- `replace(/^[\s]+/g, '')`. -/
def trimLeft (s : Str) : Str :=
  Regex.replaceAll (.seq .start (.plus jsSpace)) (fun _ => []) s

/-- `covrName` of the text of a row's first cell. -/
def covrName (text : Str) : Str :=
  trimLeft (Regex.replaceAll
    (.alt (.seq .start (.seq (.star true (· != '(')) (.chr '('))) (.chr ')')) (fun _ => []) text)

/-- `departmentName` at a row: a cell of its own with a text sets it. The text of such a row is the
text of its cell. -/
def departmentAt (departmentName : Str) : List Str → Str
  | [text] => if text ≠ [] then text ++ [' '] else departmentName
  | _ => departmentName

/-- The id of a cell. -/
def cellId (departmentName covrName header : Str) : Str :=
  trimLeft (departmentName ++ covrName ++ ' ' :: header)

/-- The ids of a row and of its cells. -/
structure RowIds where
  row : Option Str
  cells : List Str
deriving DecidableEq, Repr

/-- What a row with these cells gets; the cells that no header is over get none. -/
def rowIds (headers : List Str) (departmentName text : Str) (texts : List Str) : RowIds where
  row := some ("COVERAGE ".toList ++ covrName text)
  cells := (headers.take (texts.length + 1)).map (cellId departmentName (covrName text))

/-- The ids given to rows, up to a cell that no header is over, where the script stops. -/
def fixRows (headers : List Str) : Str → List (List Str) → List RowIds
  | _, [] => []
  | departmentName, [] :: rows => ⟨none, []⟩ :: fixRows headers departmentName rows
  | departmentName, (text :: texts) :: rows =>
    let departmentName := departmentAt departmentName (text :: texts)
    rowIds headers departmentName text texts ::
      if headers.length < texts.length + 1 then [] else fixRows headers departmentName rows

def fixPolSummaryIDs (t : SummaryTable) : List RowIds := fixRows t.headers [] t.walked

/-- The id under which the cell of a coverage below `header` is looked up. -/
def lookupId (r : Row) (header : Str) : Str :=
  idPrefix (r.text .groupTitle) (r.text .benShrtNm) ++ ' ' :: header

/-- The checks of a coverage look its cells up. -/
theorem htmlId_coverageChecks (w : World) (r : Row) :
    ∀ c ∈ coverageChecks w r, ∃ header, c.htmlId = lookupId r header := by
  intro c hc
  unfold coverageChecks at hc
  simp only [List.mem_append, List.mem_cons, List.not_mem_nil, or_false,
    List.mem_ite_nil_right] at hc
  rcases hc with ((rfl | rfl | rfl) | ⟨-, rfl⟩) | rfl <;> exact ⟨_, rfl⟩

/-! ## White space at the start -/

/-- What JavaScript trims. -/
theorem trimLeft_eq (s : Str) : trimLeft s = s.dropWhile jsSpace :=
  Regex.replaceAll_start_plus jsSpace s

theorem stripLeading_eq (s : Str) : stripLeading s = s.dropWhile Text.isSpace :=
  Regex.replaceAll_start_plus Text.isSpace s

/-- What is white space for VBScript is so for JavaScript. -/
theorem jsSpace_of_isSpace {c : Char} (h : Text.isSpace c = true) : jsSpace c = true := by
  simp only [Text.isSpace, Bool.or_eq_true, decide_eq_true_eq] at h
  rcases h with ((((rfl | rfl) | rfl) | rfl) | rfl) | rfl <;> decide

/-- A text of white space only. -/
def Blank (s : Str) : Prop := ∀ c ∈ s, jsSpace c = true

instance (s : Str) : Decidable (Blank s) := by unfold Blank; infer_instance

/-- What is left after white space does not start with it. -/
theorem jsSpace_head_trimLeft {s rest : Str} {c : Char} (h : trimLeft s = c :: rest) :
    jsSpace c = false := by
  rw [trimLeft_eq] at h
  have hhead := List.head?_dropWhile_not jsSpace s
  rw [h] at hhead
  simpa using hhead

/-- Only white space is trimmed to nothing. -/
theorem trimLeft_eq_nil_iff (s : Str) : trimLeft s = [] ↔ Blank s := by
  rw [trimLeft_eq]
  exact List.dropWhile_eq_nil_iff

/-- White space in front goes whole. -/
theorem trimLeft_blank_append {s : Str} (h : Blank s) (t : Str) :
    trimLeft (s ++ t) = trimLeft t := by
  rw [trimLeft_eq, trimLeft_eq, List.dropWhile_append_of_pos h]

/-- Behind another character nothing is trimmed. -/
theorem trimLeft_append {s : Str} (h : ¬ Blank s) (t : Str) :
    trimLeft (s ++ t) = trimLeft s ++ t := by
  rw [← trimLeft_eq_nil_iff] at h
  rw [trimLeft_eq] at h ⊢
  rw [trimLeft_eq, List.dropWhile_append, if_neg (by rwa [List.isEmpty_iff])]

/-- What is cut off is white space. -/
theorem exists_blank_append (s : Str) : ∃ t, Blank t ∧ s = t ++ trimLeft s := by
  refine ⟨s.takeWhile jsSpace, List.all_eq_true.mp List.all_takeWhile, ?_⟩
  rw [trimLeft_eq, List.takeWhile_append_dropWhile]

theorem trimLeft_trimLeft (s : Str) : trimLeft (trimLeft s) = trimLeft s := by
  cases h : trimLeft s with
  | nil => rfl
  | cons c t => rw [trimLeft_eq, List.dropWhile_cons_of_neg (by simp [jsSpace_head_trimLeft h])]

/-- VBScript cuts off white space, but maybe not all that is so for JavaScript. -/
theorem exists_stripLeading (s : Str) :
    ∃ t u, (∀ c ∈ t, Text.isSpace c = true) ∧ Blank u ∧ s = t ++ stripLeading s ∧
      stripLeading s = u ++ trimLeft s := by
  have hsplit : s = s.takeWhile Text.isSpace ++ stripLeading s := by
    rw [stripLeading_eq, List.takeWhile_append_dropWhile]
  have htake : ∀ c ∈ s.takeWhile Text.isSpace, Text.isSpace c = true :=
    List.all_eq_true.mp List.all_takeWhile
  obtain ⟨u, hu, hrest⟩ := exists_blank_append (stripLeading s)
  refine ⟨s.takeWhile Text.isSpace, u, htake, hu, hsplit, ?_⟩
  have hsame : trimLeft s = trimLeft (stripLeading s) := by
    conv_lhs => rw [hsplit]
    exact trimLeft_blank_append (fun c hc => jsSpace_of_isSpace (htake c hc)) _
  rw [hsame]
  exact hrest

/-! ## The name in a description -/

/-- The text of a coverage's first cell. -/
def described (desc name : Str) : Str := desc ++ " (".toList ++ name ++ [')']

/-- The name is what follows the first bracket. -/
theorem covrName_of_split {s t : Str} (hs : '(' ∉ s) :
    covrName (s ++ '(' :: t) = trimLeft (t.filter (· != ')')) := by
  unfold covrName
  apply congrArg trimLeft
  have hrest : (t.filter fun c => ! (c == ')')) = t.filter (· != ')') := rfl
  rw [← hrest]
  apply Regex.replaceAll_start_star_cls
  · intro c hc
    simpa using hc
  · intro d hd
    simpa using fun h : d = '(' => hs (h ▸ hd)
  · rfl

/-- Without a closing bracket nothing is removed. -/
theorem filter_of_notMem {s : Str} (h : ')' ∉ s) : s.filter (· != ')') = s :=
  List.filter_eq_self.mpr fun c hc => by simpa using fun hcp : c = ')' => h (hcp ▸ hc)

/-- Without a bracket in the description it is the short name. -/
theorem covrName_described {desc : Str} (h : '(' ∉ desc) (name : Str) :
    covrName (described desc name) = trimLeft (name.filter (· != ')')) := by
  have hsplit : described desc name = (desc ++ [' ']) ++ '(' :: (name ++ [')']) := by
    simp [described]
  rw [hsplit, covrName_of_split (by simp [h]), List.filter_append]
  simp

/-- Only white space and closing parentheses are lost. -/
theorem count_trimLeft_filter {c : Char} (hspace : jsSpace c = false) (hclose : c ≠ ')') (s : Str) :
    (trimLeft (s.filter (· != ')'))).count c = s.count c := by
  obtain ⟨t, ht, hs⟩ := exists_blank_append (s.filter (· != ')'))
  have hcount := congrArg (List.count c) hs
  have hzero : t.count c = 0 := by
    apply List.count_eq_zero.mpr
    intro hc
    rw [ht c hc] at hspace
    exact absurd hspace (by decide)
  rw [List.count_append, hzero, Nat.zero_add, List.count_filter (by simpa using hclose)] at hcount
  exact hcount.symm

/-- A description with a parenthesis leaves one in the name. -/
theorem count_covrName_described {desc : Str} (h : '(' ∈ desc) (name : Str) :
    name.count '(' < (covrName (described desc name)).count '(' := by
  obtain ⟨s, t, hs, hdesc⟩ := List.eq_append_cons_of_mem h
  have hsplit : described desc name = s ++ '(' :: (t ++ " (".toList ++ name ++ [')']) := by
    simp [described, hs]
  rw [hsplit, covrName_of_split hdesc, count_trimLeft_filter (by decide) (by decide)]
  have hone : " (".toList.count '(' = 1 := by decide
  simp only [List.count_append, hone]
  omega

/-- Where white space is all that is cut off the name, it is recovered from a description without
an opening parenthesis when there is no closing one in it. -/
theorem covrName_eq_iff {desc name cut : Str} (hcut : ∃ t, Blank t ∧ name = t ++ cut) :
    covrName (described desc name) = cut ↔ '(' ∉ desc ∧ ')' ∉ name ∧ trimLeft name = cut := by
  obtain ⟨t, ht, rfl⟩ := hcut
  constructor
  · intro heq
    have hdesc : '(' ∉ desc := by
      intro h
      have hcount := count_covrName_described h (t ++ cut)
      rw [heq, List.count_append] at hcount
      omega
    have hclose : ')' ∉ t ++ cut := by
      intro h
      rw [covrName_described hdesc] at heq
      have hcut : ')' ∉ cut := by
        intro hmem
        rw [← heq, trimLeft_eq] at hmem
        have hfilter := List.dropWhile_subset _ hmem
        simp at hfilter
      exact (List.mem_append.mp h).elim (fun h => absurd (ht _ h) (by decide)) hcut
    refine ⟨hdesc, hclose, ?_⟩
    rw [covrName_described hdesc, filter_of_notMem hclose] at heq
    exact heq
  · rintro ⟨hdesc, hclose, htrim⟩
    rw [covrName_described hdesc, filter_of_notMem hclose, htrim]

/-! ## When the ids agree -/

/-- The cell of a coverage gets the id it is looked up under. With no department in force the title
is white space and so is what is cut off the name; with one, nothing is cut off the name. An empty
title leaves the department of an earlier row in force. -/
def IdsAgree (department title desc name : Str) : Prop :=
  '(' ∉ desc ∧
    if Blank department then
      (∀ c ∈ title, Text.isSpace c = true) ∧ ')' ∉ name ∧ ¬ Blank name ∧
        trimLeft name = stripLeading name
    else if title ≠ [] then
      trimLeft title = stripLeading title ∧ ')' ∉ name ∧ trimLeft name = name
    else
      (∀ c ∈ department, c = ')' ∨ jsSpace c = true) ∧
        ∃ rest, stripLeading name = trimLeft department ++ rest ∧ ')' ∉ rest ∧ trimLeft rest = rest

theorem stripLeading_isSpace_append {s : Str} (h : ∀ c ∈ s, Text.isSpace c = true) (t : Str) :
    stripLeading (s ++ t) = stripLeading t := by
  rw [stripLeading_eq, stripLeading_eq, List.dropWhile_append_of_pos h]

theorem stripLeading_append {s : Str} (h : ¬ ∀ c ∈ s, Text.isSpace c = true) (t : Str) :
    stripLeading (s ++ t) = stripLeading s ++ t := by
  rw [← List.dropWhile_eq_nil_iff] at h
  rw [stripLeading_eq, stripLeading_eq, List.dropWhile_append, if_neg (by rwa [List.isEmpty_iff])]

/-- A text that does not start with white space is none that white space was put before. -/
theorem eq_nil_of_trimLeft_eq_append {s t u v : Str} (hu : Blank u)
    (h : trimLeft s ++ t = u ++ v) (hs : trimLeft s ≠ []) : u = [] := by
  cases u with
  | nil => rfl
  | cons c u =>
    cases htrim : trimLeft s with
    | nil => exact absurd htrim hs
    | cons d rest =>
      rw [htrim, List.cons_append, List.cons_append, List.cons.injEq] at h
      have hspace := hu c List.mem_cons_self
      rw [← h.1, jsSpace_head_trimLeft htrim] at hspace
      exact absurd hspace Bool.false_ne_true

/-- A name that is not empty is not blank. -/
theorem covrName_ne_nil {text : Str} (h : covrName text ≠ []) : ¬ Blank (covrName text) := by
  rw [← trimLeft_eq_nil_iff, covrName, trimLeft_trimLeft]
  exact h

/-- Without a department the id is the name's. -/
theorem cellId_of_blank {department : Str} (h : Blank department) (text header lookup : Str) :
    cellId department (covrName text) header = lookup ++ ' ' :: header ↔
      covrName text ≠ [] ∧ covrName text = lookup := by
  have hid : cellId department (covrName text) header =
      trimLeft (covrName text ++ ' ' :: header) := by
    rw [cellId, List.append_assoc, trimLeft_blank_append h]
  rw [hid]
  by_cases hname : covrName text = []
  · -- the id is no longer than the header
    refine iff_of_false (fun heq => ?_) fun h => h.1 hname
    have hlength := congrArg List.length heq
    have hle := (List.dropWhile_suffix jsSpace (l := ' ' :: header)).length_le
    rw [hname, List.nil_append, trimLeft_eq, List.length_append] at hlength
    have hcons : (' ' :: header).dropWhile jsSpace = header.dropWhile jsSpace := rfl
    have hle' := (List.dropWhile_suffix jsSpace (l := header)).length_le
    rw [hcons, List.length_cons] at hlength
    omega
  · rw [trimLeft_append (covrName_ne_nil hname)]
    have htrim : trimLeft (covrName text) = covrName text := trimLeft_trimLeft _
    rw [htrim, List.append_cancel_right_eq]
    exact (and_iff_right hname).symm

/-- With a department the id is put together from its name and the coverage's. -/
theorem cellId_of_department {department : Str} (h : ¬ Blank department)
    (name header lookup : Str) :
    cellId department name header = lookup ++ ' ' :: header ↔
      trimLeft department ++ name = lookup := by
  rw [cellId, List.append_assoc, trimLeft_append h, ← List.append_assoc,
    List.append_cancel_right_eq]

theorem blank_nil : Blank [] := List.forall_mem_nil _

theorem blank_space : Blank [' '] := fun c hc => by rw [List.mem_singleton.mp hc]; decide

/-- A text is blank when both of its parts are. -/
theorem blank_append_iff (s t : Str) : Blank (s ++ t) ↔ Blank s ∧ Blank t :=
  List.forall_mem_append

/-- Below no department the ids agree when the names do. -/
theorem id_eq_iff_of_blank {department title : Str} (h : Blank department)
    (hdepartment : title ≠ [] → department = title ++ [' ']) (desc name header : Str) :
    cellId department (covrName (described desc name)) header =
        stripLeading (title ++ ' ' :: name) ++ ' ' :: header ↔
      '(' ∉ desc ∧ (∀ c ∈ title, Text.isSpace c = true) ∧ ')' ∉ name ∧ ¬ Blank name ∧
        trimLeft name = stripLeading name := by
  have htitle : Blank title := by
    by_cases hne : title = []
    · rw [hne]
      exact blank_nil
    · rw [hdepartment hne, blank_append_iff] at h
      exact h.1
  rw [cellId_of_blank h]
  by_cases hvb : ∀ c ∈ title, Text.isSpace c = true
  · have hlookup : stripLeading (title ++ ' ' :: name) = stripLeading name := by
      rw [stripLeading_isSpace_append hvb]
      exact stripLeading_isSpace_append (s := [' ']) (by simp [Text.isSpace]) name
    obtain ⟨t, -, ht, -, hsplit, -⟩ := exists_stripLeading name
    have hcut : ∃ t, Blank t ∧ name = t ++ stripLeading name :=
      ⟨t, fun c hc => jsSpace_of_isSpace (ht c hc), hsplit⟩
    rw [hlookup, covrName_eq_iff hcut]
    constructor
    · rintro ⟨hne, hdesc, hclose, htrim⟩
      refine ⟨hdesc, hvb, hclose, fun hblank => hne ?_, htrim⟩
      rw [(covrName_eq_iff hcut).mpr ⟨hdesc, hclose, htrim⟩, ← htrim]
      exact (trimLeft_eq_nil_iff name).mpr hblank
    · rintro ⟨hdesc, -, hclose, hblank, htrim⟩
      refine ⟨fun hnil => hblank ?_, hdesc, hclose, htrim⟩
      rw [← trimLeft_eq_nil_iff, htrim, ← (covrName_eq_iff hcut).mpr ⟨hdesc, hclose, htrim⟩, hnil]
  · -- VBScript leaves white space of the title at the start of the id
    refine iff_of_false (fun heq => ?_) fun h => hvb h.2.1
    obtain ⟨t, u, ht, hu, hsplit, hstrip⟩ := exists_stripLeading title
    rw [stripLeading_append hvb, hstrip, (trimLeft_eq_nil_iff title).mpr htitle,
      List.append_nil] at heq
    have heq' : trimLeft _ ++ [] = u ++ ' ' :: name := (List.append_nil _).trans heq.2
    have hnil := eq_nil_of_trimLeft_eq_append hu heq' heq.1
    rw [hstrip, hnil, (trimLeft_eq_nil_iff title).mpr htitle, List.append_nil,
      List.append_nil] at hsplit
    exact hvb (hsplit ▸ ht)

/-- Below the department of the title they agree when title and name are trimmed alike. -/
theorem id_eq_iff_of_title {title : Str} (h : ¬ Blank (title ++ [' ']))
    (desc name header : Str) :
    cellId (title ++ [' ']) (covrName (described desc name)) header =
        stripLeading (title ++ ' ' :: name) ++ ' ' :: header ↔
      '(' ∉ desc ∧ trimLeft title = stripLeading title ∧ ')' ∉ name ∧ trimLeft name = name := by
  have htitle : ¬ Blank title := fun hblank => h ((blank_append_iff _ _).mpr ⟨hblank, blank_space⟩)
  have hvb : ¬ ∀ c ∈ title, Text.isSpace c = true :=
    fun hvb => htitle fun c hc => jsSpace_of_isSpace (hvb c hc)
  have hne : trimLeft title ≠ [] := fun hnil => htitle ((trimLeft_eq_nil_iff title).mp hnil)
  rw [cellId_of_department h, trimLeft_append htitle, stripLeading_append hvb]
  have hcut : ∃ t, Blank t ∧ name = t ++ name := ⟨[], blank_nil, rfl⟩
  obtain ⟨t, u, -, hu, -, hstrip⟩ := exists_stripLeading title
  constructor
  · intro heq
    rw [hstrip, List.append_assoc, List.append_assoc] at heq
    have hnil := eq_nil_of_trimLeft_eq_append hu heq hne
    rw [hnil, List.nil_append, List.append_cancel_left_eq, List.singleton_append,
      List.cons_eq_cons] at heq
    rw [hnil, List.nil_append] at hstrip
    obtain ⟨hdesc, hclose, htrim⟩ := (covrName_eq_iff hcut).mp heq.2
    exact ⟨hdesc, hstrip.symm, hclose, htrim⟩
  · rintro ⟨hdesc, hsame, hclose, htrim⟩
    rw [(covrName_eq_iff hcut).mpr ⟨hdesc, hclose, htrim⟩, hsame, List.append_assoc,
      List.singleton_append]

/-- Where a name already starts with the department, all of the department is lost from it: a
character that stays would be there twice. -/
theorem department_lost {department name : Str}
    (heq : trimLeft department ++ trimLeft (name.filter (· != ')')) = stripLeading name) :
    ∀ c ∈ department, c = ')' ∨ jsSpace c = true := by
  obtain ⟨t, -, -, -, hsplit, -⟩ := exists_stripLeading name
  obtain ⟨v, hv, hdepartment⟩ := exists_blank_append department
  intro c hc
  by_contra hother
  rw [not_or, Bool.not_eq_true] at hother
  have hmem : c ∈ trimLeft department := by
    rw [hdepartment] at hc
    refine (List.mem_append.mp hc).resolve_left fun hblank => ?_
    rw [hv c hblank] at hother
    exact absurd hother.2 (by decide)
  have hpos := List.count_pos_iff.mpr hmem
  have hname := congrArg (List.count c) hsplit
  rw [← heq, List.count_append, List.count_append,
    count_trimLeft_filter hother.2 hother.1] at hname
  omega

/-- A name loses a department of white space and closing parentheses that it starts with. -/
theorem trimLeft_filter_of_lost {department name rest : Str}
    (hall : ∀ c ∈ department, c = ')' ∨ jsSpace c = true)
    (hrest : stripLeading name = trimLeft department ++ rest) (hclose : ')' ∉ rest)
    (htrim : trimLeft rest = rest) :
    trimLeft (name.filter (· != ')')) = rest := by
  obtain ⟨t, -, ht, -, hsplit, -⟩ := exists_stripLeading name
  have htblank : Blank t := fun c hc => jsSpace_of_isSpace (ht c hc)
  have hfilter : Blank ((trimLeft department).filter (· != ')')) := by
    intro c hc
    rw [List.mem_filter] at hc
    rw [trimLeft_eq] at hc
    have hor := hall c (List.dropWhile_subset _ hc.1)
    exact hor.resolve_left (by simpa using hc.2)
  have hname : name.filter (· != ')') =
      t.filter (· != ')') ++ ((trimLeft department).filter (· != ')') ++ rest) := by
    conv_lhs => rw [hsplit, hrest, List.filter_append, List.filter_append]
    rw [filter_of_notMem hclose]
  rw [hname, trimLeft_blank_append fun c hc => htblank c (List.mem_of_mem_filter hc),
    trimLeft_blank_append hfilter, htrim]

/-- Without a title the department of an earlier row has to be part of the name. -/
theorem id_eq_iff_of_empty {department : Str} (h : ¬ Blank department)
    (desc name header : Str) :
    cellId department (covrName (described desc name)) header =
        stripLeading (' ' :: name) ++ ' ' :: header ↔
      '(' ∉ desc ∧ (∀ c ∈ department, c = ')' ∨ jsSpace c = true) ∧
        ∃ rest, stripLeading name = trimLeft department ++ rest ∧ ')' ∉ rest ∧
          trimLeft rest = rest := by
  have hlookup : stripLeading (' ' :: name) = stripLeading name :=
    stripLeading_isSpace_append (s := [' ']) (by simp [Text.isSpace]) name
  rw [cellId_of_department h, hlookup]
  constructor
  · intro heq
    have hdesc : '(' ∉ desc := by
      intro hmem
      have hcount := count_covrName_described hmem name
      obtain ⟨t, -, -, -, hsplit, -⟩ := exists_stripLeading name
      have hname := congrArg (List.count '(') hsplit
      rw [← heq, List.count_append, List.count_append] at hname
      omega
    rw [covrName_described hdesc] at heq
    refine ⟨hdesc, department_lost heq, _, heq.symm, ?_, trimLeft_trimLeft _⟩
    intro hmem
    rw [trimLeft_eq] at hmem
    simpa using List.dropWhile_subset _ hmem
  · rintro ⟨hdesc, hall, rest, hrest, hclose, htrim⟩
    rw [covrName_described hdesc, trimLeft_filter_of_lost hall hrest hclose htrim, hrest]

/-- The ids agree in one of these ways. -/
theorem id_eq_iff {department title : Str} (hdepartment : title ≠ [] → department = title ++ [' '])
    (desc name header : Str) :
    cellId department (covrName (described desc name)) header =
        stripLeading (title ++ ' ' :: name) ++ ' ' :: header ↔
      IdsAgree department title desc name := by
  unfold IdsAgree
  by_cases hblank : Blank department
  · rw [if_pos hblank]
    exact id_eq_iff_of_blank hblank hdepartment desc name header
  · rw [if_neg hblank]
    by_cases hne : title ≠ []
    · rw [hdepartment hne] at hblank ⊢
      rw [if_pos hne]
      exact id_eq_iff_of_title hblank desc name header
    · rw [if_neg hne]
      rw [not_not] at hne
      rw [hne]
      exact id_eq_iff_of_empty hblank desc name header

/-! ## A coverage on the page -/

/-- The last of the rows that have one cell shows `title`; there is none when it is null. One cell
without a text shows an empty title, and is passed over under another one. -/
def ShowsDepartment (rows : List (List Str)) : Option Str → Prop
  | none => ∀ cells ∈ rows, cells.length = 1 → cells = [[]]
  | some title => ∃ before after, rows = before ++ [title] :: after ∧
      ∀ cells ∈ after, cells.length = 1 → cells = [[]]

/-- The summary table with a coverage of the recordset, and one of its cells. -/
structure ShownCoverage where
  record : Row
  headers : List Str
  top : List (List Str)
  before : List (List Str)
  others : List Str
  after : List (List Str)
  bottom : List (List Str)
  column : ℕ
  header : Str
  top_length : top.length = 2
  bottom_length : bottom.length = 2
  others_ne : others ≠ []
  before_fits : ∀ cells ∈ before, cells.length ≤ headers.length
  column_le : column ≤ others.length
  headers_column : headers[column]? = some header
  department : ShowsDepartment before (record.text .groupTitle)

namespace ShownCoverage

variable (s : ShownCoverage)

/-- The cells of the coverage. -/
def cells : List Str := coverageDescription s.record :: s.others

def table : SummaryTable where
  headers := s.headers
  rows := s.top ++ (s.before ++ s.cells :: s.after) ++ s.bottom

/-- The id that `fixPolSummaryIDs` gives the cell. -/
def assignedId : Option Str :=
  (fixPolSummaryIDs s.table)[s.before.length]?.bind fun ids => ids.cells[s.column]?

/-- `departmentName` at the coverage. -/
def departmentName : Str := s.before.foldl departmentAt []

theorem walked_table : s.table.walked = s.before ++ s.cells :: s.after := by
  have hlength : s.table.rows.length - 4 = (s.before ++ s.cells :: s.after).length := by
    have htop := s.top_length
    have hbottom := s.bottom_length
    simp only [table, List.length_append] at htop hbottom ⊢
    omega
  rw [SummaryTable.walked, hlength, table, List.append_assoc, ← s.top_length, List.drop_left,
    List.take_left]

end ShownCoverage

/-- Rows that are no wider than the headers all get their ids. -/
theorem fixRows_append {headers : List Str} {rows : List (List Str)}
    (hfits : ∀ cells ∈ rows, cells.length ≤ headers.length) (departmentName : Str)
    (rows' : List (List Str)) :
    ∃ ids, ids.length = rows.length ∧ fixRows headers departmentName (rows ++ rows') =
      ids ++ fixRows headers (rows.foldl departmentAt departmentName) rows' := by
  induction rows generalizing departmentName with
  | nil => exact ⟨[], rfl, rfl⟩
  | cons cells rows ih =>
    rw [List.forall_mem_cons] at hfits
    obtain ⟨ids, hlength, hids⟩ := ih hfits.2 (departmentAt departmentName cells)
    cases cells with
    | nil =>
      exact ⟨⟨none, []⟩ :: ids, congrArg Nat.succ hlength, congrArg (_ :: ·) hids⟩
    | cons text texts =>
      have hwide : ¬ headers.length < texts.length + 1 := Nat.not_lt.mpr hfits.1
      let row := rowIds headers (departmentAt departmentName (text :: texts)) text texts
      refine ⟨row :: ids, congrArg Nat.succ hlength, ?_⟩
      rw [List.cons_append, fixRows, if_neg hwide, hids]
      rfl

/-- A row with more than one cell is no department. -/
theorem departmentAt_cons_cons (departmentName text text' : Str) (texts : List Str) :
    departmentAt departmentName (text :: text' :: texts) = departmentName := rfl

/-- Rows with several cells, or none, and empty ones leave the department as it is. -/
theorem foldl_departmentAt {rows : List (List Str)}
    (h : ∀ cells ∈ rows, cells.length = 1 → cells = [[]]) (departmentName : Str) :
    rows.foldl departmentAt departmentName = departmentName := by
  induction rows with
  | nil => rfl
  | cons cells rows ih =>
    rw [List.forall_mem_cons] at h
    have hcells : departmentAt departmentName cells = departmentName := by
      match cells, h.1 with
      | [], _ => rfl
      | [text], hone => rw [hone rfl]; rfl
      | _ :: _ :: _, _ => rfl
    rw [List.foldl_cons, hcells]
    exact ih h.2

namespace ShownCoverage

/-- The department of a title is the one in force. -/
theorem departmentName_of_title (s : ShownCoverage)
    (hne : shown (s.record.text .groupTitle) ≠ []) :
    s.departmentName = shown (s.record.text .groupTitle) ++ [' '] := by
  have hshows := s.department
  cases htitle : s.record.text .groupTitle with
  | none => rw [htitle] at hne; exact absurd rfl hne
  | some title =>
    rw [htitle] at hshows hne
    obtain ⟨before, after, hbefore, hafter⟩ := hshows
    rw [departmentName, hbefore, List.foldl_append, List.foldl_cons, foldl_departmentAt hafter]
    exact if_pos hne

/-- The id that the script gives to the cell. -/
theorem assignedId_eq (s : ShownCoverage) :
    s.assignedId =
      some (cellId s.departmentName (covrName (coverageDescription s.record)) s.header) := by
  obtain ⟨ids, hlength, hids⟩ := fixRows_append s.before_fits [] (s.cells :: s.after)
  obtain ⟨text, texts, hothers⟩ := List.exists_cons_of_ne_nil s.others_ne
  have hcolumn : (s.headers.take (s.others.length + 1))[s.column]? = some s.header := by
    rw [List.getElem?_take_of_lt (Nat.lt_succ_of_le s.column_le), s.headers_column]
  rw [assignedId, fixPolSummaryIDs, walked_table]
  show ((fixRows s.headers [] _)[s.before.length]?.bind _) = _
  rw [hids, ← hlength, List.getElem?_append_right (Nat.le_refl _), Nat.sub_self, cells, fixRows,
    List.getElem?_cons_zero, Option.bind_some, rowIds, List.getElem?_map, hcolumn, hothers,
    departmentAt_cons_cons]
  rfl

/-- The cell has the id under which it is looked up exactly when the texts agree. -/
theorem assignedId_eq_lookupId_iff (s : ShownCoverage) :
    s.assignedId = some (lookupId s.record s.header) ↔
      IdsAgree s.departmentName (shown (s.record.text .groupTitle))
        (shown (s.record.text .benDesc)) (shown (s.record.text .benShrtNm)) := by
  rw [assignedId_eq, Option.some_inj]
  exact id_eq_iff s.departmentName_of_title _ _ s.header

/-- A coverage whose description has parentheses, in a table without departments. -/
def basicLife : ShownCoverage where
  record := Row.of [(.benDesc, ⟨"Life (Basic)".toList, 0⟩), (.benShrtNm, ⟨"LIFE".toList, 0⟩)]
  headers := ["Coverage Description".toList, "Lives".toList]
  top := [[], []]
  before := []
  others := ["5".toList]
  after := []
  bottom := [[], []]
  column := 1
  header := "Lives".toList
  top_length := rfl
  bottom_length := rfl
  others_ne := List.cons_ne_nil _ _
  before_fits := List.forall_mem_nil _
  column_le := Nat.le_refl 1
  headers_column := rfl
  department := List.forall_mem_nil _

/-- Its cell gets the id `Basic (LIFE Lives`, but is looked up as `LIFE Lives`. -/
theorem assignedId_basicLife :
    basicLife.assignedId = some "Basic (LIFE Lives".toList ∧
      basicLife.assignedId ≠ some (lookupId basicLife.record basicLife.header) := by
  decide +kernel

end ShownCoverage

end OaBills
