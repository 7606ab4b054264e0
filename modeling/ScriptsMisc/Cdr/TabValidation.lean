import ScriptsMisc.Browser.Highlighting
import ScriptsMisc.Cdr.FieldIds
import ScriptsMisc.Cdr.Fields
import ScriptsMisc.Lib.Tours
import ScriptsMisc.Vbs.Variant

/-! # Validating the tabs

The functions of `cdr_functions(2012-07-05).qfl` that walk through the benefits of a coverage and
compare every field of its tab with a column of the recordset of the benefit.

The application in the browser, the object repository and the database are not part of the library.
The application has a state of its own, and whatever the library does to the document may change
that state and the elements in any way; a click may miss its tab, a policy may show other benefits
than the one before, and what `fixHtmlIDs` did may be undone. The queries give the same rows
throughout a test, and a run error ends it. The pop-ups with the expected values are left out.
-/

namespace Cdr

open CamelCase Tours
open Vbs (shown)

variable {σ κ : Type}

/-! ## What the functions read -/

/-- A row of a recordset: its columns in order, each null or with its text. -/
structure Row where
  columns : List (Str × Option Str)

/-- `rs(col)`; there is an error where the recordset has no such column. -/
def Row.item (r : Row) (col : Str) : Option (Option Str) := r.columns.lookup col

/-- `rs(i)`. -/
def Row.itemAt (r : Row) (i : ℕ) : Option (Option Str) := (r.columns[i]?).map Prod.snd

/-- The document in the browser: the state of its application, and its elements. -/
structure Document (σ : Type) where
  app : σ
  page : Page

/-- What is outside of the library: `CStr(CDate(s))`, the stored queries and their rows, the text
and the cell that an id leads to, and what becomes of the document when a policy is searched, a tab
is clicked, the benefits of the selected tab are counted, one of them is selected, or the
application is waited for. -/
structure Env (σ κ : Type) where
  cDate : Str → Option Str
  sqlFile : Str → Option Str
  query : Str → Option (List Row)
  innertext : Page → Str → Option Str
  parentNode : Page → Str → Option κ
  search : Str → Document σ → Document σ
  click : Str → Document σ → Document σ
  itemsCount : Str → Document σ → Option (ℕ × Document σ)
  select : Str → ℕ → Document σ → Str × Document σ
  load : Document σ → Document σ

/-- A call of `writeResults`. -/
structure Result where
  pass : Bool
  step : Str
  details : Str
deriving DecidableEq, Repr

/-! ## Where the browser is -/

/-- The globals `global_pol_no`, `global_bntp_key` and `global_tab_selected`, and the document. -/
structure Place (σ : Type) where
  polNo : Option Str
  bntpKey : Option Str
  selected : Str
  document : Document σ

namespace Place

/-- `viewCDR(policyNo)`. -/
def viewCDR (env : Env σ κ) (policyNo : Str) (p : Place σ) : Place σ :=
  { p with
    polNo := some policyNo, document := env.search policyNo p.document
    selected := "Policy".toList }

/-- `clickTab(coverageName)` clicks the tab only if it is not selected, and takes it for selected
whether or not there is such a tab. -/
def clickTab (env : Env σ κ) (coverageName : Str) (p : Place σ) : Place σ :=
  let p := if p.selected ≠ coverageName then
    { p with document := env.click coverageName p.document } else p
  { p with selected := coverageName }

/-- `getNumBenefits()`; there is an error where no list box is found. -/
def getNumBenefits (env : Env σ κ) (p : Place σ) : Option (ℕ × Place σ) :=
  (env.itemsCount p.selected p.document).map fun x => (x.1, { p with document := x.2 })

/-- `selectBenefit(pol_no, eff_dt, index)`, which makes no use of the policy and the date. -/
def selectBenefit (env : Env σ κ) (index : ℕ) (p : Place σ) : Place σ :=
  let (key, document) := env.select p.selected index p.document
  { p with bntpKey := some key, document }

/-- `fixHtmlIDs(coverageName)`. -/
def fixHtmlIDs (coverageName : Str) (p : Place σ) : Place σ :=
  { p with
    document := { p.document with page := Cdr.fixHtmlIDs coverageName p.document.page } }

/-- `waitLoad()`. -/
def waitLoad (env : Env σ κ) (p : Place σ) : Place σ :=
  { p with document := env.load p.document }

end Place

/-- The place, what was reported, and what was done to the cells of the document. -/
structure Session (σ κ : Type) extends Place σ where
  log : List Result
  steps : List (Browser.Step κ)

/-- The session when the library is loaded. -/
def Session.start (document : Document σ) : Session σ κ :=
  ⟨⟨none, none, [], document⟩, [], []⟩

/-- `quoted(str)`. -/
def quoted (str : Str) : Str := '"' :: str ++ ['"']

def Session.goto (s : Session σ κ) (p : Place σ) : Session σ κ := { s with toPlace := p }

def Session.writeResults (s : Session σ κ) (r : Result) : Session σ κ :=
  { s with log := s.log ++ [r] }

/-- Colour and mark the parent node of the element with an id; without one the script ends. -/
def Session.validateCell (env : Env σ κ) (s : Session σ κ) (x : Str) (colour : Browser.Colour) :
    Session σ κ :=
  match env.parentNode s.document.page x with
  | some cell => { s with steps := s.steps ++ [.validateCell cell colour] }
  | none => s

def Session.clearValidationHilighting (s : Session σ κ) : Session σ κ :=
  { s with steps := s.steps ++ [.clearValidationHilighting] }

def clickTab (env : Env σ κ) (coverageName : Str) (s : Session σ κ) : Session σ κ :=
  s.clearValidationHilighting.goto (s.toPlace.clickTab env coverageName)

/-- The browser goes to a new document, where nothing is highlighted. -/
def viewCDR (env : Env σ κ) (policyNo : Str) (s : Session σ κ) : Session σ κ :=
  { s.goto (s.toPlace.viewCDR env policyNo) with steps := [] }

def selectBenefit (env : Env σ κ) (index : ℕ) (s : Session σ κ) : Session σ κ :=
  s.clearValidationHilighting.goto (s.toPlace.selectBenefit env index)

def waitLoad (env : Env σ κ) (s : Session σ κ) : Session σ κ :=
  s.goto (s.toPlace.waitLoad env)

/-! ## Fields -/

/-- `[0-9]+[\/\-][0-9]+`. -/
def shownDate : Regex.Pat :=
  .seq (.plus Char.isDigit) (.seq (.cls fun c => c == '/' || c == '-') (.plus Char.isDigit))

/-- `[0-9]+\/[0-9]+`. -/
def expectedDate : Regex.Pat :=
  .seq (.plus Char.isDigit) (.seq (.chr '/') (.plus Char.isDigit))

/-- `regExReplace(s, "\s.*", "")`. -/
def withoutTime (s : Str) : Str :=
  Regex.replaceAll (.seq (.cls Text.isSpace) (.star true (· ≠ '\n'))) (fun _ => []) s

/-- `inStr(LCase(nm), "date")`. -/
def isDate (nm : Str) : Bool := Text.contains (nm.map Char.toLower) "date".toList

/-- `fieldValue`: the text on the screen, as a date where it looks like one. -/
def fieldValue (env : Env σ κ) (page : Page) (nm tabName : Str) : Option Str := do
  let text ← env.innertext page (valueId tabName (camelCase nm))
  if isDate nm && Regex.search shownDate text then env.cDate (withoutTime text) else return text

/-- `expectedValue`: the text of the column, as a date where it looks like one. -/
def expectedValue (env : Env σ κ) (row : Row) (nm col : Str) : Option Str := do
  -- null is not different from the empty text
  let text := shown (← row.item col)
  if isDate nm && Regex.search expectedDate text then env.cDate text else return text

/-- `expectedValue` of `validateEOI`. -/
def expectedEOI (row : Row) : Option Str := do
  let amt ← row.item "OVRD_FC_AMT".toList
  let reason ← row.item "OVRD_FC_REAS_CD".toList
  return if amt = some "-1".toList ∧ reason = some "01".toList then "Yes".toList else "No".toList

/-- What is reported about a field with these two values. -/
def fieldResult (polNo benefit : Option Str) (nm tabName fieldValue expectedValue : Str) :
    Result where
  pass := expectedValue = fieldValue
  step := shown polNo ++ ": ".toList ++ tabName ++ " - ".toList ++ shown benefit ++
    " - ".toList ++ nm
  details :=
    if expectedValue = fieldValue then
      "On-screen and expected values match, ".toList ++ quoted expectedValue
    else
      "On screen:\t".toList ++ quoted fieldValue ++ "\rExpected: \t".toList ++ quoted expectedValue

/-- The part that `validateField` and `validateEOI` share: the title becomes green, the result is
written, and the value becomes green or red. -/
def report (env : Env σ κ) (title value nm tabName fieldValue expectedValue : Str)
    (benefit : Option Str) (s : Session σ κ) : Session σ κ :=
  let s := s.validateCell env title .green
  let s := s.writeResults (fieldResult s.polNo benefit nm tabName fieldValue expectedValue)
  s.validateCell env value (if expectedValue = fieldValue then .green else .red)

/-- `validateField(nm, col, tabName)`; reading a recordset at its end is an error. -/
def validateField (env : Env σ κ) (rs : List Row) (nm col tabName : Str) (s : Session σ κ) :
    Option (Session σ κ) := do
  let fieldValue ← fieldValue env s.document.page nm tabName
  let row ← rs.head?
  let expectedValue ← expectedValue env row nm col
  let benefit ← row.itemAt 5
  return report env (titleId tabName (camelCase nm)) (valueId tabName (camelCase nm)) nm tabName
    fieldValue expectedValue benefit s

/-- `validateEOI`. -/
def validateEOI (env : Env σ κ) (rs : List Row) (s : Session σ κ) : Option (Session σ κ) := do
  let row ← rs.head?
  let expectedValue ← expectedEOI row
  let fieldValue ← env.innertext s.document.page "VALUE_Cancer_eoi".toList
  let benefit ← row.itemAt 5
  return report env "TITLE_Cancer_eoi".toList "VALUE_Cancer_eoi".toList "EOI".toList
    "Cancer".toList fieldValue expectedValue benefit s

def validateItem (env : Env σ κ) (rs : List Row) (s : Session σ κ) :
    Item → Option (Session σ κ)
  | .field nm col tabName => validateField env rs nm col tabName s
  | .eoi => validateEOI env rs s

/-! ## Tabs -/

/-- `replace(query, find, replacement)`. -/
def replace (query : Str) (find : String) (replacement : Str) : Str :=
  Regex.replaceAll (.lit find.toList) (fun _ => replacement) query

/-- The text of the query of a coverage. -/
def coverageQuery (sql policy_no req_date bntp_key : Str) : Str :=
  let query := replace sql "N_RQST_DT_IN" ('\'' :: req_date ++ ['\''])
  let query := replace query "N_POLICY_NO_IN" policy_no
  replace query "N_BNTP_KEY_IN" bntp_key

/-- `getCoverage(policy_no, req_date, coverage, bntp_key)`. -/
def getCoverage (env : Env σ κ) (policy_no req_date coverage bntp_key : Str) :
    Option (List Row) := do
  let sql ← env.sqlFile coverage
  env.query (coverageQuery sql policy_no req_date bntp_key)

/-- A number as text. -/
def numberText (n : ℕ) : Str := Nat.toDigits 10 n

/-- What is reported about a benefit without rows. -/
def noRows (polNo : Option Str) (tab_nm : Str) (benCount : ℕ) (bntp_key : Str) : Result where
  pass := false
  step := shown polNo ++ ": ".toList ++ tab_nm ++ "- Select Benefit #".toList ++
    numberText benCount
  details := "No rows returned for benefit #".toList ++ numberText benCount ++
    ", bntp_key = ".toList ++ bntp_key

/-- A round of the loop of `validateCoverage`. -/
def validateBenefit (env : Env σ κ) (pol_no eff_dt tab_nm : Str) (s : Session σ κ)
    (benCount : ℕ) : Option (Session σ κ) := do
  let s := selectBenefit env benCount s
  let benCount := benCount + 1
  let rs ← getCoverage env pol_no eff_dt tab_nm (shown s.bntpKey)
  if rs.isEmpty then
    return s.writeResults (noRows s.polNo tab_nm benCount (shown s.bntpKey))
  else
    (validateCovrTab tab_nm).foldlM (validateItem env rs) (waitLoad env s)

/-- `validateCoverage(pol_no, eff_dt, tab_nm, html_id_pref)`. -/
def validateCoverage (env : Env σ κ) (pol_no eff_dt tab_nm html_id_pref : Str)
    (s : Session σ κ) : Option (Session σ κ) := do
  let s := clickTab env tab_nm s
  let (numBenefits, p) ← s.toPlace.getNumBenefits env
  let s := s.goto (p.fixHtmlIDs html_id_pref)
  (List.range numBenefits).foldlM (validateBenefit env pol_no eff_dt tab_nm) s

/-- The name of the tab of a coverage. -/
def Coverage.tabName : Coverage → Str
  | .accident => "Accident".toList
  | .cib => "Critical Illness".toList
  | .cancer => "Cancer".toList
  | .gap => "Gap".toList

/-- `getPolicy(policy_no)`: the key of the case first, then all rows of the policy. -/
def getPolicy (env : Env σ κ) (policy_no : Str) : Option (List Row) := do
  let tempRs ← env.query
    ("select * from case_data where cont_no = '".toList ++ policy_no ++ "';".toList)
  let case_key := shown (← (← tempRs.head?).item "CASE_KEY".toList)
  env.query ("select * from SCY901_BEN_POL, SCY909_BEN_CASD where ".toList ++
    "scy901_ben_pol.case_key = ".toList ++ case_key ++ " and scy909_ben_casd.case_key = ".toList ++
    case_key ++ ";".toList)

/-- `validatePolicy(pol_no)`. -/
def validatePolicy (env : Env σ κ) (pol_no : Str) (s : Session σ κ) : Option (Session σ κ) := do
  let s := clickTab env "Policy".toList s
  let rs ← getPolicy env pol_no
  validatePolicyFields.foldlM (validateItem env rs) (waitLoad env s)

/-- The calls a test makes: `viewCDR`, `validatePolicy`, and one of `validateAccident`,
`validateCib`, `validateCancer` and `validateGap`. -/
inductive Call where
  | viewCDR (policyNo : Str)
  | validateCoverage (cov : Coverage) (pol_no eff_dt : Str)
  | validatePolicy (pol_no : Str)

def runCall (env : Env σ κ) (s : Session σ κ) : Call → Option (Session σ κ)
  | .viewCDR policyNo => some (viewCDR env policyNo s)
  | .validateCoverage cov pol_no eff_dt =>
    validateCoverage env pol_no eff_dt cov.tabName cov.htmlIdPref s
  | .validatePolicy pol_no => validatePolicy env pol_no s

/-- A test. -/
def runCalls (env : Env σ κ) (calls : List Call) (s : Session σ κ) : Option (Session σ κ) :=
  calls.foldlM (runCall env) s

/-! ## What a field is compared with -/

/-- The name of the field. -/
def Item.nm : Item → Str
  | .field nm _ _ => nm
  | .eoi => "EOI".toList

def Item.tabName : Item → Str
  | .field _ _ tabName => tabName
  | .eoi => "Cancer".toList

/-- The id of the title of the field. -/
def Item.title : Item → Str
  | .field nm _ tabName => titleId tabName (camelCase nm)
  | .eoi => "TITLE_Cancer_eoi".toList

/-- The id of the value of the field. -/
def Item.value : Item → Str
  | .field nm _ tabName => valueId tabName (camelCase nm)
  | .eoi => "VALUE_Cancer_eoi".toList

/-- The value on the screen. -/
def Item.onScreen (env : Env σ κ) (page : Page) : Item → Option Str
  | .field nm _ tabName => fieldValue env page nm tabName
  | .eoi => env.innertext page "VALUE_Cancer_eoi".toList

def Item.expected (env : Env σ κ) (row : Row) : Item → Option Str
  | .field nm col _ => expectedValue env row nm col
  | .eoi => expectedEOI row

/-- What is reported about the field, if both values can be had. -/
def Item.result (env : Env σ κ) (page : Page) (row : Row) (polNo : Option Str) (item : Item) :
    Option Result := do
  let onScreen ← item.onScreen env page
  let expected ← item.expected env row
  let benefit ← row.itemAt 5
  return fieldResult polNo benefit item.nm item.tabName onScreen expected

/-- Report a result about a field and highlight its cells. -/
def Session.highlight (env : Env σ κ) (s : Session σ κ) (item : Item) (r : Result) :
    Session σ κ :=
  ((s.validateCell env item.title .green).writeResults r).validateCell env item.value
    (if r.pass then .green else .red)

section Session

variable (env : Env σ κ) (s : Session σ κ)

@[simp] theorem validateCell_toPlace (x : Str) (colour : Browser.Colour) :
    (s.validateCell env x colour).toPlace = s.toPlace := by
  rw [Session.validateCell]
  split <;> rfl

@[simp] theorem validateCell_log (x : Str) (colour : Browser.Colour) :
    (s.validateCell env x colour).log = s.log := by
  rw [Session.validateCell]
  split <;> rfl

@[simp] theorem writeResults_toPlace (r : Result) : (s.writeResults r).toPlace = s.toPlace := rfl

@[simp] theorem writeResults_log (r : Result) : (s.writeResults r).log = s.log ++ [r] := rfl

@[simp] theorem highlight_toPlace (item : Item) (r : Result) :
    (s.highlight env item r).toPlace = s.toPlace := by
  simp [Session.highlight]

@[simp] theorem highlight_log (item : Item) (r : Result) :
    (s.highlight env item r).log = s.log ++ [r] := by
  simp [Session.highlight]

end Session

/-- What the two kinds of fields share is the highlighting of a result. -/
theorem report_eq (env : Env σ κ) (item : Item) (onScreen expected : Str) (benefit : Option Str)
    (s : Session σ κ) :
    report env item.title item.value item.nm item.tabName onScreen expected benefit s =
      s.highlight env item
        (fieldResult s.polNo benefit item.nm item.tabName onScreen expected) := by
  rw [report, Session.highlight, validateCell_toPlace]
  congr 1
  rw [fieldResult]
  split
  · next h => rw [if_pos (decide_eq_true h)]
  · next h => rw [if_neg (by simpa using h)]

/-- A field is compared with the first row. -/
theorem validateItem_cons (env : Env σ κ) (row : Row) (rows : List Row) (s : Session σ κ)
    (item : Item) :
    validateItem env (row :: rows) s item =
      (item.result env s.document.page row s.polNo).map (s.highlight env item) := by
  cases item with
  | field nm col tabName =>
    show ((fieldValue env s.document.page nm tabName).bind fun onScreen =>
      (expectedValue env row nm col).bind fun expected => (row.itemAt 5).bind fun benefit => _) =
      ((fieldValue env s.document.page nm tabName).bind fun onScreen =>
        (expectedValue env row nm col).bind fun expected =>
          (row.itemAt 5).bind fun benefit => _).map _
    cases fieldValue env s.document.page nm tabName with
    | none => rfl
    | some onScreen =>
      cases expectedValue env row nm col with
      | none => rfl
      | some expected =>
        cases row.itemAt 5 with
        | none => rfl
        | some benefit =>
          exact congrArg some (report_eq env (.field nm col tabName) onScreen expected benefit s)
  | eoi =>
    show ((expectedEOI row).bind fun expected =>
      (env.innertext s.document.page "VALUE_Cancer_eoi".toList).bind fun onScreen =>
        (row.itemAt 5).bind fun benefit => _) =
      ((env.innertext s.document.page "VALUE_Cancer_eoi".toList).bind fun onScreen =>
        (expectedEOI row).bind fun expected => (row.itemAt 5).bind fun benefit => _).map _
    cases env.innertext s.document.page "VALUE_Cancer_eoi".toList with
    | none => cases expectedEOI row <;> rfl
    | some onScreen =>
      cases expectedEOI row with
      | none => rfl
      | some expected =>
        cases row.itemAt 5 with
        | none => rfl
        | some benefit => exact congrArg some (report_eq env .eoi onScreen expected benefit s)

/-- At its end a recordset cannot be read. -/
theorem validateItem_nil (env : Env σ κ) (s : Session σ κ) (item : Item) :
    validateItem env [] s item = none := by
  cases item with
  | field nm col tabName =>
    show ((fieldValue env s.document.page nm tabName).bind fun _ => none) = none
    exact Option.bind_fun_none _
  | eoi => rfl

/-- A query without rows ends the script at the first field. -/
theorem validateItems_nil {env : Env σ κ} {s : Session σ κ} {items : List Item}
    (h : items ≠ []) : items.foldlM (validateItem env []) s = none := by
  cases items with
  | nil => exact absurd rfl h
  | cons item items =>
    rw [List.foldlM_cons, validateItem_nil, Option.bind_eq_bind, Option.bind_none]

/-- The tab of the policy has fields. -/
theorem validatePolicyFields_ne_nil : validatePolicyFields ≠ [] := List.cons_ne_nil _ _

/-- The state after these fields got these results. -/
def Session.highlights (env : Env σ κ) (s : Session σ κ) (checked : List (Item × Result)) :
    Session σ κ :=
  checked.foldl (fun s c => s.highlight env c.1 c.2) s

theorem highlights_cons (env : Env σ κ) (s : Session σ κ) (c : Item × Result)
    (checked : List (Item × Result)) :
    s.highlights env (c :: checked) = (s.highlight env c.1 c.2).highlights env checked := rfl

@[simp] theorem highlights_toPlace (env : Env σ κ) (s : Session σ κ)
    (checked : List (Item × Result)) : (s.highlights env checked).toPlace = s.toPlace := by
  induction checked generalizing s with
  | nil => rfl
  | cons c checked ih => simp [highlights_cons, ih]

@[simp] theorem highlights_log (env : Env σ κ) (s : Session σ κ)
    (checked : List (Item × Result)) :
    (s.highlights env checked).log = s.log ++ checked.map Prod.snd := by
  induction checked generalizing s with
  | nil => simp [Session.highlights]
  | cons c checked ih => simp [highlights_cons, ih]

/-- The results of fields that are all compared with one row, in order. -/
def results (env : Env σ κ) (page : Page) (row : Row) (polNo : Option Str) (items : List Item) :
    Option (List Result) :=
  items.mapM (Item.result env page row polNo)

/-- Fields one after the other. -/
theorem validateItems_cons (env : Env σ κ) (row : Row) (rows : List Row) (items : List Item)
    (s : Session σ κ) :
    items.foldlM (validateItem env (row :: rows)) s =
      (results env s.document.page row s.polNo items).map fun rs =>
        s.highlights env (items.zip rs) := by
  induction items generalizing s with
  | nil => rfl
  | cons item items ih =>
    rw [List.foldlM_cons, validateItem_cons, results, List.mapM_cons]
    cases hr : item.result env s.document.page row s.polNo with
    | none => rfl
    | some r =>
      show items.foldlM (validateItem env (row :: rows)) (s.highlight env item r) =
        ((results env s.document.page row s.polNo items).bind fun rs => some (r :: rs)).map _
      rw [ih, highlight_toPlace]
      cases results env s.document.page row s.polNo items with
      | none => rfl
      | some rs => rfl

/-- The results have the order of the fields, one for each of them. -/
theorem results_eq_some_iff {env : Env σ κ} {page : Page} {row : Row} {polNo : Option Str}
    {items : List Item} {rs : List Result} :
    results env page row polNo items = some rs ↔
      List.Forall₂ (fun item r => item.result env page row polNo = some r) items rs := by
  induction items generalizing rs with
  | nil => simp [results, eq_comm]
  | cons item items ih =>
    rw [results, List.mapM_cons, List.forall₂_cons_left_iff]
    simp only [Option.bind_eq_bind, Option.bind_eq_some_iff, Option.pure_def, Option.some.injEq]
    constructor
    · rintro ⟨r, hr, rest, hrest, rfl⟩
      exact ⟨r, rest, hr, ih.mp hrest, rfl⟩
    · rintro ⟨r, rest, hr, hrest, rfl⟩
      exact ⟨r, hr, rest, ih.mpr hrest, rfl⟩

/-- Each field has its result. -/
theorem map_snd_zip {env : Env σ κ} {page : Page} {row : Row} {polNo : Option Str}
    {items : List Item} {rs : List Result} (h : results env page row polNo items = some rs) :
    (items.zip rs).map Prod.snd = rs :=
  List.map_snd_zip (results_eq_some_iff.mp h).length_eq.ge

/-! ## The tour of a test -/

/-- What a test visits: the fields of a tab as the page shows them, to be compared with a row, or a
benefit without rows. -/
inductive Visit where
  | fields (polNo : Option Str) (page : Page) (row : Row) (items : List Item)
  | noRows (polNo : Option Str) (tab_nm : Str) (benCount : ℕ) (bntp_key : Str)

/-- What is reported about a visit. -/
def Visit.results (env : Env σ κ) : Visit → Option (List Result)
  | .fields polNo page row items => Cdr.results env page row polNo items
  | .noRows polNo tab_nm benCount bntp_key => some [Cdr.noRows polNo tab_nm benCount bntp_key]

/-- The fields at a place. -/
def Place.fields (row : Row) (items : List Item) (p : Place σ) : Visit :=
  .fields p.polNo p.document.page row items

/-- A benefit is selected, and where it has rows its tab is waited for. -/
def benefitTour (env : Env σ κ) (pol_no eff_dt tab_nm : Str) (benCount : ℕ) :
    Tour (Place σ) Visit := fun p =>
  let p := p.selectBenefit env benCount
  (getCoverage env pol_no eff_dt tab_nm (shown p.bntpKey)).bind fun
    | [] => some ([.noRows p.polNo tab_nm (benCount + 1) (shown p.bntpKey)], p)
    | row :: _ =>
      some ([(p.waitLoad env).fields row (validateCovrTab tab_nm)], p.waitLoad env)

/-- All benefits of a tab in the order of its list box. -/
def coverageTour (env : Env σ κ) (pol_no eff_dt tab_nm html_id_pref : Str) :
    Tour (Place σ) Visit := fun p =>
  ((p.clickTab env tab_nm).getNumBenefits env).bind fun x =>
    Tour.each (benefitTour env pol_no eff_dt tab_nm) (List.range x.1)
      (x.2.fixHtmlIDs html_id_pref)

def policyTour (env : Env σ κ) (pol_no : Str) : Tour (Place σ) Visit := fun p =>
  let p := (p.clickTab env "Policy".toList).waitLoad env
  (getPolicy env pol_no).bind fun
    | [] => none
    | row :: _ => some ([p.fields row validatePolicyFields], p)

def callTour (env : Env σ κ) : Call → Tour (Place σ) Visit
  | .viewCDR policyNo => fun p => some ([], p.viewCDR env policyNo)
  | .validateCoverage cov pol_no eff_dt =>
    coverageTour env pol_no eff_dt cov.tabName cov.htmlIdPref
  | .validatePolicy pol_no => policyTour env pol_no

/-- Where a test goes and what it visits. -/
def testTour (env : Env σ κ) (calls : List Call) : Tour (Place σ) Visit :=
  Tour.each (callTour env) calls

def recorder : Recorder (Session σ κ) (Place σ) Result := ⟨Session.toPlace, Session.log⟩

/-- The fields of a tab are one visit. -/
theorem follows_fields (env : Env σ κ) (row : Row) (rows : List Row) (items : List Item) :
    Follows recorder (Visit.results env)
      (fun s : Session σ κ => items.foldlM (validateItem env (row :: rows)) s)
      (fun p => some ([p.fields row items], p)) := by
  refine follows_visit (v := Place.fields row items) fun s => ?_
  rw [validateItems_cons, Option.map_map]
  refine Option.map_congr fun rs hrs => ?_
  simp [recorder, map_snd_zip hrs]

/-- A benefit is visited once it is selected. -/
theorem follows_benefit (env : Env σ κ) (pol_no eff_dt tab_nm : Str) (benCount : ℕ) :
    Follows recorder (Visit.results env)
      (fun s : Session σ κ => validateBenefit env pol_no eff_dt tab_nm s benCount)
      (benefitTour env pol_no eff_dt tab_nm benCount) := by
  have hrows : ∀ rs : List Row, Follows recorder (Visit.results env)
      (fun s : Session σ κ =>
        if rs.isEmpty then
          some (s.writeResults (noRows s.polNo tab_nm (benCount + 1) (shown s.bntpKey)))
        else (validateCovrTab tab_nm).foldlM (validateItem env rs) (waitLoad env s))
      (fun p => match rs with
        | [] => some ([.noRows p.polNo tab_nm (benCount + 1) (shown p.bntpKey)], p)
        | row :: _ =>
          some ([(p.waitLoad env).fields row (validateCovrTab tab_nm)], p.waitLoad env)) := by
    intro rs
    cases rs with
    | nil => exact follows_visit fun s => rfl
    | cons row rows =>
      exact (follows_fields env row rows (validateCovrTab tab_nm)).after (m := waitLoad env)
        (h := Place.waitLoad env) (fun _ => rfl) fun _ => rfl
  have hvalue := Follows.value (o := fun p : Place σ =>
    getCoverage env pol_no eff_dt tab_nm (shown p.bntpKey)) hrows
  exact hvalue.after (m := selectBenefit env benCount) (h := Place.selectBenefit env benCount)
    (fun _ => rfl) fun _ => rfl

/-- The benefits of a coverage are visited in their order. -/
theorem follows_coverage (env : Env σ κ) (pol_no eff_dt tab_nm html_id_pref : Str) :
    Follows recorder (Visit.results env)
      (validateCoverage (κ := κ) env pol_no eff_dt tab_nm html_id_pref)
      (coverageTour env pol_no eff_dt tab_nm html_id_pref) := by
  have hloop : ∀ x : ℕ × Place σ, Follows recorder (Visit.results env)
      (fun s : Session σ κ => (List.range x.1).foldlM (validateBenefit env pol_no eff_dt tab_nm)
        (s.goto (x.2.fixHtmlIDs html_id_pref)))
      (fun _ => Tour.each (benefitTour env pol_no eff_dt tab_nm) (List.range x.1)
        (x.2.fixHtmlIDs html_id_pref)) := fun x =>
    (Follows.each (follows_benefit env pol_no eff_dt tab_nm) (List.range x.1)).after
      (m := fun s => s.goto (x.2.fixHtmlIDs html_id_pref))
      (h := fun _ => x.2.fixHtmlIDs html_id_pref) (fun _ => rfl) fun _ => rfl
  have hvalue := Follows.value (o := Place.getNumBenefits env) hloop
  exact hvalue.after (m := clickTab env tab_nm) (h := Place.clickTab env tab_nm)
    (fun _ => rfl) fun _ => rfl

theorem follows_policy (env : Env σ κ) (pol_no : Str) :
    Follows recorder (Visit.results env) (validatePolicy (κ := κ) env pol_no)
      (policyTour env pol_no) := by
  have hrows : ∀ rs : List Row, Follows recorder (Visit.results env)
      (fun s : Session σ κ => validatePolicyFields.foldlM (validateItem env rs) s)
      (fun p => match rs with
        | [] => none
        | row :: _ => some ([p.fields row validatePolicyFields], p)) := by
    intro rs
    cases rs with
    | nil =>
      -- the first field already reads a recordset without rows
      intro s
      dsimp only
      rw [validateItems_nil validatePolicyFields_ne_nil]
      rfl
    | cons row rows => exact follows_fields env row rows validatePolicyFields
  have hvalue := Follows.value (o := fun _ : Place σ => getPolicy env pol_no) hrows
  exact hvalue.after (m := fun s => waitLoad env (clickTab env "Policy".toList s))
    (h := fun p => (p.clickTab env "Policy".toList).waitLoad env) (fun _ => rfl) fun _ => rfl

/-- A test follows its tour. -/
theorem follows_runCalls (env : Env σ κ) (calls : List Call) :
    Follows recorder (Visit.results env) (runCalls (κ := κ) env calls) (testTour env calls) := by
  refine Follows.each (fun call => ?_) calls
  cases call with
  | viewCDR policyNo =>
    exact follows_stay.after (m := viewCDR env policyNo) (h := Place.viewCDR env policyNo)
      (fun _ => rfl) fun _ => rfl
  | validateCoverage cov pol_no eff_dt => exact follows_coverage env pol_no eff_dt _ _
  | validatePolicy pol_no => exact follows_policy env pol_no

/-! ## The verdict -/

/-- Some result says that something failed. -/
def Session.failed (s : Session σ κ) : Bool := s.log.any fun r => !r.pass

/-- The field shows what the column holds. -/
def Item.Agrees (env : Env σ κ) (page : Page) (row : Row) (item : Item) : Prop :=
  ∃ text, item.onScreen env page = some text ∧ item.expected env row = some text ∧
    row.itemAt 5 ≠ none

/-- There are rows, and every field shows what its column of the first row holds. -/
def Visit.Agrees (env : Env σ κ) : Visit → Prop
  | .fields _ page row items => ∀ item ∈ items, item.Agrees env page row
  | .noRows _ _ _ _ => False

/-- A result says pass exactly when the field agrees. -/
theorem result_pass_iff {env : Env σ κ} {page : Page} {row : Row} (polNo : Option Str)
    {item : Item} :
    (∃ r, item.result env page row polNo = some r ∧ r.pass = true) ↔
      item.Agrees env page row := by
  simp only [Item.result, Option.bind_eq_bind, Option.bind_eq_some_iff, Option.pure_def,
    Option.some.injEq]
  constructor
  · rintro ⟨_, ⟨onScreen, hscreen, expected, hexpected, benefit, hbenefit, rfl⟩, hpass⟩
    obtain rfl : expected = onScreen := of_decide_eq_true hpass
    exact ⟨expected, hscreen, hexpected, by simp [hbenefit]⟩
  · rintro ⟨text, hscreen, hexpected, hbenefit⟩
    obtain ⟨benefit, hbenefit⟩ := Option.ne_none_iff_exists'.mp hbenefit
    exact ⟨_, ⟨text, hscreen, text, hexpected, benefit, hbenefit, rfl⟩, decide_eq_true rfl⟩

/-- What is reported about a visit is all pass exactly when it agrees. -/
theorem visit_pass_iff (env : Env σ κ) (v : Visit) :
    (∃ rs, v.results env = some rs ∧ ∀ r ∈ rs, r.pass = true) ↔ v.Agrees env := by
  cases v with
  | noRows polNo tab_nm benCount bntp_key =>
    refine iff_of_false ?_ id
    rintro ⟨_, hrs, hpass⟩
    obtain rfl := Option.some.inj hrs
    exact Bool.false_ne_true (hpass _ List.mem_cons_self)
  | fields polNo page row items =>
    simp only [Visit.results, Visit.Agrees, results_eq_some_iff, ← result_pass_iff polNo]
    induction items with
    | nil => simp
    | cons item items ih =>
      rw [List.forall_mem_cons, ← ih]
      constructor
      · rintro ⟨_, hrs, hpass⟩
        obtain ⟨r, rs, hr, hrest, rfl⟩ := List.forall₂_cons_left_iff.mp hrs
        rw [List.forall_mem_cons] at hpass
        exact ⟨⟨r, hr, hpass.1⟩, rs, hrest, hpass.2⟩
      · rintro ⟨⟨r, hr, hpass⟩, rs, hrest, hpasses⟩
        exact ⟨r :: rs, .cons hr hrest, List.forall_mem_cons.mpr ⟨hpass, hpasses⟩⟩

/-- A session has not failed when every result passes. -/
theorem failed_eq_false_iff (s : Session σ κ) :
    s.failed = false ↔ ∀ r ∈ s.log, r.pass = true := by
  simp [Session.failed]

/-- A test ends without a run error and without a failed result exactly when nothing failed before,
its tour comes to an end, and at every visit there are rows and every field shows what its column
holds. -/
theorem runCalls_passes_iff (env : Env σ κ) (calls : List Call) (s : Session σ κ) :
    (∃ s', runCalls env calls s = some s' ∧ s'.failed = false) ↔
      s.failed = false ∧ ∃ visits p, testTour env calls s.toPlace = some (visits, p) ∧
        ∀ v ∈ visits, v.Agrees env := by
  simp only [failed_eq_false_iff, ← visit_pass_iff]
  exact (follows_runCalls env calls).good_iff (fun r => r.pass = true) s

/-- A test ends where its tour does, and has reported about the visits in their order: one result
for each field in the order of the fields, or one that says that a benefit has no rows. It ends in a
run error exactly when the tour does or a visit has no results. -/
theorem runCalls_reported (env : Env σ κ) (calls : List Call) (s : Session σ κ) :
    (runCalls env calls s).map (fun s' => (s'.toPlace, s'.log)) =
      (testTour env calls s.toPlace).bind fun x =>
        (Reports.collect (Visit.results env) x.1).map fun lines => (x.2, s.log ++ lines) :=
  follows_runCalls env calls s

end Cdr
