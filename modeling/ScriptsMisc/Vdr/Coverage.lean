import ScriptsMisc.Vdr.Worksheet

/-! # Coverages and their columns

How `vdr-compare-html-xls.vbs` finds the columns of the XLS sheet that belong to a coverage of the
HTML sheet: a dispatch on the text of the coverage names labels, and `lookup` finds them in the
header row.
-/

namespace CompareHtmlXls

open Vbs Vdr

/-! ## The dispatch -/

/-- What a branch of the dispatch assigns: a column looked up under a label, or column 15 for the
coverage `V DLI`. -/
inductive Assign where
  | amtCol (label : Str)
  | pdCol (label : Str)
  | vDLI
deriving DecidableEq, Repr

/-- `inStr(coverage, str)` as a condition. -/
def has (coverage : Str) (str : String) : Bool := inStr coverage str.toList ≠ 0

/-- `pdCol = lookup("... Monthly Cost")`. -/
def cost (name : String) : List Assign := [.pdCol (name.toList ++ " Monthly Cost".toList)]

/-- `amtCol = lookup("... Benefit Elected")` and `pdCol = lookup("... Monthly Cost")`. -/
def elected (name : String) : List Assign :=
  .amtCol (name.toList ++ " Benefit Elected".toList) :: cost name

/-- `if ... then ... elseif ... then ...`: the assignments of the first branch that is taken. -/
def firstOf : List (Bool × List Assign) → List Assign
  | [] => []
  | (taken, assigns) :: branches => if taken then assigns else firstOf branches

/-- `if ... then` with a body that assigns a default first. -/
def whenHas (taken : Bool) (assigns : List Assign) : List Assign := if taken then assigns else []

/-- The assignments made for a coverage, in the order of the source. -/
def assignments (coverage : Str) : List Assign :=
  let has := has coverage
  firstOf [
    (has "Vol Life EE", elected "Employee Life"),
    (has "Vol ADD EE", elected "Employee AD&D"),
    (has "Vol STD", elected "Employee Short Term Disability"),
    (has "Vol LTD", elected "Employee Long Term Disability"),
    (has "Vol ADD SP", elected "Spouse AD&D"),
    (has "Vol ADD CH", elected "Child AD&D"),
    (has "Vol Life SP", elected "Spouse Life"),
    (has "Vol Life CH", elected "Child Life")] ++
  firstOf [
    (has "Vol Critical Ill EE", elected "Employee Critical Illness"),
    (has "Vol Critical Ill CH", elected "Child Critical Illness"),
    (has "Vol Critical Ill SP", elected "Spouse Critical Illness")] ++
  whenHas (has "Vol DEN EE") (cost "Employee Dental" ++ firstOf [
    (has "Vol DEN EE + 2", cost "Employee + 2 Dental"),
    (has "Vol DEN EE + 1", cost "Employee + 1 Dental"),
    (has "Vol DEN EE + SP", cost "Spouse Dental"),
    (has "Vol DEN EE + CH", cost "Child Dental"),
    (has "Vol DEN EE + Family", cost "Family Dental")]) ++
  whenHas (has "PPD DEN EE") (cost "Employee PPD" ++ firstOf [
    (has "PPD DEN EE + Family", cost "Family PPD"),
    (has "PPD DEN EE + SP", cost "Spouse PPD"),
    (has "PPD DEN EE + CH", cost "Child PPD"),
    (has "PPD DEN EE + 1", cost "Employee + 1 PPD"),
    (has "PPD DEN EE + 2", cost "Employee + 2 PPD")]) ++
  whenHas (has "Insured Vision") (cost "Employee Insured Vision" ++ firstOf [
    (has "1" || coverage == "Insured Vision Core EE + 1".toList,
      cost "Employee + 1 Insured Vision"),
    (has "2" || coverage == "Insured Vision Core EE + 2".toList,
      cost "Employee + 2 or more Insured Vision"),
    (has "Family" || coverage == "Insured Vision Core EE + Family".toList,
      cost "Family Insured Vision"),
    (has "CH" || coverage == "Insured Vision Core EE + CH".toList, cost "Child Insured Vision"),
    (has "SP", cost "Spouse Insured Vision")]) ++
  firstOf [
    (has "Vol Accident EE", cost "Employee Accident"),
    (has "Vol Accident CH", cost "Child Accident"),
    (has "Vol Accident SP DIS", cost "Spouse Accident Disability"),
    (has "Vol Accident SP", cost "Spouse Accident")] ++
  whenHas (has "Vol Cancer EE") (cost "Employee Cancer" ++
    whenHas (has "+ CH") (cost "Total Cancer") ++
    whenHas (has "+ SP") (cost "Total Cancer") ++
    whenHas (has "+ Family") (cost "Total Cancer")) ++
  whenHas (has "Vol Gap EE") (cost "Employee Gap" ++ firstOf [
    (has "Vol Gap EE + Family", cost "Family Gap"),
    (has "Vol Gap EE + SP", cost "Spouse Gap"),
    (has "Vol Gap EE + CH", cost "Child Gap")]) ++
  whenHas (has "CDC DEN EE") (cost "Employee Dental" ++ firstOf [
    (has "CDC DEN EE + Family", cost "Family Dental"),
    (has "CDC DEN EE + SP", cost "Spouse Dental"),
    (has "CDC DEN EE + CH", cost "Child Dental"),
    (has "CDC DEN EE + 1", cost "Employee + 1 Dental"),
    (has "CDC DEN EE + 2", cost "Employee + 2 Dental"),
    (has "CDC DEN Super", cost "Super Composite Dental")]) ++
  whenHas (has "V DLI") [.vDLI]

example : assignments "Vol DEN EE + 2".toList =
    cost "Employee Dental" ++ cost "Employee + 2 Dental" := by decide +kernel

/-! ## Columns -/

/-- `lookup(str)`: the last column, from column 3 on, whose header in row 5 contains `str`. When
there is none it returns `Empty`, which counts as column 0. -/
def lookup (host : Host) (xls : Sheet) (str : Str) : Option ℕ :=
  (forTo 3 xls.usedColumns).foldlM (fun lookup m => do
    let header ← host.text (xls.cell 5 m)
    return if inStr header str ≠ 0 then m else lookup) 0

/-- The variables that the dispatch sets. -/
structure Columns where
  amtCol : ℤ
  pdCol : ℕ
  vDLI : Bool
deriving DecidableEq, Repr

/-- One assignment. -/
def assign (host : Host) (xls : Sheet) (cols : Columns) : Assign → Option Columns
  | .amtCol label => (lookup host xls label).map fun m : ℕ => { cols with amtCol := (m : ℤ) }
  | .pdCol label => (lookup host xls label).map fun m => { cols with pdCol := m }
  | .vDLI => some { cols with vDLI := true, pdCol := 15 }

/-- The columns of a coverage. -/
def dispatch (host : Host) (xls : Sheet) (coverage : Str) : Option Columns :=
  (assignments coverage).foldlM (assign host xls) ⟨-1, 100, false⟩

/-- The header of column `m` contains a label. -/
def HasLabel (host : Host) (xls : Sheet) (label : Str) (m : ℕ) : Prop :=
  3 ≤ m ∧ ∃ header, host.text (xls.cell 5 m) = some header ∧ inStr header label ≠ 0

/-- Whether the header of column `m` contains a label; an error value is not compared. -/
def hits (host : Host) (xls : Sheet) (label : Str) (m : ℕ) : Option Bool :=
  (host.text (xls.cell 5 m)).map fun header => decide (inStr header label ≠ 0)

/-- A header is hit when it contains the label. -/
theorem hits_eq_true_iff {host : Host} {xls : Sheet} {label : Str} {m : ℕ} (hm : 3 ≤ m) :
    hits host xls label m = some true ↔ HasLabel host xls label m := by
  simp [hits, HasLabel, hm]

/-- The lookup keeps the last hit. -/
theorem lookup_eq (host : Host) (xls : Sheet) (str : Str) :
    lookup host xls str = (forTo 3 xls.usedColumns).foldlM
      (fun found m => (hits host xls str m).map fun hit => if hit then m else found) 0 := by
  have hstep : ∀ found m : ℕ, (do
        let header ← host.text (xls.cell 5 m)
        return if inStr header str ≠ 0 then m else found) =
      (hits host xls str m).map fun hit => if hit then m else found := by
    intro found m
    rw [hits]
    cases host.text (xls.cell 5 m) <;> simp
  rw [lookup]
  simp only [hstep]

/-- The column that is found is the last one with the label. -/
theorem lookup_eq_some_iff {host : Host} {xls : Sheet} {str : Str} {m : ℕ} (hm : m ≠ 0) :
    lookup host xls str = some m ↔
      (∀ c, 3 ≤ c → c ≤ xls.usedColumns → ∃ header, host.text (xls.cell 5 c) = some header) ∧
        HasLabel host xls str m ∧ m ≤ xls.usedColumns ∧
        ∀ c, m < c → c ≤ xls.usedColumns → ¬HasLabel host xls str c := by
  rw [lookup_eq, Verdict.foldlM_eq_some_iff, lastHit_forTo]
  have hread : (∀ c ∈ forTo 3 xls.usedColumns, (hits host xls str c).isSome = true) ↔
      ∀ c, 3 ≤ c → c ≤ xls.usedColumns → ∃ header, host.text (xls.cell 5 c) = some header := by
    simp [mem_forTo, hits, Option.isSome_iff_exists]
  rw [hread]
  refine and_congr_right fun hread => ?_
  have hnot : ∀ c, 3 ≤ c → c ≤ xls.usedColumns →
      (hits host xls str c = some false ↔ ¬HasLabel host xls str c) := by
    intro c hc hle
    obtain ⟨header, hheader⟩ := hread c hc hle
    rw [← hits_eq_true_iff hc, hits, hheader]
    simp
  constructor
  · rintro (⟨⟨hfirst, hlast⟩, hhit, hlater⟩ | ⟨rfl, -⟩)
    · exact ⟨(hits_eq_true_iff hfirst).mp hhit, hlast, fun c hlt hle =>
        (hnot c (by omega) hle).mp (hlater c hlt hle)⟩
    · exact absurd rfl hm
  · rintro ⟨hhas, hlast, hlater⟩
    exact .inl ⟨⟨hhas.1, hlast⟩, (hits_eq_true_iff hhas.1).mpr hhas, fun c hlt hle =>
      (hnot c (by have := hhas.1; omega) hle).mpr (hlater c hlt hle)⟩

/-! ## Labels -/

/-- Where the payroll deduction of a coverage stands. -/
inductive Deduction where
  | label (label : Str)
  | column15
deriving DecidableEq, Repr

/-- The labels under which a coverage is to be found: of its benefit amount, if it has one, and of
its payroll deduction. -/
structure Labels where
  amount : Option Str
  deduction : Option Deduction
  vDLI : Bool
deriving DecidableEq, Repr

def Labels.assign (labels : Labels) : Assign → Labels
  | .amtCol label => { labels with amount := some label }
  | .pdCol label => { labels with deduction := some (.label label) }
  | .vDLI => { labels with deduction := some .column15, vDLI := true }

/-- The labels of a coverage; a later assignment overrides an earlier one. -/
def labelsOf (coverage : Str) : Labels :=
  (assignments coverage).foldl Labels.assign ⟨none, none, false⟩

/-- The columns that `lookup` finds for labels. -/
structure Resolves (host : Host) (xls : Sheet) (labels : Labels) (cols : Columns) : Prop where
  vDLI : cols.vDLI = labels.vDLI
  amount_none : labels.amount = none → cols.amtCol = -1
  amount_some : ∀ label, labels.amount = some label →
    ∃ m : ℕ, lookup host xls label = some m ∧ cols.amtCol = m
  deduction_label : ∀ label, labels.deduction = some (.label label) →
    lookup host xls label = some cols.pdCol
  deduction_column15 : labels.deduction = some .column15 → cols.pdCol = 15

/-- An assignment to a column is one to its label. -/
theorem Resolves.assign {host : Host} {xls : Sheet} {labels : Labels} {cols cols' : Columns}
    (h : Resolves host xls labels cols) {a : Assign}
    (hassign : assign host xls cols a = some cols') :
    Resolves host xls (labels.assign a) cols' := by
  cases a with
  | amtCol label =>
    obtain ⟨m, hlookup, rfl⟩ := Option.map_eq_some_iff.mp hassign
    refine ⟨h.vDLI, fun hnone => absurd hnone (by simp [Labels.assign]), fun label' hlabel => ?_,
      h.deduction_label, h.deduction_column15⟩
    obtain rfl := Option.some.inj hlabel
    exact ⟨m, hlookup, rfl⟩
  | pdCol label =>
    obtain ⟨m, hlookup, rfl⟩ := Option.map_eq_some_iff.mp hassign
    refine ⟨h.vDLI, h.amount_none, h.amount_some, fun label' hlabel => ?_,
      fun hcolumn => absurd hcolumn (by simp [Labels.assign])⟩
    obtain rfl := Deduction.label.inj (Option.some.inj hlabel)
    exact hlookup
  | vDLI =>
    obtain rfl := Option.some.inj hassign
    exact ⟨rfl, h.amount_none, h.amount_some,
      fun label hlabel => absurd hlabel (by simp [Labels.assign]), fun _ => rfl⟩

/-- The dispatch looks up the labels of the coverage. -/
theorem dispatch_resolves {host : Host} {xls : Sheet} {coverage : Str} {cols : Columns}
    (h : dispatch host xls coverage = some cols) :
    Resolves host xls (labelsOf coverage) cols := by
  have hfold : ∀ (assigns : List Assign) (labels : Labels) (cols cols' : Columns),
      Resolves host xls labels cols → assigns.foldlM (assign host xls) cols = some cols' →
      Resolves host xls (assigns.foldl Labels.assign labels) cols' := by
    intro assigns
    induction assigns with
    | nil =>
      intro labels cols cols' hr hfold
      obtain rfl := Option.some.inj hfold
      exact hr
    | cons a assigns ih =>
      intro labels cols cols' hr hfold
      rw [List.foldlM_cons] at hfold
      obtain ⟨cols₁, hstep, hrest⟩ := Option.bind_eq_some_iff.mp hfold
      exact ih _ cols₁ cols' (hr.assign hstep) hrest
  refine hfold _ _ _ cols ⟨rfl, fun _ => rfl, fun label hlabel => ?_, fun label hlabel => ?_,
    fun hcolumn => ?_⟩ h
  · exact absurd hlabel (by simp)
  · exact absurd hlabel (by simp)
  · exact absurd hcolumn (by simp)

end CompareHtmlXls
