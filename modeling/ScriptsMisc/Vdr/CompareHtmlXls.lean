import Mathlib.Tactic.IntervalCases
import ScriptsMisc.Vdr.Coverage

/-! # The HTML/XLS comparator

`vdr-compare-html-xls.vbs` takes the coverage rows of each member of the HTML sheet, searches the
XLS sheet for the member, and compares election amount and payroll deduction with the columns of
the coverage.
-/

namespace CompareHtmlXls

open Vbs Vdr

/-- `logError(str)`. -/
def logError (host : Host) (lastName firstName : Str) (coverage : Variant) (str : Str) :
    Log → Option Log :=
  Vdr.logError host 34 3 (.string lastName) (.string firstName) coverage str

/-! ## The comparison -/

/-- `electionAmt`: column 7, or column 4 where column 7 is blank. -/
def electionAmt (host : Host) (html : Sheet) (j : ℕ) : Option ℚ :=
  (eq (html.cell j 7) (.string [])).bind fun blank =>
    if blank then toNum host (html.cell j 4) else toNum host (html.cell j 7)

/-- `payrollDed`: column 6, or column 9 where column 8 is not blank. -/
def payrollDed (host : Host) (html : Sheet) (j : ℕ) : Option ℚ :=
  (eq (html.cell j 8) (.string [])).bind fun blank =>
    if blank then toNum host (html.cell j 6) else toNum host (html.cell j 9)

/-- The search loop, which ends with the first row it compares; `and` is taken bit by bit. -/
def findMember (host : Host) (xls : Sheet) (firstName lastName : Str) :
    List ℕ → Option (Option ℕ)
  | [] => some none
  | k :: ks =>
    (host.text (xls.cell k 1)).bind fun first =>
      (host.text (xls.cell k 2)).bind fun last =>
        if inStr first firstName &&& inStr last lastName ≠ 0 then some (some k)
        else findMember host xls firstName lastName ks

/-- The rows of the search, `for k = 6 to objWorksheet2.UsedRange.Rows.Count+3`. -/
def searchRows (xls : Sheet) : List ℕ := forTo 6 (xls.usedRows + 3)

/-- Compare two numbers. -/
def checkNum (x y : ℚ) (error : Log → Option Log) (log : Log) : Option Log :=
  if x = y then some log else error log

/-- The check of the election amount. -/
def checkElection (host : Host) (xls : Sheet) (k : ℕ) (cols : Columns) (electionAmt : ℚ)
    (logError : Str → Log → Option Log) (log : Log) : Option Log :=
  if cols.vDLI then
    -- spouse and child together
    (toNum host (xls.cell k 10)).bind fun sp =>
      (toNum host (xls.cell k 11)).bind fun ch =>
        checkNum electionAmt (host.add sp ch) (logError
          (host.numberText electionAmt ++ "(html) != ".toList ++ host.numberText (host.add sp ch) ++
            " (".toList ++ host.numberText sp ++ "+".toList ++ host.numberText ch ++
            ")(xls)".toList)) log
  -- neither the marker -1 nor a label that was not found is above 0
  else if 0 < cols.amtCol then
    (toNum host (xls.cell k cols.amtCol.toNat)).bind fun amount =>
      checkNum electionAmt amount (logError
        (host.numberText electionAmt ++ "(html) != ".toList ++ host.numberText amount ++
          "(xls)".toList)) log
  else some log

/-- The check of the payroll deduction. -/
def checkPayroll (host : Host) (xls : Sheet) (k : ℕ) (cols : Columns) (payrollDed : ℚ)
    (logError : Str → Log → Option Log) (log : Log) : Option Log :=
  (xls.value k cols.pdCol).bind fun cell =>
    (toNum host cell).bind fun deduction =>
      checkNum payrollDed deduction (logError
        (host.numberText payrollDed ++ "(html) != ".toList ++ host.numberText deduction ++
          "(xls)".toList)) log

/-- The body of the `while` loop, at row `j` of the HTML sheet. -/
def compareCoverage (host : Host) (html xls : Sheet) (lastName firstName : Str) (j : ℕ)
    (log : Log) : Option Log :=
  let coverage := html.cell j 3
  (electionAmt host html j).bind fun electionAmt =>
    (payrollDed host html j).bind fun payrollDed =>
      -- `estPremium`, which nothing reads
      (toNum host (html.cell j 6)).bind fun _ =>
        (findMember host xls firstName lastName (searchRows xls)).bind fun found =>
          match found with
          -- the search ends without a word
          | none => some log
          | some k =>
            (host.text coverage).bind fun text =>
              (dispatch host xls text).bind fun cols =>
                (checkElection host xls k cols electionAmt
                  (logError host lastName firstName coverage) log).bind
                (checkPayroll host xls k cols payrollDed
                  (logError host lastName firstName coverage))

/-- The body of the `for i` loop. -/
def compareMember (host : Host) (html xls : Sheet) (log : Log) (i : ℕ) : Option Log :=
  (isMember html i).bind fun member =>
    if member then
      (memberName host html i).bind fun (lastName, firstName) =>
        forBlock html i (fun d => compareCoverage host html xls lastName firstName (i + d)) log
    else some log

/-- The loops. -/
def compareSheets (host : Host) (html xls : Sheet) (log : Log) : Option Log :=
  (forTo 6 html.usedRows).foldlM (compareMember host html xls) log

/-- The run for a case and a frequency. -/
def run (host : Host) (html xls : Sheet) : Option Report := report (compareSheets host html xls)

/-! ## What the run compares -/

/-- The election amount agrees with its cells in row `k`, where the dispatch has found any. -/
def ElectionAgrees (host : Host) (xls : Sheet) (k : ℕ) (cols : Columns) (electionAmt : ℚ) : Prop :=
  if cols.vDLI = true then
    ∃ sp, toNum host (xls.cell k 10) = some sp ∧
      ∃ ch, toNum host (xls.cell k 11) = some ch ∧ electionAmt = host.add sp ch
  else 0 < cols.amtCol → toNum host (xls.cell k cols.amtCol.toNat) = some electionAmt

/-- The payroll deduction agrees with its cell in row `k`; column 0 has no cell. -/
def PayrollAgrees (host : Host) (xls : Sheet) (k : ℕ) (cols : Columns) (payrollDed : ℚ) : Prop :=
  ∃ cell, xls.value k cols.pdCol = some cell ∧ toNum host cell = some payrollDed

/-- The amounts in row `j` agree with the row of the XLS sheet that the search finds, if any. -/
def RowAgrees (host : Host) (html xls : Sheet) (lastName firstName : Str) (j : ℕ) : Prop :=
  ∃ election, electionAmt host html j = some election ∧
    ∃ payroll, payrollDed host html j = some payroll ∧
      (∃ premium, toNum host (html.cell j 6) = some premium) ∧
      ∃ found, findMember host xls firstName lastName (searchRows xls) = some found ∧
        ∀ k, found = some k → ∃ text, host.text (html.cell j 3) = some text ∧
          ∃ cols, dispatch host xls text = some cols ∧
            ElectionAgrees host xls k cols election ∧ PayrollAgrees host xls k cols payroll

/-- Nothing that the run compares differs: each member it visits has a name and a closed block, and
the rows of the block agree. -/
def AllAgree (host : Host) (html xls : Sheet) : Prop :=
  ∀ i ∈ forTo 6 html.usedRows, ∃ member, isMember html i = some member ∧
    (member = true → ∃ name, memberName host html i = some name ∧
      ∃ n, Block html i n ∧ ∀ d < n, RowAgrees host html xls name.1 name.2 (i + d))

/-- A comparison of two numbers decides whether they are equal. -/
theorem checkNum_decides (x y : ℚ) {error : Log → Option Log}
    (herror : ∀ log log', error log = some log' → log'.errors = true) :
    Verdict.Decides Log.errors (checkNum x y error) (x = y) :=
  (Verdict.Decides.ite (c := x = y) (fun _ => Verdict.decides_pass)
    (fun _ => Verdict.decides_fail herror)).congr
    ⟨fun h => by_contra h.2, fun h => ⟨fun _ => trivial, fun hne => hne h⟩⟩

/-- That of an election decides whether it agrees. -/
theorem checkElection_decides (host : Host) (xls : Sheet) (k : ℕ) (cols : Columns)
    (electionAmt : ℚ) {logError : Str → Log → Option Log}
    (herror : ∀ str log log', logError str log = some log' → log'.errors = true) :
    Verdict.Decides Log.errors (checkElection host xls k cols electionAmt logError)
      (ElectionAgrees host xls k cols electionAmt) := by
  refine (Verdict.Decides.ite (c := cols.vDLI = true)
    (fun _ => Verdict.Decides.value fun sp _ => Verdict.Decides.value fun ch _ =>
      checkNum_decides electionAmt (host.add sp ch) (herror _))
    (fun _ => Verdict.Decides.ite (c := 0 < cols.amtCol)
      (fun _ => Verdict.Decides.value fun amount _ =>
        checkNum_decides electionAmt amount (herror _))
      (fun _ => Verdict.decides_pass))).congr ?_
  rw [ElectionAgrees]
  split
  · next hdli =>
    exact ⟨fun h => h.1 hdli, fun h => ⟨fun _ => h, fun hne => absurd hdli hne⟩⟩
  · next hdli =>
    constructor
    · intro h hpos
      obtain ⟨amount, hamount, heq⟩ := (h.2 hdli).1 hpos
      rw [heq, hamount]
    · exact fun h => ⟨fun hv => absurd hv hdli, fun _ => ⟨fun hpos => ⟨_, h hpos, rfl⟩,
        fun _ => trivial⟩⟩

/-- So does that of a payroll deduction. -/
theorem checkPayroll_decides (host : Host) (xls : Sheet) (k : ℕ) (cols : Columns)
    (payrollDed : ℚ) {logError : Str → Log → Option Log}
    (herror : ∀ str log log', logError str log = some log' → log'.errors = true) :
    Verdict.Decides Log.errors (checkPayroll host xls k cols payrollDed logError)
      (PayrollAgrees host xls k cols payrollDed) := by
  refine (Verdict.Decides.value fun cell _ => Verdict.Decides.value fun deduction _ =>
    checkNum_decides payrollDed deduction (herror _)).congr ?_
  refine exists_congr fun cell => and_congr_right fun _ => ?_
  constructor
  · rintro ⟨deduction, hnum, heq⟩
    rw [heq, hnum]
  · exact fun hnum => ⟨payrollDed, hnum, rfl⟩

/-- That of a coverage decides whether both do. -/
theorem compareCoverage_decides (host : Host) (html xls : Sheet) (lastName firstName : Str)
    (j : ℕ) :
    Verdict.Decides Log.errors (compareCoverage host html xls lastName firstName j)
      (RowAgrees host html xls lastName firstName j) := by
  have herror : ∀ str log log',
      logError host lastName firstName (html.cell j 3) str log = some log' →
      log'.errors = true := fun _ _ _ h => logError_errors h
  refine .value fun election _ => .value fun payroll _ => ?_
  refine (Verdict.Decides.value (P := fun _ => ∃ found, findMember host xls firstName lastName
      (searchRows xls) = some found ∧ ∀ k, found = some k →
        ∃ text, host.text (html.cell j 3) = some text ∧
          ∃ cols, dispatch host xls text = some cols ∧
            ElectionAgrees host xls k cols election ∧ PayrollAgrees host xls k cols payroll)
    fun premium _ => .value fun found _ => ?_).congr ?_
  · cases found with
    | none => exact Verdict.decides_pass.congr (by simp)
    | some k =>
      refine (Verdict.Decides.value fun text _ => Verdict.Decides.value fun cols _ =>
        (checkElection_decides host xls k cols election herror).bind
          (checkPayroll_decides host xls k cols payroll herror)).congr ?_
      constructor
      · intro h k' hk
        obtain rfl := Option.some.inj hk
        exact h
      · exact fun h => h k rfl
  · constructor
    · rintro ⟨premium, hpremium, h⟩
      exact ⟨⟨premium, hpremium⟩, h⟩
    · rintro ⟨⟨premium, hpremium⟩, h⟩
      exact ⟨premium, hpremium, h⟩

/-- The run logs OK exactly when nothing that it compares differs. -/
theorem logsOk_run_iff (host : Host) (html xls : Sheet) :
    LogsOk (run host html xls) ↔ AllAgree host html xls := by
  refine logsOk_report_iff (.foldlM fun i _ => ?_)
  refine (Verdict.Decides.value fun member _ => Verdict.Decides.ite (c := member = true)
    (fun _ => Verdict.Decides.value fun name _ => forBlock_decides fun d =>
      compareCoverage_decides host html xls name.1 name.2 (i + d))
    (fun _ => Verdict.decides_pass)).congr ?_
  exact exists_congr fun member => and_congr_right fun _ =>
    ⟨fun h => h.1, fun h => ⟨h, fun _ => trivial⟩⟩

/-! ## What the verdict says -/

/-- Row `k` of the XLS sheet is the row of the member in row `i` of the HTML sheet: column 2 is the
member's last name, and column 1 the first name, alone or with the names that follow it. -/
def MemberAt (host : Host) (html xls : Sheet) (i k : ℕ) : Prop :=
  6 ≤ k ∧ ∃ name, host.text (html.cell i 1) = some name ∧
    ∃ lastName firstName, memberName host html i = some (lastName, firstName) ∧
      eq (xls.cell k 2) (.string lastName) = some true ∧
      (eq (xls.cell k 1) (.string firstName) = some true ∨
        ∃ givenNames, (split name ", ".toList)[1]? = some givenNames ∧
          eq (xls.cell k 1) (.string givenNames) = some true)

/-- The header of column `m` is the label. -/
def HeaderAt (xls : Sheet) (label : Str) (m : ℕ) : Prop :=
  3 ≤ m ∧ eq (xls.cell 5 m) (.string label) = some true

/-- Column `m` of the XLS sheet holds the payroll deductions of the coverage. -/
def DeductionColumn (xls : Sheet) (labels : Labels) (m : ℕ) : Prop :=
  (∃ label, labels.deduction = some (.label label) ∧ HeaderAt xls label m) ∨
    labels.deduction = some .column15 ∧ m = 15

/-- The election amount equals its cells in row `k`, if the coverage has a benefit amount. -/
def ElectionMatches (host : Host) (xls : Sheet) (k : ℕ) (labels : Labels) (electionAmt : ℚ) :
    Prop :=
  if labels.vDLI = true then
    ∃ sp, toNum host (xls.cell k 10) = some sp ∧
      ∃ ch, toNum host (xls.cell k 11) = some ch ∧ electionAmt = host.add sp ch
  else ∀ label, labels.amount = some label →
    ∃ m, HeaderAt xls label m ∧ toNum host (xls.cell k m) = some electionAmt

/-- The coverage row `j` of the member in row `i` is right: the XLS sheet has a row for the member
and a column for the coverage, and the amounts are the same. -/
def RowMatches (host : Host) (html xls : Sheet) (i j : ℕ) : Prop :=
  ∃ k, MemberAt host html xls i k ∧
    ∃ text, host.text (html.cell j 3) = some text ∧
      (∃ m payroll, DeductionColumn xls (labelsOf text) m ∧
        payrollDed host html j = some payroll ∧ toNum host (xls.cell k m) = some payroll) ∧
      ∃ election, electionAmt host html j = some election ∧
        ElectionMatches host xls k (labelsOf text) election

/-- Every coverage row of every member is right. -/
def Sound (host : Host) (html xls : Sheet) : Prop :=
  ∀ i n, MemberRow html i → Block html i n → ∀ d < n, RowMatches host html xls i (i + d)

/-- The lookup of the label ends at a header that is the label. -/
def FindsHeader (host : Host) (xls : Sheet) (label : Str) : Prop :=
  ∃ m, lookup host xls label = some m ∧ HeaderAt xls label m

/-- The coverage row `j` of the member in row `i` is visited and compared in full with its own
cells: the search finds the row of the member, the dispatch knows the coverage, and the lookups end
at its labels. -/
def Checked (host : Host) (html xls : Sheet) (i j : ℕ) : Prop :=
  i ≤ html.usedRows ∧
    (∃ lastName firstName k, memberName host html i = some (lastName, firstName) ∧
      findMember host xls firstName lastName (searchRows xls) = some (some k) ∧
      MemberAt host html xls i k) ∧
    ∃ text, host.text (html.cell j 3) = some text ∧ (labelsOf text).deduction ≠ none ∧
      (∀ label, (labelsOf text).deduction = some (.label label) → FindsHeader host xls label) ∧
      ((labelsOf text).vDLI = false → ∀ label, (labelsOf text).amount = some label →
        FindsHeader host xls label)

/-- Every coverage row that is not compared in full with its own cells is right as well. -/
def OthersMatch (host : Host) (html xls : Sheet) : Prop :=
  ∀ i n, MemberRow html i → Block html i n → ∀ d < n,
    Checked host html xls i (i + d) ∨ RowMatches host html xls i (i + d)

/-- The deduction is compared in the column of the coverage. -/
theorem Resolves.deductionColumn {host : Host} {xls : Sheet} {labels : Labels} {cols : Columns}
    (h : Resolves host xls labels cols) (hknown : labels.deduction ≠ none)
    (hfinds : ∀ label, labels.deduction = some (.label label) → FindsHeader host xls label) :
    DeductionColumn xls labels cols.pdCol := by
  cases hdeduction : labels.deduction with
  | none => exact absurd hdeduction hknown
  | some deduction =>
    cases deduction with
    | label label =>
      obtain ⟨m, hlookup, hheader⟩ := hfinds label hdeduction
      have hcol := h.deduction_label label hdeduction
      obtain rfl := Option.some.inj (hlookup.symm.trans hcol)
      exact Or.inl ⟨label, hdeduction, hheader⟩
    | column15 => exact Or.inr ⟨hdeduction, h.deduction_column15 hdeduction⟩

/-- The election amount is compared in the column of the coverage. -/
theorem Resolves.electionMatches {host : Host} {xls : Sheet} {labels : Labels} {cols : Columns}
    (h : Resolves host xls labels cols) {k : ℕ} {electionAmt : ℚ}
    (hfinds : labels.vDLI = false → ∀ label, labels.amount = some label →
      FindsHeader host xls label)
    (hagrees : ElectionAgrees host xls k cols electionAmt) :
    ElectionMatches host xls k labels electionAmt := by
  rw [ElectionAgrees, h.vDLI] at hagrees
  rw [ElectionMatches]
  split
  · next hdli =>
    rwa [if_pos hdli] at hagrees
  · next hdli =>
    rw [if_neg hdli] at hagrees
    intro label hlabel
    obtain ⟨m, hlookup, hheader⟩ := hfinds (by simpa using hdli) label hlabel
    obtain ⟨c, hlookup', hcol⟩ := h.amount_some label hlabel
    obtain rfl := Option.some.inj (hlookup.symm.trans hlookup')
    have hfirst := hheader.1
    refine ⟨m, hheader, ?_⟩
    rw [hcol] at hagrees
    simpa using hagrees (by omega)

/-- A coverage row that is compared in full with its own cells, and without a difference, is
right. -/
theorem Checked.rowMatches {host : Host} {html xls : Sheet} {i n d : ℕ}
    (hagree : AllAgree host html xls) (hi : MemberRow html i) (hblock : Block html i n) (hd : d < n)
    (h : Checked host html xls i (i + d)) : RowMatches host html xls i (i + d) := by
  obtain ⟨hvisited, ⟨lastName, firstName, k, hname, hfound, hmemberAt⟩, text, htext, hknown,
    hdeduction, hamount⟩ := h
  obtain ⟨member, hmember, hrows⟩ := hagree i (mem_forTo.mpr ⟨hi.1, hvisited⟩)
  obtain rfl := Option.some.inj (hi.2.symm.trans hmember)
  obtain ⟨name, hname', n', hblock', hrows⟩ := hrows rfl
  obtain rfl := Option.some.inj (hname.symm.trans hname')
  obtain rfl := hblock.unique hblock'
  obtain ⟨election, helection, payroll, hpayroll, -, found, hfound', hcompared⟩ := hrows d hd
  obtain rfl := Option.some.inj (hfound.symm.trans hfound')
  obtain ⟨text', htext', cols, hdispatch, helectionAgrees, cell, hcell, hnum⟩ := hcompared k rfl
  obtain rfl := Option.some.inj (htext.symm.trans htext')
  have hresolves := dispatch_resolves hdispatch
  have hvalue : xls.cell k cols.pdCol = cell := by
    rw [Sheet.value] at hcell
    split at hcell
    · exact absurd hcell (by simp)
    · exact Option.some.inj hcell
  refine ⟨k, hmemberAt, text, htext,
    ⟨cols.pdCol, payroll, hresolves.deductionColumn hknown hdeduction, hpayroll, ?_⟩,
    election, helection, hresolves.electionMatches hamount helectionAgrees⟩
  rw [hvalue, hnum]

/-- An OK verdict is sound exactly when, should nothing that is compared differ, the coverage rows
that are not compared in full with their own cells are right as well. -/
theorem sound_of_ok_iff (host : Host) (html xls : Sheet) :
    (LogsOk (run host html xls) → Sound host html xls) ↔
      (AllAgree host html xls → OthersMatch host html xls) := by
  rw [logsOk_run_iff]
  refine forall_congr' fun hagree => ?_
  constructor
  · exact fun h i n hi hblock d hd => Or.inr (h i n hi hblock d hd)
  · intro h i n hi hblock d hd
    rcases h i n hi hblock d hd with hchecked | hmatches
    · exact hchecked.rowMatches hagree hi hblock hd
    · exact hmatches

/-- A host that reads the texts of natural numbers. -/
def digitHost : Host where
  numberText x := (Nat.toDigits 10 x.num.toNat)
  dateText _ := []
  cDbl s :=
    if s ≠ [] ∧ s.all Char.isDigit then
      some ((s.foldl (fun n c => 10 * n + (c.toNat - 48)) 0 : ℕ) : ℚ)
    else none
  add x y := x + y

/-- A page with one member, whose payroll deduction is $5. -/
def oneDeduction : Sheet :=
  ⟨[[.string "VDR".toList], [], [], [], [],
    [.string "Name".toList, .string "DOB".toList, .string "Coverage".toList],
    [.string "Lee, Ann".toList, .string "1/1/1970".toList, .string "PPD DEN EE".toList,
      .empty, .empty, .string "$5".toList],
    [.string "Total".toList]]⟩

/-- An export without members. -/
def noMembers : Sheet :=
  ⟨[[], [], [], [.string "Export".toList],
    [.string "First Name".toList, .string "Last Name".toList,
      .string "Employee PPD Monthly Cost".toList]]⟩

/-- A member that the XLS sheet does not have is passed over. -/
theorem run_passes_over_member :
    LogsOk (run digitHost oneDeduction noMembers) ∧
      ¬ Sound digitHost oneDeduction noMembers := by
  refine ⟨by decide +kernel, fun h => ?_⟩
  obtain ⟨k, ⟨hk, -, -, lastName, firstName, hname, hlast, -⟩, -⟩ :=
    h 7 1 ⟨by decide, by decide⟩ ⟨by decide, by decide⟩ 0 (by decide)
  have hempty : noMembers.cell k 2 = .empty :=
    cell_eq_empty (lt_of_lt_of_le (by decide) hk) 2
  have hLee : memberName digitHost oneDeduction 7 = some ("Lee".toList, "Ann".toList) := by decide
  obtain ⟨rfl, -⟩ := Prod.mk.inj (Option.some.inj (hLee.symm.trans hname))
  rw [hempty] at hlast
  exact absurd hlast (by decide)

end CompareHtmlXls
