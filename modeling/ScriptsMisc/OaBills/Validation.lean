import ScriptsMisc.OaBills.Recordset

/-! # The validation routines

The routines of the function library as they use the recordset and report checks. What they do
to the browser in between (`js`, `wait`, `jumpTo`, the repair of ids and the choice between the
detailed and the summarized view) leaves `con` and `rs` alone.
-/

namespace OaBills

open Vbs (shown)

/-- The results of the queries for one bill. -/
structure BillData where
  abllKey : Str
  bills : List Row
  formats : List Row
  remittance : List Row
  summary : List Row
  onlineSummary : List Row
  adjustments : List Row
  members : List Row
  onlineMembers : List Row

def viewBill (b : BillData) : Vb Unit := do
  conOpen
  rsOpen b.bills
  let r ← current
  modify fun w =>
    { w with
      abllKeyGlobal := some b.abllKey, polNo := r.text .contNo, bgrpKey := r.text .bgrpKey }
  rsClose
  rsOpen b.summary
  whileRow (fun _ => some true) () fun _ => do
    let r ← current
    modify fun w => { w with pyrlTot := r.text .curPyrlTot }
    moveNext
  rsClose
  rsOpen b.formats
  let r ← current
  modify fun w =>
    { w with dbillFrmtCd := r.text .dbillFrmtCd, billFormat := r.text .billFormat }
  rsClose

/-! ## Remittance -/

/-- The calls of `validateRemString`, `validateRemAmount` and `validateRemDate`. -/
def remittanceElements : List (Typ × String × String × Column) :=
  [(.string, "Policy Number", "mainform:manageBillsSelectedPolicyNumberId", .contNo),
    (.date, "Due Date", "mainform:manageBillsPolicyStmtDueDateId", .stmtDueDt),
    (.date, "Create Date", "mainform:manageBillsCreateDateId", .billDt),
    (.string, "Billing Period", "mainform:manageBillsBillingPeriodId", .bllngPerd),
    (.double, "Prior Balance Due", "mainform:remitInfoPriorBalanceId", .priorBalDueTot),
    (.double, "Current Premium/Fees", "mainform:remitInfoCurrentPremiumId", .curPremTot),
    (.double, "Member Adjustments", "mainform:remitInfoMemberAdjustmentsId", .mbrAdjTot),
    (.double, "Payment Received", "mainform:remitInfoPaymentReceivedId", .pymtRecTot),
    (.double, "Total Amount Due", "mainform:remitInfoTotalAmountDueId", .amtDueTot),
    (.string, "Business Phone", "mainform:remitInfoCompanyPhone", .bsvcBusPhoneNo),
    (.string, "Business Fax", "mainform:remitInfoCompanyFax", .bsvcBusFaxNo),
    (.string, "Company Name", "mainform:remitInfoCompanyBankName", .coDisplayNm),
    (.string, "Address Street", "mainform:remitInfoCoAddrLine1", .coAddrLine1),
    (.string, "Address City", "mainform:remitInfoCoAddrCity", .coCity),
    (.string, "Address State", "mainform:remitInfoCoAddrState", .coState),
    (.string, "Address Zip", "mainform:remitInfoCoAddrZip", .coPostcd),
    (.string, "Policy Number", "mainform:remitStubSelectedPolicyNumberId", .contNo),
    (.string, "Policyholder Name", "mainform:remitStubPolicyholderNameId", .payrOrgname),
    (.string, "Company Name", "mainform:remitStubCompanyBankNameId", .coNm),
    (.string, "Address 1", "mainform:remitStubBankAddrLine1", .bsvcBusAddr1),
    (.string, "Address City", "mainform:remitStubBankAddrCityId", .bsvcBusCity),
    (.string, "Address ST", "mainform:remitStubBankAddrStateId", .bsvcBusState),
    (.string, "Address Zip", "mainform:remitStubBankAddrZipId", .bsvcBusPostcd),
    (.double, "Amount Due", "mainform:remitStubTotalAmountDueId", .amtDueTot),
    (.date, "Due Date", "mainform:remitStubStmtDueDateId", .stmtDueDt),
    (.string, "Pol. No.", "mainform:remitStubContractNumberId", .contNo),
    (.string, "Cat. No.", "mainform:remitStubCategoryNumberId", .catNo),
    (.string, "BGRR key", "mainform:remitStubRefNumberId", .bgrrKey)]

/-- The checks `validateRemString`, `validateRemAmount` and `validateRemDate` make of a row. -/
def remittanceChecks (r : Row) : List Check :=
  remittanceElements.map fun e =>
    ⟨e.2.1.toList, e.2.2.1.toList, .text (r.text e.2.2.2), e.1⟩

def validateRemittance (b : BillData) : Vb Unit := do
  rsOpen b.remittance
  let r ← current
  validateElements (remittanceChecks r)
  rsClose

/-! ## Policy summary -/

/-- `rs("BEN_DESC") & " (" & rs("BEN_SHRT_NM") & ")"`. -/
def coverageDescription (r : Row) : Str :=
  shown (r.text .benDesc) ++ " (".toList ++ shown (r.text .benShrtNm) ++ [')']

/-- The detailed view of a coverage under the default format. -/
def defaultChecks (r : Row) : List Check :=
  let id := shown (r.text .benShrtNm)
  [textCheck id " Coverage Description" (some (coverageDescription r)) .string,
    textCheck id " Lives" (r.text .cvrdLvs) .double,
    textCheck id " Employee" (r.text .summEmpleeContrib) .double,
    numberCheck id " Total" (r.dbl .summEmplrContrib + r.dbl .summEmpleeContrib) .double]

/-- The local variables of the summarized view: a rollup, its totals and the most lives. -/
structure Rollup where
  name : Option Str
  totalEe : ℚ
  totalEm : ℚ
  maxLvs : ℚ

/-- A row of the rollup in work. -/
def Rollup.add (x : Rollup) (r : Row) : Rollup where
  name := x.name
  totalEe := x.totalEe + r.dbl .summEmpleeContrib
  totalEm := x.totalEm + r.dbl .summEmplrContrib
  maxLvs := if cInt x.maxLvs < cInt (r.dbl .cvrdLvs) then cInt (r.dbl .cvrdLvs) else x.maxLvs

/-- The first row of another rollup. -/
def Rollup.start (r : Row) : Rollup where
  name := r.text .summRollupIndicator
  totalEe := r.dbl .summEmpleeContrib
  totalEm := r.dbl .summEmplrContrib
  maxLvs := r.dbl .cvrdLvs

def Rollup.checks (x : Rollup) : List Check :=
  let id := shown x.name
  [textCheck id " Coverage Description" x.name .string,
    numberCheck id " Lives" x.maxLvs .int,
    numberCheck id " Employee" x.totalEe .double,
    numberCheck id " Total" (x.totalEe + x.totalEm) .double]

def polSummDefault (b : BillData) : Vb Unit := do
  rsOpen b.onlineSummary
  moveNext
  whileRow (fun r => some (r.text .benShrtNm).isSome) () fun _ => do
    let r ← current
    validateElements (defaultChecks r)
    moveNext
  moveFirst
  moveNext
  let r ← current
  moveFirst
  let _ ← whileRow (fun r => notNull (eqNull (r.text .recordType) (some ['G'])))
    ⟨r.text .summRollupIndicator, 0, 0, 0⟩ fun x => do
      moveNext
      let r ← current
      if holds (eqNull (r.text .summRollupIndicator) x.name) then
        return x.add r
      else
        validateElements x.checks
        return Rollup.start r

/-- The prefix of the ids under which a coverage is looked up. -/
def idPrefix (groupTitle benShrtNm : Option Str) : Str :=
  stripLeading (shown groupTitle ++ ' ' :: shown benShrtNm)

/-- A coverage under format 4. -/
def coverageChecks (w : World) (r : Row) : List Check :=
  let id := idPrefix (r.text .groupTitle) (r.text .benShrtNm)
  [textCheck id " Coverage Description" (some (coverageDescription r)) .string,
    numberCheck id " Coverage Amount" (r.dbl .cvrdAmt) .double,
    textCheck id " Lives" (r.text .cvrdLvs) .string] ++
  (if w.hasPayroll then [numberCheck id " Payroll Deduction" (r.dbl .curPyrlTot) .double]
    else []) ++
  [numberCheck id " Premium/Fees" (r.dbl .curPremTot) .double]

/-- The totals of a department. -/
def departmentChecks (w : World) (r : Row) : List Check :=
  let id := shown (r.text .groupTitle) ++ ' ' :: shown (r.text .groupTitle)
  if (r.text .groupTitle).isSome then
    [textCheck id " Subtotal Coverage Amount" (r.text .cvrdAmt) .double] ++
    (if w.hasPayroll then
      [textCheck id " Subtotal Payroll Deduction" (r.text .curPyrlTot) .double] else []) ++
    [textCheck id " Subtotal Premium/Fees" (r.text .curPremTot) .double,
      textCheck id " Total Coverage Amount" (r.text .curTotal) .double]
  else []

/-- A round of the loop under format 4: a coverage and, where one follows, the totals of a
department. -/
def summaryRound : Vb Unit := do
  let w ← get
  let r ← current
  if holds (eqNull (r.text .recordType) (some ['E'])) then moveNext
  let r ← current
  validateElements (coverageChecks w r)
  moveNext
  let r ← current
  if holds (eqNull (r.text .recordType) (some ['G'])) then
    validateElements (departmentChecks w r)
    moveNext

def validatePolicySummary (b : BillData) : Vb Unit := do
  let w ← get
  if w.isE then polSummDefault b
  else if w.isFour then
    rsOpen b.summary
    moveFirst
    whileRow (fun _ => some true) () fun _ => summaryRound
  rsClose

/-! ## Member adjustments -/

/-- `rs("MBR_LASTNAME") & ", " & rs("MBR_FIRSTNAME")`. -/
def memberName (r : Row) : Str :=
  shown (r.text .mbrLastname) ++ ", ".toList ++ shown (r.text .mbrFirstname)

/-- The check of `<MBR_NO> Name`. -/
def nameCheck (r : Row) : Check :=
  textCheck (shown (r.text .mbrNo)) " Name" (some (memberName r)) .string

def adjustmentChecks (r : Row) : List Check :=
  let mbrNo := shown (r.text .mbrNo)
  let id := mbrNo ++ ' ' :: shown (r.text .benShrtNm)
  if holds (eqNull (r.text .recordType) (some ['I'])) then
    [nameCheck r,
      textCheck id " Benefit" (r.text .benShrtNm) .string,
      textCheck id " Reason" (r.text .adjReas1LDesc) .string,
      textCheck id " Payroll Deduction" (r.text .adjPyrlAmt) .double,
      textCheck id " Premium/Fees" (r.text .adjPremAmt) .double]
  else if holds (eqNull (r.text .recordType) (some ['J', '1'])) then
    [textCheck mbrNo " Adjusted Certificate Subtotals Payroll Deduction" (r.text .adjPyrlTot)
        .double,
      textCheck mbrNo " Adjusted Certificate Subtotals Premium/Fees" (r.text .adjPremTot) .double,
      textCheck mbrNo " Total Adjusted Certificate Amount Premium/Fees" (r.text .adjTotal) .double]
  else []

def validateMemberAdjustments (b : BillData) : Vb Unit := do
  rsOpen b.adjustments
  whileRow (fun _ => some true) () fun _ => do
    let r ← current
    validateElements (adjustmentChecks r)
    moveNext
  rsClose

/-! ## Member details -/

/-- The age band a row is expected to show when its issue age replaces the range. -/
def issueAgeBand (r : Row) : Option Str :=
  if (r.text .mbrCvrgIssueAge).isSome then r.text .mbrCvrgIssueAge else r.text .ageRangeDesc

def benefitChecks (w : World) (r : Row) : List Check :=
  let id := shown (r.text .mbrNo) ++ ' ' :: shown (r.text .benShrtNm)
  (if w.isE then
    [textCheck id " Benefit" (r.text .benShrtNm) .string,
      textCheck id " Past Due Amount" (r.text .pastDueAmt) .double,
      textCheck id " Employee" (r.text .empleeContrib) .double,
      numberCheck id " Bill Amount Due" (r.dbl .empleeContrib + r.dbl .pastDueAmt) .double]
  else if w.isFour then
    [textCheck id " Coverage Description" (r.text .benShrtNm) .string,
      textCheck id " Coverage Amount" (r.text .currBenAmt) .double] ++
    (if w.hasPayroll then [textCheck id " Payroll Deduction" (r.text .curPyrlAmt) .double]
      else []) ++
    [textCheck id " Premium/Fees" (r.text .curPremAmt) .double]
  else []) ++
  [textCheck id " Age Band" (if w.isE then issueAgeBand r else r.text .ageRangeDesc) .string]

def validateMemberDetailBenefits : Vb Unit :=
  whileRow (fun r => notNull (orNull (some false) (eqNull (r.text .recordType) (some ['O'])))) ()
    fun _ => do
      let w ← get
      let r ← current
      validateElements (benefitChecks w r)
      moveNext

def totalChecks (w : World) (r : Row) : List Check :=
  let id := shown (r.text .mbrNo)
  if w.isE then
    [textCheck id " Total Past Due Amount" (r.text .pastDueTot) .double,
      textCheck id " Total Employee" (r.text .empleeTot) .double,
      numberCheck id " Total Bill Amount Due" (r.dbl .pastDueTot + r.dbl .empleeTot) .double]
  else if w.isFour then
    (if w.hasPayroll then
      [textCheck id " Subtotal Current Payroll Deduction" (r.text .curPyrlTot) .double] else []) ++
    [textCheck id " Subtotal Current Premium/Fees" (r.text .curPremTot) .double,
      numberCheck id " Total Premium/Fees" (r.dbl .curPyrlTot + r.dbl .curPremTot) .double]
  else []

def validateMemberDetailTotals : Vb Unit := do
  let w ← get
  let r ← current
  validateElements (totalChecks w r)

/-- A round of the loop over the members. -/
def memberRound : Vb Unit := do
  let r ← current
  if holds (eqNull (r.text .recordType) (some ['M'])) then moveNext
  let r ← current
  validateElements [nameCheck r]
  validateMemberDetailBenefits
  validateMemberDetailTotals
  moveNext

/-- The two loops of `validateMemberDetails`: to the first `N` row, and over the members. -/
def memberDetailLoops : Vb Unit := do
  whileRow (fun r => neNull (r.text .recordType) (some ['N'])) () fun _ => moveNext
  whileRow (fun r => notNull (orNull (some false) (eqNull (r.text .recordType) (some ['P'])))) ()
    fun _ => memberRound

/-- The variables of `memberDetailSummarized` that keep what the row before held. -/
structure Summarized where
  mbrNo : Option Str
  rollupIndicator : Option Str
  totalEmployee : ℚ
  totalPastDue : ℚ
  ageBandExpected : Option Str

/-- The checks for a rollup that ends. -/
def Summarized.rollupChecks (x : Summarized) : List Check :=
  let id := shown x.mbrNo ++ ' ' :: shown x.rollupIndicator
  [textCheck id " Age Band" x.ageBandExpected .string,
    textCheck id " Benefit" x.rollupIndicator .string,
    numberCheck id " Past Due Amount" x.totalPastDue .double,
    numberCheck id " Employee" x.totalEmployee .double,
    numberCheck id " Bill Amount Due" (x.totalEmployee + x.totalPastDue) .double]

/-- The checks of the totals of a member. -/
def Summarized.totalChecks (x : Summarized) (r : Row) : List Check :=
  let id := shown x.mbrNo
  [textCheck id " Total Past Due Amount" (r.text .pastDueTot) .double,
    textCheck id " Total Employee" (r.text .empleeTot) .double,
    numberCheck id " Total Bill Amount Due" (r.dbl .pastDueTot + r.dbl .empleeTot) .double]

/-- The row goes on with the rollup of the row before. -/
def Summarized.goesOn (x : Summarized) (r : Row) : Bool :=
  holds (eqNull (r.text .rollupIndicator) x.rollupIndicator)

/-- The checks of one row in the summarized view. -/
def Summarized.checks (x : Summarized) (r : Row) : List Check :=
  (if x.goesOn r then []
  else
    (if x.mbrNo.isNone && (r.text .mbrNo).isSome then [nameCheck r] else []) ++
    (if x.rollupIndicator.isSome then x.rollupChecks else [])) ++
  if holds (eqNull (r.text .recordType) (some ['O'])) then x.totalChecks r else []

/-- The variables after a row. -/
def Summarized.next (x : Summarized) (r : Row) : Summarized where
  mbrNo := r.text .mbrNo
  rollupIndicator := r.text .rollupIndicator
  totalEmployee :=
    if x.goesOn r then x.totalEmployee + r.dbl .empleeContrib else r.dbl .empleeContrib
  totalPastDue := if x.goesOn r then x.totalPastDue + r.dbl .pastDueAmt else r.dbl .pastDueAmt
  ageBandExpected := issueAgeBand r

def memberDetailSummarized : Vb Unit := do
  moveFirst
  -- the totals are null until the first row sets them
  let _ ← whileRow (fun r => notNull (eqNull (r.text .recordType) (some ['P'])))
    (⟨none, none, 0, 0, none⟩ : Summarized) fun x => do
      let r ← current
      validateElements (x.checks r)
      moveNext
      return x.next r

def validateMemberDetails (b : BillData) : Vb Unit := do
  let w ← get
  if w.isE then rsOpen b.onlineMembers
  else if w.isFour then rsOpen b.members
  memberDetailLoops
  if w.isE then memberDetailSummarized
  rsClose

/-! ## A bill and a policy -/

def validateBill (b : BillData) : Vb Unit := do
  viewBill b
  validateRemittance b
  validatePolicySummary b
  validateMemberAdjustments b
  validateMemberDetails b
  conClose

/-- The loop of `validatePolicy`; its own connection and recordset are local to it. -/
def validatePolicy (bills : List BillData) : Vb Unit := bills.forM validateBill

end OaBills
