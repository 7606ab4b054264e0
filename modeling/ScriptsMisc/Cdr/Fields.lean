import ScriptsMisc.Lib.Text

/-! # The fields of the tabs

What the functions of `cdr_functions(2012-07-05).qfl` validate on the tabs of the CDR: the calls of
`validateField` and `validateEOI` they make, in order.
-/

namespace Cdr

/-- A call of `validateField`, or of `validateEOI`. -/
inductive Item where
  | field (nm col tabName : Str)
  | eoi
deriving DecidableEq, Repr

/-- Calls of `validateField` one after the other. -/
def fields (calls : List (String × String)) (tabName : String) : List Item :=
  calls.map fun call => .field call.1.toList call.2.toList tabName.toList

/-- Calls with columns of the coverage: their names end in its abbreviation. -/
def fieldsOf (abbr covr : String) (calls : List (String × String)) : List Item :=
  fields (calls.map fun call => (call.1, call.2 ++ abbr)) covr

/-- `if not ... then`. -/
def ifNot (cond : Bool) (items : List Item) : List Item := if cond then [] else items

/-! ## Sections -/

def validateSection1 (abbr covr : String) : List Item :=
  fieldsOf abbr covr [
    ("Benefit Effective Date", "BNTP_EFF_DT_"),
    ("Coverage Original Effective Date", "COVG_ORIG_EFF_DATE_"),
    ("Contracts Eligible Class", "ELGBL_PRSN_"), ("Member Group Description", "MBR_GRP_DESC_"),
    ("Solar Member Group Key", "SLR_MBR_GRP_KEY_"), ("Domestic Partner", "DOMESTIC_PARTNER_"),
    ("Minimum Periodic Hours", "MIN_PERIODIC_HRS_"),
    ("Periodic Hours Definition", "PERIODIC_HRS_DEF_"), ("Contribution Type", "CONTRIB_")] ++
  ifNot (covr = "Accident")
    (fieldsOf abbr covr [("Contractual Participation Percent", "CONTRACT_PART_")]) ++
  fieldsOf abbr covr [
    ("Participation Agreement", "PARTIC_ARRNGMT_"), ("Bill Proration Method", "BILL_PROR_METH_"),
    ("This is a benefit", "THIS_IS_A_CELL_BEN_")]

def validateSection2 (abbr covr : String) : List Item :=
  fieldsOf abbr covr [
    ("Issue Service Requirement", "ISS_SRVC_RQT_"), ("Mode 0", "ISS_SRVC_RQT_MOD_"),
    ("Future Service Requirement", "FUT_SRVC_RQT_"), ("Mode 1", "FUT_SRVC_RQT_MOD_"),
    ("Entry Date", "ENTRY_DT_"), ("Special Entry Date", "SPC_ENTRY_DT_"),
    ("Term Date", "TERM_DT_"), ("Special Term Date", "SPC_TERM_DT_"),
    ("Term Date Mode", "TERM_DT_MODE_")]

def validateSectionClassMbrGrp (abbr covr : String) : List Item :=
  ifNot (abbr = "CAN" || abbr = "CIB")
    (fieldsOf abbr covr [("Child Limiting Age", "CH_MAX_AGE_")]) ++
  ifNot (abbr = "GAP") (fieldsOf abbr covr [("Student Max Age", "STUD_MAX_AGE_")]) ++
  fieldsOf abbr covr [("Contract Type", "CNTRCT_TYPE_"), ("Seies", "SERIES_")]

def validateSectionSolar (abbr covr : String) : List Item :=
  fieldsOf abbr covr [
    ("Solar Group ID", "SOLAR_GRP_ID_"), ("Solar Sched. Seq. No", "SOLAR_SCHED_SEQ_NUM_"),
    ("Solar Seq No", "SOLAR_SEQ_NUM_"), ("Application Signature Date", "APP_SIG_DT_"),
    ("Plan Type", "PLAN_TYPE_"), ("Sub Plan/Plan ID", "PLAN_TYPE_ID_SUB_"),
    ("Administration Type", "SL_RTNG_ADMIN_"), ("TPA Allowance Percent", "TPA_ALLOW_"),
    ("Risk", "RISK_"), ("Actual Participation Percentage", "ACT_PARTIC_PCT_"),
    ("Rate Guarantee in Months", "RATE_GUAR_MO_"), ("Pooling Code", "POOLING_CD_"),
    ("Rate Change Reason Code", "RT_CHG_RSN_CD_")] ++
  -- the rates of critical illness have the abbreviation CI
  fieldsOf (if abbr = "CIB" then "CI" else abbr) covr [("Age-Banded Rates", "AGE_RATES_")]

def validateSection125 (abbr covr : String) : List Item :=
  fieldsOf abbr covr [("Section 125", "S125_PLAN_"), ("Section 125 Tax Option", "S125_TAX_")] ++
  ifNot (abbr = "GAP" || abbr = "ACC")
    (fieldsOf abbr covr [("Employer Contribution Amount", "EMP_CNTRB_MO_")]) ++
  ifNot (abbr = "CAN" || abbr = "ACC" || abbr = "GAP")
    (fieldsOf abbr covr [("Employee Contribution Amount", "EE_CNTRB_MO_")]) ++
  fieldsOf abbr covr [("Commission Scale", "COMM_SCALE_")] ++
  ifNot (abbr = "CAN" || abbr = "GAP" || abbr = "ACC")
    (fieldsOf abbr covr [("Minimum Number of Participating Lives", "MIN_PART_LVS_")]) ++
  fieldsOf abbr covr [("Service Fee", "SERVICE_FEE_"), ("Brokers Broker Fee", "BROKER_FEE_")]

/-! ## Tabs -/

def validateAccidentTab : List Item :=
  validateSection1 "ACC" "Accident" ++ validateSection2 "ACC" "Accident" ++
  fields [
    ("Accident Type", "ACC_TYPE"), ("Spouse Disability Benefit", "SP_DSBLTY_DUR"),
    ("Spouse Disability Benefit Amount", "SP_DSBLTY_AMT"), ("Wellness", "WELLNESS_BNFT_ACC"),
    ("Emergency Room", "EMERGENCY_ROOM"), ("Non-Emergency Room", "NON_EMERG_ROOM"),
    ("Employee Accidental Death", "ACCIDENTAL_DEATH"), ("Child Limiting Age", "CH_MAX_AGE_ACC"),
    ("Student Max Age", "STUDENT_AGE_ACC"), ("Contract Type", "CNTRCT_TYPE_ACC"),
    ("Seies", "SERIES_ACC")] "Accident" ++
  validateSection125 "ACC" "Accident" ++ validateSectionSolar "ACC" "Accident"

def validateCibTab : List Item :=
  validateSection1 "CIB" "CI" ++ validateSection2 "CIB" "CI" ++
  fields [
    ("Level", "LEVEL_CIB"), ("Wellness", "WELLNESS_CIB"), ("Recurrence Benefit", "RECRRNC_CIB"),
    ("Recurrence Timeframe", "RECRRNC_TIME_CIB"), ("Additional Occurance", "ADDNL_OCCRNC_CIB"),
    ("Employee Minimum Schedule Amount", "MIN_BNFT_EE_CIB"),
    ("Employee Maximum Schedule Amount", "MAX_BNFT_EE_CIB"),
    ("Spouse Minimum Schedule Amount", "MIN_BNFT_SP_CIB"),
    ("Spouse Maximum Schedule Amount", "MAX_BNFT_SP_CIB"),
    ("Child Minimum Schedule Amount", "MIN_BNFT_CH_CIB"),
    ("Child Maximum Schedule Amount", "MAX_BNFT_CH_CIB"),
    ("Employee Unit Amount", "UNIT_AMT_CIB"), ("Employee GI", "EMPLOYEE_GI_CIB"),
    ("Unit of Rounding for Age Deductions", "REDUC_RND_AMT_CIB"),
    ("Rounding Type", "REDUC_RND_TYP_CIB"), ("Reduction", "REDUCTION_CIB"),
    ("Pre-Existing", "PRE_EXST_CIB"), ("Waive Prior Coverage Pre Ex", "PR_CVG_CIB"),
    ("Increase Subject To New Pre Ex", "INCR_PRE_EXST_CIB")] "CI" ++
  validateSectionClassMbrGrp "CIB" "CI" ++ validateSection125 "CIB" "CI" ++
  validateSectionSolar "CIB" "CI"

def validateCancerTab : List Item :=
  validateSection1 "CAN" "Cancer" ++ validateSection2 "CAN" "Cancer" ++
  .eoi :: fields [("Pre-Existing", "PRE_EXIST_CAN")] "Cancer" ++
  validateSectionClassMbrGrp "CAN" "Cancer" ++ validateSection125 "CAN" "Cancer" ++
  validateSectionSolar "CAN" "Cancer"

def validateGapTab : List Item :=
  validateSection1 "GAP" "Gap" ++ validateSection2 "GAP" "Gap" ++
  fields [
    ("Inpatient", "INPATIENT_BNFT_GAP"), ("Outpatient", "OUTPATIENT_BNFT_GAP"),
    ("Physician", "PHYSICIAN_BNFT_GAP"), ("Wellness", "WELLNESS_BNFT_GAP"),
    ("Benefit Year", "BNFT_YEAR_GAP")] "Gap" ++
  validateSectionClassMbrGrp "GAP" "Gap" ++ validateSection125 "GAP" "Gap" ++
  validateSectionSolar "GAP" "Gap"

/-- `validateCovrTab(tab_nm)`: one test after the other, of which at most one holds. -/
def validateCovrTab (tab_nm : Str) : List Item :=
  ifNot (tab_nm ≠ "Accident".toList) validateAccidentTab ++
  ifNot (tab_nm ≠ "Critical Illness".toList) validateCibTab ++
  ifNot (tab_nm ≠ "Cancer".toList) validateCancerTab ++
  ifNot (tab_nm ≠ "Gap".toList) validateGapTab

/-- The fields of the policy tab. -/
def validatePolicyFields : List Item :=
  fields [
    ("Nature of business", "NATURE_BUS_POL"), ("Industry Code", "IND_CODE_POL"),
    ("Tax ID Number", "TAX_ID_NO_POL"), ("Employer Type", "EMPLOYER_TYPE_POL"),
    ("Legal Entity", "LEGAL_ENTTY_POL"),
    ("Post Scheme Install Status", "POST_SCHEME_INSTALL_STAT_POL"),
    ("Scheme Original Effective Date", "ORIG_EFF_DT_POL"),
    ("Policy Issue State", "CONTRACT_ST_POL"), ("Tax State", "TAX_ST_POL"),
    ("Tax City", "CITY_CD_POL"), ("Tax County", "COUNTY_POL"),
    ("Block of Business Code", "BLOCK_BSNSS_POL"), ("Cert Code", "CERT_PREP_CD_POL"),
    ("Booklet Code", "SOLAR_CD_POL"), ("Readable Code", "CTRT_POL"),
    ("Scheme Provider", "COMPANY_CD_POL"), ("Policy Type", "POL_TYPE_POL"),
    ("Life claim pay", "CLAIM_PAY_LIF_POL"), ("Dental claim pay", "CLAIM_PAY_DEN_POL"),
    ("Disability claim pay", "CLAIM_PAY_LTD_POL"), ("Discount card", "DISCOUNT_CARD_POL"),
    ("Account Executive", "ACCT_EXEC_POL"), ("Service Team", "SERV_TEAM_POL"),
    ("Customer Tier", "CUSTOMER_TIER_POL"),
    ("Manual Processing Required", "MANUAL_PROCESS_REQ_POL"), ("Tier Reason", "TIER_REASON_POL"),
    ("E-Commerce", "ECOMMERCE_POL"), ("Distribution Channel", "DSTRB_CHNL_POL"),
    ("Census indicator", "CENSUS_IND_POL"), ("Marketing Arrangement", "MRKTNG_ARRNGMT_POL"),
    ("Business Arrangement", "BSNSS_ARRANGMENT_POL"),
    ("Initial Bill Prep", "BILL_CERT_PREP_POL"),
    ("Employee Assistance Program", "EMP_ASST_PROG_POL"),
    ("Multiple Systems", "MULTIPLE_SYSTEMS_POL"),
    ("Other AEB Policies", "OTHER_FORTIS_POLICIES_POL"),
    ("Employees outside the U.S.", "EMP_NOT_IN_USA_POL"),
    ("Employees not A.A.W", "ACTVLY_AT_WORK_POL"), ("Administration", "ADMIN_POL"),
    ("Premium remitted net of TPA Allowance", "NET_TPA_ALLOW_POL"),
    ("Premium remitted net of commission", "NET_COMM_POL"), ("Privacy", "PRIVACY_POL"),
    ("Remote", "REMOTE_POL"), ("Status", "STATUS_POL"), ("Status Date", "STATUS_DT_POL"),
    ("Cancel/Rewrite/Spinoff", "ACTN_TYPE_POL"),
    ("Cancel/Rewrite/Spinoff Old Scheme No.", "CANCEL_REWRITE_OLD_POL"),
    ("Cancel/Rewrite/Spinoff Prior Coverage", "CASE_TYPE_COV_POL"),
    ("Annual Enrollment Type", "ENRLL_TYPE_DEN_POL"),
    ("Issue Begin Date", "ENRLL_BEG_PRD_DEN_POL"), ("Issue End Date", "ENRLL_END_PRD_DEN_POL"),
    ("Annual Enrollment Effective Date", "ANNUAL_ENRLL_EFF_DT_POL"),
    ("Future Begin Date", "FUT_BEG_PRD_POL"), ("Future End Date", "FUT_END_PRD_POL"),
    ("ASO/CSO Dental Coverages", "ASO_CSO_COVG_DEN"),
    ("ASO/CSO LTD Coverages", "ASO_CSO_COVG_LTD"), ("ASO/CSO STD Coverages", "ASO_CSO_COVG_STD"),
    ("ASO/CSO Plan Info", "ASO_CSO_PLAN_INFO_POL"),
    ("ASO/CSO Policy Number", "ASO_CSO_POLICY_NUM_POL"),
    ("Disability Benefit Tax Option", "DIS_BNFT_TAX_OPT_LTD_POL"),
    ("Policy Anniversary Date", "POL_ANNIV_DT_POL"), ("PARR Code", "PARR_CD_POL"),
    ("Renewal Type", "RENEW_TYP_POL"), ("Deliver Rate Letter", "DLVR_RT_LTTR_POL"),
    ("Combined Dividends", "COMB_DIV_POL"), ("Plans Combined for Rating", "PLAN_COMB_POL"),
    ("Schemes Combined for Rating", "SCHEME_COMB_POL"),
    ("Other Scheme Numbers", "OTH_SCHEM_NO_POL")] "Policy"

end Cdr
