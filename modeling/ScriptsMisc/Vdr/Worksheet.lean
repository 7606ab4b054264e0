import ScriptsMisc.Lib.Verdict
import ScriptsMisc.Vbs.Variant

/-! # Worksheets and the error log

What the three comparators of the VDR helper share: the sheets they read, the log they write and the
functions `toNum` and `logError`.
-/

namespace Vdr

open Vbs

/-! ## Sheets -/

/-- A worksheet, row by row; below the last row and behind the last cell of a row it is empty. -/
structure Sheet where
  rows : List (List Variant)
deriving DecidableEq, Repr

/-- The value of the cell in row `i` and column `j`, both counted from 1. -/
def Sheet.cell (sheet : Sheet) (i j : ℕ) : Variant :=
  ((sheet.rows[i - 1]?).bind (·[j - 1]?)).getD .empty

/-- `sheet.Rows(i).Columns(j).Value`; there is no row 0 and no column 0. -/
def Sheet.value (sheet : Sheet) (i j : ℕ) : Option Variant :=
  if i = 0 ∨ j = 0 then none else some (sheet.cell i j)

/-- The length of a list without the entries at its two ends that do not count. -/
def usedCount (used : List Bool) : ℕ :=
  -- an empty sheet has one used cell
  max 1 (((used.dropWhile (!·)).reverse.dropWhile (!·)).length)

/-- `UsedRange.Rows.Count`. -/
def Sheet.usedRows (sheet : Sheet) : ℕ :=
  usedCount (sheet.rows.map fun row => row.any (· ≠ .empty))

/-- `UsedRange.Columns.Count`. -/
def Sheet.usedColumns (sheet : Sheet) : ℕ :=
  usedCount ((List.range ((sheet.rows.map List.length).foldr max 0)).map fun j =>
    sheet.rows.any fun row => (row[j]?).getD .empty ≠ .empty)

/-- `for i = first to last`. -/
def forTo (first last : ℕ) : List ℕ := List.range' first (last + 1 - first)

theorem mem_forTo {first last i : ℕ} : i ∈ forTo first last ↔ first ≤ i ∧ i ≤ last := by
  rw [forTo, List.mem_range'_1]
  omega

/-- What a loop over a range still has to visit. -/
theorem mem_after_forTo {first last m c : ℕ} {before after : List ℕ}
    (h : forTo first last = before ++ m :: after) : c ∈ after ↔ m < c ∧ c ≤ last := by
  have hsorted : (before ++ m :: after).Pairwise (· < ·) := h ▸ List.pairwise_lt_range'
  obtain ⟨-, hafter, hbefore⟩ := List.pairwise_append.mp hsorted
  have hmem : ∀ d, d ∈ before ++ m :: after ↔ first ≤ d ∧ d ≤ last := fun d => by
    rw [← h, mem_forTo]
  constructor
  · intro hc
    refine ⟨(List.pairwise_cons.mp hafter).1 c hc, ?_⟩
    exact ((hmem c).mp (List.mem_append_right before (List.mem_cons_of_mem m hc))).2
  · rintro ⟨hlt, hle⟩
    have hm := (hmem m).mp (List.mem_append_right before List.mem_cons_self)
    rcases List.mem_append.mp ((hmem c).mpr ⟨by omega, hle⟩) with hc | hc
    · have hcm := hbefore c hc m List.mem_cons_self
      omega
    · exact (List.mem_cons.mp hc).resolve_left (by omega)

/-- The last hit of a loop over a range of numbers. -/
theorem lastHit_forTo {f : ℕ → Option Bool} {first last m : ℕ} :
    Verdict.LastHit f (forTo first last) m ↔
      (first ≤ m ∧ m ≤ last) ∧ f m = some true ∧ ∀ c, m < c → c ≤ last → f c = some false := by
  constructor
  · rintro ⟨before, after, hsplit, hm, hafter⟩
    have hmem : m ∈ forTo first last := by
      rw [hsplit]
      exact List.mem_append_right before List.mem_cons_self
    exact ⟨mem_forTo.mp hmem, hm, fun c hlt hle =>
      hafter c ((mem_after_forTo hsplit).mpr ⟨hlt, hle⟩)⟩
  · rintro ⟨hm, hhit, hlater⟩
    obtain ⟨before, after, hsplit⟩ := List.append_of_mem (mem_forTo.mpr hm)
    refine ⟨before, after, hsplit, hhit, fun c hc => ?_⟩
    obtain ⟨hlt, hle⟩ := (mem_after_forTo hsplit).mp hc
    exact hlater c hlt hle

/-! ## Numbers and the log -/

/-- `toNum(obj)`: the number before the first blank, without dollar signs. -/
def toNum (host : Host) (obj : Variant) : Option ℚ := do
  if (← eq obj (.string [])) then
    return 0
  let first ← (split (← host.text obj) " ".toList)[0]?
  host.cDbl (first.filter (· ≠ '$'))

/-- A line about a case that has errors: `caseID(n) - The following errors were found:`, then one
line for each error. -/
inductive Entry where
  | errorsFound
  | error (text : Str)
deriving DecidableEq, Repr

/-- The log of a run and the variable `errors`. -/
structure Log where
  errors : Bool
  entries : List Entry
deriving DecidableEq, Repr

/-- `for tabC = 0 to ceil(numTabs)`. -/
def tabs (numTabs : ℚ) : Str := List.replicate (ceil numTabs + 1).toNat '\t'

/-- `logError(str)`, which pads the name to `width` and both name and coverage for `extra` more
characters; an error value among its parts raises a run-time error. -/
def logError (host : Host) (width extra : ℕ) (lastName firstName coverage : Variant) (str : Str)
    (log : Log) : Option Log := do
  let lastName ← host.text lastName
  let firstName ← host.text firstName
  let coverage ← host.text coverage
  let numTabs1 : ℚ := (width - ((lastName ++ firstName).length + extra)) / 4
  let numTabs2 : ℚ := (30 - (coverage.length + extra)) / 4
  let line := lastName ++ ", ".toList ++ firstName ++ tabs numTabs1 ++ "[".toList ++ coverage ++
    "] ".toList ++ tabs numTabs2 ++ str
  return ⟨true, log.entries ++ (if log.errors then [] else [.errorsFound]) ++ [.error line]⟩

/-- What a run for a case and a frequency writes: its entries and, where `ok` is set, the line
`caseID(n) - OK`. -/
structure Report where
  entries : List Entry
  ok : Bool
deriving DecidableEq, Repr

/-- A run: the comparison, then the verdict. -/
def report (compare : Log → Option Log) : Option Report :=
  (compare ⟨false, []⟩).map fun log => ⟨log.entries, !log.errors⟩

/-- The run comes to its end and writes `caseID(n) - OK`. -/
def LogsOk (run : Option Report) : Prop := ∃ report, run = some report ∧ report.ok = true

instance (run : Option Report) : Decidable (LogsOk run) :=
  decidable_of_iff ((run.any (·.ok)) = true) (by
    cases run <;> simp [LogsOk])

/-- After an error there are errors. -/
theorem logError_errors {host : Host} {width extra : ℕ} {lastName firstName coverage : Variant}
    {str : Str} {log log' : Log}
    (h : logError host width extra lastName firstName coverage str log = some log') :
    log'.errors = true := by
  simp only [logError, Option.bind_eq_bind, Option.bind_eq_some_iff, Option.pure_def] at h
  obtain ⟨_, -, _, -, _, -, h⟩ := h
  rw [← Option.some.inj h]

/-- The verdict of a run is what its comparison decides. -/
theorem logsOk_report_iff {compare : Log → Option Log} {P : Prop}
    (h : Verdict.Decides Log.errors compare P) : LogsOk (report compare) ↔ P := by
  have hstart := h ⟨false, []⟩
  constructor
  · rintro ⟨_, hreport, hok⟩
    obtain ⟨log, hcompare, rfl⟩ := Option.map_eq_some_iff.mp hreport
    exact (hstart.mp ⟨log, hcompare, by simpa using hok⟩).2
  · intro hP
    obtain ⟨log, hcompare, herrors⟩ := hstart.mpr ⟨rfl, hP⟩
    exact ⟨_, Option.map_eq_some_iff.mpr ⟨log, hcompare, rfl⟩, by simp [herrors]⟩

/-- Compare two values; where they differ, log an error, whose text is `none` when one of the
values has none. -/
def checkEq (v w : Variant) (error : Log → Option Log) (log : Log) : Option Log :=
  (eq v w).bind fun equal => if equal then some log else error log

/-- A check of two values decides whether they are equal. -/
theorem checkEq_decides (v w : Variant) {error : Log → Option Log}
    (herror : ∀ log log', error log = some log' → log'.errors = true) :
    Verdict.Decides Log.errors (checkEq v w error) (eq v w = some true) := by
  have hbody : ∀ equal : Bool, Verdict.Decides Log.errors
      (fun log => if equal then some log else error log)
      ((equal = true → True) ∧ (¬ equal = true → False)) := fun equal =>
    .ite (fun _ => Verdict.decides_pass) (fun _ => Verdict.decides_fail herror)
  have hcheck := Verdict.Decides.value (o := eq v w) fun equal _ => hbody equal
  apply hcheck.congr
  constructor
  · rintro ⟨equal, heq, -, hfalse⟩
    cases equal with
    | true => exact heq
    | false => exact absurd Bool.false_ne_true hfalse
  · intro heq
    exact ⟨true, heq, fun _ => trivial, fun h => h rfl⟩

/-! ## Member blocks of the HTML sheets -/

/-- `(Columns(2).Value <> "DOB") and (Columns(2).Value <> "")` in row `i`. -/
def isMember (sheet : Sheet) (i : ℕ) : Option Bool := do
  let dob ← eq (sheet.cell i 2) (.string "DOB".toList)
  let blank ← eq (sheet.cell i 2) (.string [])
  return !dob && !blank

/-- `lastName` and `firstName` of the member in row `i`. -/
def memberName (host : Host) (sheet : Sheet) (i : ℕ) : Option (Str × Str) := do
  let name ← host.text (sheet.cell i 1)
  -- a name without a comma raises an exception
  let rest ← (split name ", ".toList)[1]?
  let firstName ← (split rest " ".toList)[0]?
  let lastName ← (split name ", ".toList)[0]?
  return (lastName, firstName)

/-- `Rows(j).Columns(1).Value = "Total"`. -/
def isTotal (sheet : Sheet) (j : ℕ) : Option Bool := eq (sheet.cell j 1) (.string "Total".toList)

/-- `while Rows(j).Columns(1).Value <> "Total"`, at row `j = i + d`. Below the last of the rows the
loop runs off the sheet. -/
def whileNotTotal (sheet : Sheet) (i : ℕ) (body : ℕ → Log → Option Log) :
    (rows : ℕ) → (d : ℕ) → Log → Option Log
  | 0, _, _ => none
  | rows + 1, d, log =>
    (isTotal sheet (i + d)).bind fun total =>
      if total then some log
      else (body d log).bind (whileNotTotal sheet i body rows (d + 1))

/-- The loop over the block of a member, from its first row. -/
def forBlock (sheet : Sheet) (i : ℕ) (body : ℕ → Log → Option Log) : Log → Option Log :=
  whileNotTotal sheet i body (sheet.rows.length + 1 - i) 0

/-- A row of a member. -/
def MemberRow (sheet : Sheet) (i : ℕ) : Prop := 6 ≤ i ∧ isMember sheet i = some true

/-- The block that starts in row `i` has `n` rows, and a `Total` row behind them. -/
def Block (sheet : Sheet) (i n : ℕ) : Prop :=
  isTotal sheet (i + n) = some true ∧ ∀ d < n, isTotal sheet (i + d) = some false

/-- Below the last row there is nothing. -/
theorem cell_eq_empty {sheet : Sheet} {i : ℕ} (h : sheet.rows.length < i) (j : ℕ) :
    sheet.cell i j = .empty := by
  rw [Sheet.cell, List.getElem?_eq_none (by omega)]
  rfl

/-- A member is in one of the rows. -/
theorem MemberRow.le_length {sheet : Sheet} {i : ℕ} (h : MemberRow sheet i) :
    i ≤ sheet.rows.length := by
  by_contra hlt
  have hmember := h.2
  rw [isMember, cell_eq_empty (by omega)] at hmember
  exact absurd hmember (by decide)

/-- A loop over a block decides whether all of its rows agree. -/
theorem whileNotTotal_decides {sheet : Sheet} {i : ℕ} {body : ℕ → Log → Option Log}
    {P : ℕ → Prop} (h : ∀ d, Verdict.Decides Log.errors (body d) (P d)) :
    ∀ rows d, sheet.rows.length < i + d + rows →
      Verdict.Decides Log.errors (whileNotTotal sheet i body rows d)
        (∃ n, d ≤ n ∧ isTotal sheet (i + n) = some true ∧
          ∀ e, d ≤ e → e < n → isTotal sheet (i + e) = some false ∧ P e) := by
  intro rows
  induction rows with
  | zero =>
    intro d hd
    refine Verdict.decides_raise.congr (iff_of_false id ?_)
    rintro ⟨n, hn, htotal, -⟩
    rw [isTotal, cell_eq_empty (by omega)] at htotal
    exact absurd htotal (by decide)
  | succ rows ih =>
    intro d hd
    have hrest := (h d).bind (ih (d + 1) (by omega))
    refine (Verdict.Decides.value (fun total _ => Verdict.Decides.ite (c := total = true)
      (fun _ => Verdict.decides_pass) (fun _ => hrest))).congr ?_
    constructor
    · rintro ⟨total, htotal, -, hcontinue⟩
      cases total with
      | true => exact ⟨d, le_rfl, htotal, fun e he hlt => absurd hlt (by omega)⟩
      | false =>
        obtain ⟨hP, n, hn, hend, hrows⟩ := hcontinue Bool.false_ne_true
        refine ⟨n, by omega, hend, fun e he hlt => ?_⟩
        rcases Nat.eq_or_lt_of_le he with rfl | hlt'
        · exact ⟨htotal, hP⟩
        · exact hrows e hlt' hlt
    · rintro ⟨n, hn, hend, hrows⟩
      rcases Nat.eq_or_lt_of_le hn with rfl | hlt
      · exact ⟨true, hend, fun _ => trivial, fun hne => absurd rfl hne⟩
      · obtain ⟨htotal, hP⟩ := hrows d le_rfl hlt
        refine ⟨false, htotal, fun hfalse => absurd hfalse Bool.false_ne_true, fun _ => ⟨hP, n, hlt,
          hend, fun e he => hrows e (by omega)⟩⟩

/-- The loop over a block decides that the block is closed, and for each of its rows what the body
decides. -/
theorem forBlock_decides {sheet : Sheet} {i : ℕ} {body : ℕ → Log → Option Log} {P : ℕ → Prop}
    (h : ∀ d, Verdict.Decides Log.errors (body d) (P d)) :
    Verdict.Decides Log.errors (forBlock sheet i body) (∃ n, Block sheet i n ∧ ∀ d < n, P d) := by
  refine (whileNotTotal_decides h _ 0 (by omega)).congr ?_
  constructor
  · rintro ⟨n, -, htotal, hrows⟩
    exact ⟨n, ⟨htotal, fun d hd => (hrows d (Nat.zero_le d) hd).1⟩,
      fun d hd => (hrows d (Nat.zero_le d) hd).2⟩
  · rintro ⟨n, ⟨htotal, hrows⟩, hP⟩
    exact ⟨n, Nat.zero_le n, htotal, fun e _ he => ⟨hrows e he, hP e he⟩⟩

/-- A block has one length. -/
theorem Block.unique {sheet : Sheet} {i m n : ℕ} (hm : Block sheet i m) (hn : Block sheet i n) :
    m = n := by
  rcases lt_trichotomy m n with hlt | heq | hlt
  · exact absurd (hm.1.symm.trans (hn.2 m hlt)) (by decide)
  · exact heq
  · exact absurd (hn.1.symm.trans (hm.2 n hlt)) (by decide)

end Vdr
