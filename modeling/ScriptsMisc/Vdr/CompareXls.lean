import ScriptsMisc.Vdr.Worksheet

/-! # The dev/stage comparator for XLS exports

`vdr-compare-dev-stage(xls).vbs` compares two sheets cell by cell, over the rows and columns that
the used range of the dev sheet suggests.
-/

namespace CompareXls

open Vbs Vdr

/-- `logError(str)`. -/
def logError (host : Host) (lastName firstName coverage : Variant) (str : Str) :
    Log → Option Log :=
  Vdr.logError host 24 2 lastName firstName coverage str

/-- The body of the inner loop, at row `i` and column `j`. -/
def compareCell (host : Host) (dev stage : Sheet) (i : ℕ) (log : Log) (j : ℕ) : Option Log :=
  let firstName := dev.cell i 1
  let lastName := dev.cell i 2
  let coverage := dev.cell 5 j
  checkEq (dev.cell i j) (stage.cell i j) (fun log => do
    let devText ← host.text (dev.cell i j)
    let stageText ← host.text (stage.cell i j)
    logError host lastName firstName coverage
      (devText ++ "(dev) != ".toList ++ stageText ++ "(stage)".toList) log) log

/-- The body of the outer loop, at row `i`. -/
def compareRow (host : Host) (dev stage : Sheet) (log : Log) (i : ℕ) : Option Log :=
  (forTo 1 dev.usedColumns).foldlM (compareCell host dev stage i) log

/-- The two loops. -/
def compareSheets (host : Host) (dev stage : Sheet) (log : Log) : Option Log :=
  (forTo 6 (dev.usedRows + 3)).foldlM (compareRow host dev stage) log

/-- The run for a case and a frequency. -/
def run (host : Host) (dev stage : Sheet) : Option Report := report (compareSheets host dev stage)

/-! ## What the verdict says -/

/-- Every data cell holds the same value in both sheets. -/
def SameData (dev stage : Sheet) : Prop :=
  ∀ i j, 6 ≤ i → 1 ≤ j → dev.cell i j = stage.cell i j

/-- A difference that `=` sees, or an error value next to another value, in the rectangle of rows
and columns that the used range of `dev` suggests. -/
def DifferenceSeen (dev stage : Sheet) : Prop :=
  ∃ i ∈ forTo 6 (dev.usedRows + 3), ∃ j ∈ forTo 1 dev.usedColumns,
    eq (dev.cell i j) (stage.cell i j) ≠ some true

instance (dev stage : Sheet) : Decidable (DifferenceSeen dev stage) := by
  unfold DifferenceSeen; infer_instance

/-- A comparison of two cells decides whether they are equal. -/
theorem compareCell_decides (host : Host) (dev stage : Sheet) (i j : ℕ) :
    Verdict.Decides Log.errors (fun log => compareCell host dev stage i log j)
      (eq (dev.cell i j) (stage.cell i j) = some true) := by
  refine checkEq_decides _ _ fun log log' herror => ?_
  simp only [Option.bind_eq_bind, Option.bind_eq_some_iff] at herror
  obtain ⟨_, -, _, -, herror⟩ := herror
  exact logError_errors herror

/-- The run logs OK exactly when no difference is seen. -/
theorem logsOk_run_iff (host : Host) (dev stage : Sheet) :
    LogsOk (run host dev stage) ↔ ¬ DifferenceSeen dev stage := by
  have hdecides : Verdict.Decides Log.errors (compareSheets host dev stage)
      (∀ i ∈ forTo 6 (dev.usedRows + 3), ∀ j ∈ forTo 1 dev.usedColumns,
        eq (dev.cell i j) (stage.cell i j) = some true) :=
    .foldlM fun i _ => .foldlM fun j _ => compareCell_decides host dev stage i j
  rw [run, logsOk_report_iff hdecides, DifferenceSeen]
  push Not
  rfl

/-- It does not matter which of the sheets comes first. -/
theorem SameData.symm {dev stage : Sheet} (h : SameData dev stage) : SameData stage dev :=
  fun i j hi hj => (h i j hi hj).symm

/-- Equal data are compared as equal. -/
theorem SameData.not_differenceSeen {dev stage : Sheet} (h : SameData dev stage) :
    ¬ DifferenceSeen dev stage := by
  rintro ⟨i, hi, j, hj, hne⟩
  apply hne
  rw [h i j (mem_forTo.mp hi).1 (mem_forTo.mp hj).1]
  exact eq_self _

/-- The verdict decides equality, either way round, exactly when the data are equal or a difference
is seen in the rectangle of either sheet. -/
theorem run_decides_equality (host : Host) (dev stage : Sheet) :
    ((LogsOk (run host dev stage) ↔ SameData dev stage) ∧
      (LogsOk (run host dev stage) ↔ LogsOk (run host stage dev))) ↔
    (SameData dev stage ∨ DifferenceSeen dev stage ∧ DifferenceSeen stage dev) := by
  rw [logsOk_run_iff, logsOk_run_iff]
  constructor
  · rintro ⟨hsame, hswap⟩
    by_cases h : SameData dev stage
    · exact Or.inl h
    · have hdev : DifferenceSeen dev stage := by
        by_contra hunseen
        exact h (hsame.mp hunseen)
      refine Or.inr ⟨hdev, ?_⟩
      by_contra hunseen
      exact hswap.mpr hunseen hdev
  · rintro (h | ⟨hdev, hstage⟩)
    · exact ⟨iff_of_true h.not_differenceSeen h,
        iff_of_true h.not_differenceSeen h.symm.not_differenceSeen⟩
    · have hne : ¬ SameData dev stage := fun h => h.not_differenceSeen hdev
      exact ⟨iff_of_false (fun h => h hdev) hne, iff_of_false (fun h => h hdev) (fun h => h hstage)⟩

/-- An export with one member, and a second one that has one more column. -/
def oneColumn : Sheet :=
  ⟨[[], [], [], [.string "Export".toList],
    [.string "First Name".toList, .string "Last Name".toList],
    [.string "Ann".toList, .string "Lee".toList]]⟩

@[inherit_doc oneColumn]
def twoColumns : Sheet :=
  ⟨[[], [], [], [.string "Export".toList],
    [.string "First Name".toList, .string "Last Name".toList, .string "Plan".toList],
    [.string "Ann".toList, .string "Lee".toList, .string "PPD".toList]]⟩

/-- The column that only the stage sheet has is never visited; with the sheets swapped it is. -/
theorem run_misses_column :
    ¬ SameData oneColumn twoColumns ∧
      ∀ host, LogsOk (run host oneColumn twoColumns) ∧
        ¬ LogsOk (run host twoColumns oneColumn) := by
  refine ⟨fun h => absurd (h 6 3 (by decide) (by decide)) (by decide), fun host => ?_⟩
  rw [logsOk_run_iff, logsOk_run_iff, not_not]
  decide +kernel

end CompareXls
