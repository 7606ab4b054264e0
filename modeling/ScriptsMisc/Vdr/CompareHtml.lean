import Mathlib.Tactic.IntervalCases
import ScriptsMisc.Vdr.Worksheet

/-! # The dev/stage comparator for HTML pages

`vdr-compare-dev-stage(html).vbs` looks up each member of the dev sheet in the stage sheet by name
and walks down the two blocks in lock step, until the dev block is over.
-/

namespace CompareHtml

open Vbs Vdr

/-- `logError(str)`. -/
def logError (host : Host) (lastName firstName : Str) (coverage : Variant) (str : Str) :
    Log → Option Log :=
  Vdr.logError host 24 2 (.string lastName) (.string firstName) coverage str

/-- `lookup(str)`: the first row of the stage sheet, from row 7 on, whose name contains `str`. When
there is none it returns `Empty`, which counts as row 0. -/
def lookup (host : Host) (stage : Sheet) (str : Str) : Option ℕ := do
  let (lookup, _) ← (forTo 7 stage.usedRows).foldlM
    (fun ((lookup, notFound) : ℕ × Bool) m => do
      let name ← host.text (stage.cell m 1)
      -- every row is read, the first hit is kept
      return if inStr name str ≠ 0 ∧ notFound then (m, false) else (lookup, notFound))
    (0, true)
  return lookup

/-- The body of the `for b` loop, at row `j` of the dev sheet and row `k` of the stage sheet. -/
def compareCell (host : Host) (dev stage : Sheet) (lastName firstName : Str) (j k : ℕ) (log : Log)
    (b : ℕ) : Option Log :=
  let coverage := dev.cell j 3
  -- row 0, where nothing was found, raises an exception
  (stage.value k b).bind fun stageValue =>
    checkEq (dev.cell j b) stageValue (fun log => do
      let devText ← host.text (dev.cell j b)
      let stageText ← host.text stageValue
      logError host lastName firstName coverage
        (devText ++ "(dev) != ".toList ++ stageText ++ "(stage)".toList) log) log

/-- The body of the `for i` loop. -/
def compareMember (host : Host) (dev stage : Sheet) (log : Log) (i : ℕ) : Option Log :=
  (isMember dev i).bind fun member =>
    if member then
      (memberName host dev i).bind fun (lastName, firstName) =>
        (lookup host stage (lastName ++ ", ".toList ++ firstName)).bind fun nameRow =>
          forBlock dev i (fun d log => (forTo 2 dev.usedColumns).foldlM
            (compareCell host dev stage lastName firstName (i + d) (nameRow + d)) log) log
    else some log

/-- The loops. -/
def compareSheets (host : Host) (dev stage : Sheet) (log : Log) : Option Log :=
  (forTo 6 dev.usedRows).foldlM (compareMember host dev stage) log

/-- The run for a case and a frequency. -/
def run (host : Host) (dev stage : Sheet) : Option Report := report (compareSheets host dev stage)

/-! ## What the run compares -/

/-- The row of the stage sheet that the member in row `i` of the dev sheet is compared with. -/
def lookupRow (host : Host) (dev stage : Sheet) (i : ℕ) : Option ℕ :=
  (memberName host dev i).bind fun (lastName, firstName) =>
    lookup host stage (lastName ++ ", ".toList ++ firstName)

/-- The rows from row `k` of the stage sheet agree with the block in row `i` of the dev sheet, as
far as `=` can tell and in the columns the used range of the dev sheet suggests. -/
def RowsAgree (dev stage : Sheet) (i k : ℕ) : Prop :=
  ∃ n, Block dev i n ∧ ∀ d < n, ∀ b ∈ forTo 2 dev.usedColumns,
    ∃ stageValue, stage.value (k + d) b = some stageValue ∧
      eq (dev.cell (i + d) b) stageValue = some true

/-- Nothing that the run compares differs: each member it visits has a lookup row, and the rows
from there on agree. -/
def AllAgree (host : Host) (dev stage : Sheet) : Prop :=
  ∀ i ∈ forTo 6 dev.usedRows, ∃ member, isMember dev i = some member ∧
    (member = true → ∃ k, lookupRow host dev stage i = some k ∧ RowsAgree dev stage i k)

/-- A comparison of two cells decides whether they are equal. -/
theorem compareCell_decides (host : Host) (dev stage : Sheet) (lastName firstName : Str)
    (j k b : ℕ) :
    Verdict.Decides Log.errors
      (fun log => compareCell host dev stage lastName firstName j k log b)
      (∃ stageValue, stage.value k b = some stageValue ∧
        eq (dev.cell j b) stageValue = some true) := by
  refine .value fun stageValue _ => checkEq_decides _ _ fun log log' herror => ?_
  simp only [Option.bind_eq_bind, Option.bind_eq_some_iff] at herror
  obtain ⟨_, -, _, -, herror⟩ := herror
  exact logError_errors herror

/-- One of two members decides whether their rows agree. -/
theorem compareMember_decides (host : Host) (dev stage : Sheet) (i : ℕ) :
    Verdict.Decides Log.errors (fun log => compareMember host dev stage log i)
      (∃ member, isMember dev i = some member ∧
        (member = true → ∃ k, lookupRow host dev stage i = some k ∧ RowsAgree dev stage i k)) := by
  have hblock : ∀ lastName firstName nameRow, Verdict.Decides Log.errors
      (forBlock dev i fun d log => (forTo 2 dev.usedColumns).foldlM
        (compareCell host dev stage lastName firstName (i + d) (nameRow + d)) log)
      (RowsAgree dev stage i nameRow) := fun lastName firstName nameRow =>
    forBlock_decides fun d => .foldlM fun b _ =>
      compareCell_decides host dev stage lastName firstName (i + d) (nameRow + d) b
  refine (Verdict.Decides.value fun member _ => Verdict.Decides.ite (c := member = true)
    (fun _ => Verdict.Decides.value fun name _ => Verdict.Decides.value fun nameRow _ =>
      hblock name.1 name.2 nameRow) (fun _ => Verdict.decides_pass)).congr ?_
  refine exists_congr fun member => and_congr_right fun _ => ?_
  constructor
  · rintro ⟨hmember, -⟩ h
    obtain ⟨name, hname, k, hlookup, hagree⟩ := hmember h
    exact ⟨k, Option.bind_eq_some_iff.mpr ⟨name, hname, hlookup⟩, hagree⟩
  · refine fun h => ⟨fun hmember => ?_, fun _ => trivial⟩
    obtain ⟨k, hrow, hagree⟩ := h hmember
    obtain ⟨name, hname, hlookup⟩ := Option.bind_eq_some_iff.mp hrow
    exact ⟨name, hname, k, hlookup, hagree⟩

/-- The run logs OK exactly when nothing that it compares differs. -/
theorem logsOk_run_iff (host : Host) (dev stage : Sheet) :
    LogsOk (run host dev stage) ↔ AllAgree host dev stage :=
  logsOk_report_iff (.foldlM fun i _ => compareMember_decides host dev stage i)

/-! ## What the verdict says -/

/-- The member in row `i` of one sheet and the member in row `i'` of the other are the same, and
their blocks agree row by row. -/
def Matches (dev stage : Sheet) (i i' : ℕ) : Prop :=
  dev.cell i 1 = stage.cell i' 1 ∧
    ∃ n, Block dev i n ∧ Block stage i' n ∧
      ∀ d < n, ∀ b ≥ 2, dev.cell (i + d) b = stage.cell (i' + d) b

/-- Both sheets have the same members, with the same blocks. -/
def SameMembers (dev stage : Sheet) : Prop :=
  (∀ i, MemberRow dev i → ∃ i', MemberRow stage i' ∧ Matches dev stage i i') ∧
    ∀ i', MemberRow stage i' → ∃ i, MemberRow dev i ∧ Matches dev stage i i'

/-- The member in row `i` is visited and compared in full with its own block of the stage sheet: the
lookup finds the member of that name, whose block is as long, and where a cell is in a column that
is not visited, or the two values are not the same though `=` says so, the cells agree. -/
def Checked (host : Host) (dev stage : Sheet) (i i' : ℕ) : Prop :=
  i ≤ dev.usedRows ∧ lookupRow host dev stage i = some i' ∧ MemberRow stage i' ∧
    dev.cell i 1 = stage.cell i' 1 ∧
    ∃ n, Block dev i n ∧ Block stage i' n ∧
      ∀ d < n, ∀ b ≥ 2,
        (b ≤ dev.usedColumns ∧ (eq (dev.cell (i + d) b) (stage.cell (i' + d) b) = some true →
          dev.cell (i + d) b = stage.cell (i' + d) b)) ∨
        dev.cell (i + d) b = stage.cell (i' + d) b

/-- Every member that is not compared in full with its own block has an equal block all the same,
and so has every member of the stage sheet that no member is compared with. -/
def OthersMatch (host : Host) (dev stage : Sheet) : Prop :=
  (∀ i, MemberRow dev i → (∃ i', Checked host dev stage i i') ∨
      ∃ i', MemberRow stage i' ∧ Matches dev stage i i') ∧
    ∀ i', MemberRow stage i' → (∃ i, MemberRow dev i ∧ Checked host dev stage i i') ∨
      ∃ i, MemberRow dev i ∧ Matches dev stage i i'

/-- A block that is compared in full, and without a difference, is the same in both sheets. -/
theorem Checked.matches {host : Host} {dev stage : Sheet} {i i' : ℕ}
    (hagree : AllAgree host dev stage) (hi : MemberRow dev i)
    (h : Checked host dev stage i i') : Matches dev stage i i' := by
  obtain ⟨hvisited, hrow, -, hname, n, hdev, hstage, hcells⟩ := h
  obtain ⟨member, hmember, hrows⟩ := hagree i (mem_forTo.mpr ⟨hi.1, hvisited⟩)
  obtain rfl := Option.some.inj (hi.2.symm.trans hmember)
  obtain ⟨k, hrow', m, hblock, heq⟩ := hrows rfl
  obtain rfl := Option.some.inj (hrow.symm.trans hrow')
  obtain rfl := hblock.unique hdev
  refine ⟨hname, m, hdev, hstage, fun d hd b hb => ?_⟩
  rcases hcells d hd b hb with ⟨hcolumn, hexact⟩ | hsame
  · obtain ⟨stageValue, hvalue, htrue⟩ := heq d hd b (mem_forTo.mpr ⟨hb, hcolumn⟩)
    apply hexact
    rw [Sheet.value] at hvalue
    split at hvalue
    · exact absurd hvalue (by simp)
    · rwa [Option.some.inj hvalue]
  · exact hsame

/-- An OK verdict is sound exactly when, should nothing that is compared differ, everything that is
not compared agrees as well. -/
theorem sameMembers_of_ok_iff (host : Host) (dev stage : Sheet) :
    (LogsOk (run host dev stage) → SameMembers dev stage) ↔
      (AllAgree host dev stage → OthersMatch host dev stage) := by
  rw [logsOk_run_iff]
  refine forall_congr' fun hagree => ?_
  constructor
  · rintro ⟨hdev, hstage⟩
    exact ⟨fun i hi => Or.inr (hdev i hi), fun i' hi' => Or.inr (hstage i' hi')⟩
  · rintro ⟨hdev, hstage⟩
    refine ⟨fun i hi => ?_, fun i' hi' => ?_⟩
    · rcases hdev i hi with ⟨i', hchecked⟩ | h
      · exact ⟨i', hchecked.2.2.1, hchecked.matches hagree hi⟩
      · exact h
    · rcases hstage i' hi' with ⟨i, hi, hchecked⟩ | h
      · exact ⟨i, hi, hchecked.matches hagree hi⟩
      · exact h

/-- A page with one member, and a second one that has a member more. -/
def oneMember : Sheet :=
  ⟨[[.string "VDR".toList], [], [], [], [],
    [.string "Name".toList, .string "DOB".toList, .string "Coverage".toList],
    [.string "Lee, Ann".toList, .string "1/1/1970".toList, .string "PPD DEN EE".toList],
    [.string "Total".toList]]⟩

@[inherit_doc oneMember]
def twoMembers : Sheet :=
  ⟨oneMember.rows ++
    [[.string "Roe, Sam".toList, .string "2/2/1980".toList, .string "PPD DEN EE".toList],
      [.string "Total".toList]]⟩

/-- The member that only the stage sheet has is never looked at. -/
theorem run_misses_stage_member :
    (∀ sheet ∈ [oneMember, twoMembers], ∀ i, MemberRow sheet i → ∃ n, Block sheet i n) ∧
      ¬ SameMembers oneMember twoMembers ∧ ∀ host, LogsOk (run host oneMember twoMembers) := by
  have hone : ∀ i, MemberRow oneMember i → i = 7 := by
    intro i hi
    have hle : i ≤ 8 := hi.le_length
    obtain ⟨h6, hmember⟩ := hi
    interval_cases i
    · exact absurd hmember (by decide)
    · rfl
    · exact absurd hmember (by decide)
  have htwo : ∀ i, MemberRow twoMembers i → i = 7 ∨ i = 9 := by
    intro i hi
    have hle : i ≤ 10 := hi.le_length
    obtain ⟨h6, hmember⟩ := hi
    interval_cases i
    · exact absurd hmember (by decide)
    · exact Or.inl rfl
    · exact absurd hmember (by decide)
    · exact Or.inr rfl
    · exact absurd hmember (by decide)
  refine ⟨fun sheet hsheet i hi => ⟨1, ?_⟩, fun h => ?_, fun host => ?_⟩
  · rcases List.mem_cons.mp hsheet with rfl | hsheet
    · obtain rfl := hone i hi
      exact ⟨by decide, by decide⟩
    · obtain rfl := List.mem_singleton.mp hsheet
      rcases htwo i hi with rfl | rfl
      · exact ⟨by decide, by decide⟩
      · exact ⟨by decide, by decide⟩
  · obtain ⟨i, hi, hname, -⟩ := h.2 9 ⟨by decide, by decide⟩
    obtain rfl := hone i hi
    exact absurd hname (by decide)
  · exact ⟨⟨[], true⟩, rfl, rfl⟩

end CompareHtml
