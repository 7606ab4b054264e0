import ScriptsMisc.Lib.Reports
import ScriptsMisc.Vdr.CompareHtml
import ScriptsMisc.Vdr.CompareHtmlXls
import ScriptsMisc.Vdr.CompareXls

/-! # The reports of the comparators

What the three comparators write for a case and a frequency, line by line: a run that comes to its
end lists every difference it meets once, in the order in which it walks through the sheets, below
one heading, and nothing else.
-/

namespace Vdr

open Reports Vbs

/-- Error lines in a log; the first one comes with the heading. -/
def Log.add (log : Log) : List Str → Log
  | [] => log
  | lines@(_ :: _) =>
    ⟨true, log.entries ++ (if log.errors then [] else [.errorsFound]) ++ lines.map .error⟩

theorem Log.add_append (log : Log) (xs ys : List Str) :
    log.add (xs ++ ys) = (log.add xs).add ys := by
  cases xs with
  | nil => rfl
  | cons x xs =>
    cases ys with
    | nil => rw [List.append_nil, Log.add, Log.add]
    | cons y ys => simp [Log.add]

/-- The log of a comparator. -/
def writer : LogWriter Log Str where
  write := Log.add
  write_nil _ := rfl
  write_append := Log.add_append

/-- The report with these error lines. -/
def Report.of : List Str → Report
  | [] => ⟨[], true⟩
  | lines@(_ :: _) => ⟨.errorsFound :: lines.map .error, false⟩

/-- The line `logError(str)` writes. -/
def errorLine (host : Host) (width extra : ℕ) (lastName firstName coverage : Variant) (str : Str) :
    Option Str := do
  let lastName ← host.text lastName
  let firstName ← host.text firstName
  let coverage ← host.text coverage
  let numTabs1 : ℚ := (width - ((lastName ++ firstName).length + extra)) / 4
  let numTabs2 : ℚ := (30 - (coverage.length + extra)) / 4
  return lastName ++ ", ".toList ++ firstName ++ tabs numTabs1 ++ "[".toList ++ coverage ++
    "] ".toList ++ tabs numTabs2 ++ str

/-- An error adds its line. -/
theorem logError_eq (host : Host) (width extra : ℕ) (lastName firstName coverage : Variant)
    (str : Str) (log : Log) :
    logError host width extra lastName firstName coverage str log =
      (errorLine host width extra lastName firstName coverage str).map fun line =>
        log.add [line] := by
  unfold logError errorLine
  cases host.text lastName with
  | none => rfl
  | some lastName =>
    cases host.text firstName with
    | none => rfl
    | some firstName =>
      cases host.text coverage with
      | none => rfl
      | some coverage => rfl

/-- A run writes the report of the lines that its comparison writes. -/
theorem report_eq {compare : Log → Option Log} {lines : Option (List Str)}
    (h : Writes writer compare lines) : report compare = lines.map Report.of := by
  unfold report
  rw [h ⟨false, []⟩, Option.map_map]
  congr 1
  funext lines
  cases lines with
  | nil => rfl
  | cons line lines => rfl

/-- Two values, and the line for them where they differ. -/
theorem checkEq_writes (v w : Variant) {error : Log → Option Log} {line : Option Str}
    (herror : ∀ log, error log = line.map fun line => log.add [line]) :
    Writes writer (checkEq v w error)
      ((eq v w).bind fun agree => if agree then some [] else line.map ([·])) := by
  refine Writes.value fun agree _ => Writes.ite (fun _ => writes_pass) fun _ log => ?_
  rw [herror, Option.map_map]
  rfl

/-! ## The rows of a block -/

/-- The rows `whileNotTotal` visits, counted from the first row of the block. -/
def blockRowsFrom (sheet : Sheet) (i : ℕ) : (rows : ℕ) → (d : ℕ) → Option (List ℕ)
  | 0, _ => none
  | rows + 1, d => do
    let total ← isTotal sheet (i + d)
    if total then return [] else return d :: (← blockRowsFrom sheet i rows (d + 1))

/-- The rows of the block that starts in row `i`. -/
def blockRows (sheet : Sheet) (i : ℕ) : Option (List ℕ) :=
  blockRowsFrom sheet i (sheet.rows.length + 1 - i) 0

/-- A loop over a block writes the lines of its rows. -/
theorem whileNotTotal_writes {sheet : Sheet} {i : ℕ} {body : ℕ → Log → Option Log}
    {lines : ℕ → Option (List Str)} (h : ∀ d, Writes writer (body d) (lines d)) (rows d : ℕ) :
    Writes writer (whileNotTotal sheet i body rows d)
      ((blockRowsFrom sheet i rows d).bind (collect lines)) := by
  induction rows generalizing d with
  | zero => exact writes_raise
  | succ rows ih =>
    intro log
    rw [whileNotTotal, blockRowsFrom]
    cases isTotal sheet (i + d) with
    | none => rfl
    | some total =>
      cases total with
      | true => rfl
      | false =>
        refine ((h d).bind (ih (d + 1)) log).trans ?_
        -- the lines of row `d` go in front of those of the rows below it
        cases blockRowsFrom sheet i rows (d + 1) with
        | none => cases lines d <;> rfl
        | some ds => rfl

/-- So does the loop from its first row. -/
theorem forBlock_writes {sheet : Sheet} {i : ℕ} {body : ℕ → Log → Option Log}
    {lines : ℕ → Option (List Str)} (h : ∀ d, Writes writer (body d) (lines d)) :
    Writes writer (forBlock sheet i body) ((blockRows sheet i).bind (collect lines)) :=
  whileNotTotal_writes h _ 0

/-- The rows of a block go up to the row with the total. -/
theorem blockRowsFrom_eq_some_iff {sheet : Sheet} {i : ℕ} {ds : List ℕ} :
    ∀ rows d, sheet.rows.length < i + d + rows →
      (blockRowsFrom sheet i rows d = some ds ↔
        ∃ n, isTotal sheet (i + (d + n)) = some true ∧
          (∀ e < n, isTotal sheet (i + (d + e)) = some false) ∧ ds = List.range' d n) := by
  intro rows
  induction rows generalizing ds with
  | zero =>
    intro d hd
    refine iff_of_false (by simp [blockRowsFrom]) ?_
    rintro ⟨n, htotal, -⟩
    rw [isTotal, cell_eq_empty (by omega)] at htotal
    exact absurd htotal (by decide)
  | succ rows ih =>
    intro d hd
    rw [blockRowsFrom]
    constructor
    · intro h
      obtain ⟨total, htotal, h⟩ := Option.bind_eq_some_iff.mp h
      cases total with
      | true =>
        obtain rfl := Option.some.inj h
        exact ⟨0, htotal, fun e he => absurd he (Nat.not_lt_zero e), rfl⟩
      | false =>
        obtain ⟨ds', hrest, h⟩ := Option.bind_eq_some_iff.mp h
        obtain rfl := Option.some.inj h
        obtain ⟨n, hend, hrows, rfl⟩ := (ih (d + 1) (by omega)).mp hrest
        refine ⟨n + 1, ?_, fun e he => ?_, rfl⟩
        · rwa [show d + (n + 1) = d + 1 + n by omega]
        · rcases Nat.eq_zero_or_pos e with rfl | hpos
          · exact htotal
          · have hrow := hrows (e - 1) (by omega)
            rwa [show d + 1 + (e - 1) = d + e by omega] at hrow
    · rintro ⟨n, hend, hrows, rfl⟩
      cases n with
      | zero =>
        rw [Nat.add_zero] at hend
        rw [hend]
        rfl
      | succ n =>
        have hfirst := hrows 0 (Nat.succ_pos n)
        rw [Nat.add_zero] at hfirst
        have hrest : blockRowsFrom sheet i rows (d + 1) = some (List.range' (d + 1) n) := by
          refine (ih (d + 1) (by omega)).mpr ⟨n, ?_, fun e he => ?_, rfl⟩
          · rwa [show d + 1 + n = d + (n + 1) by omega]
          · have hrow := hrows (e + 1) (by omega)
            rwa [show d + (e + 1) = d + 1 + e by omega] at hrow
        rw [hfirst]
        show ((blockRowsFrom sheet i rows (d + 1)).bind fun ds => some (d :: ds)) = _
        rw [hrest]
        rfl

/-- A block has the rows up to its `Total` row. -/
theorem blockRows_eq_some_iff {sheet : Sheet} {i : ℕ} {ds : List ℕ} :
    blockRows sheet i = some ds ↔ ∃ n, Block sheet i n ∧ ds = List.range n := by
  rw [blockRows, blockRowsFrom_eq_some_iff _ _ (by omega)]
  simp only [Nat.zero_add, Block, List.range_eq_range', and_assoc]

/-- A block has rows when it ends. -/
theorem blockRows_ne_none_iff {sheet : Sheet} {i : ℕ} :
    blockRows sheet i ≠ none ↔ ∃ n, Block sheet i n := by
  rw [Option.ne_none_iff_exists']
  constructor
  · rintro ⟨ds, hds⟩
    obtain ⟨n, hn, -⟩ := blockRows_eq_some_iff.mp hds
    exact ⟨n, hn⟩
  · rintro ⟨n, hn⟩
    exact ⟨_, blockRows_eq_some_iff.mpr ⟨n, hn, rfl⟩⟩

theorem pairwise_forTo (first last : ℕ) : (forTo first last).Pairwise (· < ·) :=
  List.pairwise_lt_range'

end Vdr

namespace CompareXls

open Reports Vbs Vdr

/-- The cell in row `i` and column `j` is in the rectangle that the run visits. -/
def Visited (dev : Sheet) (p : ℕ ×ₗ ℕ) : Prop :=
  (6 ≤ (ofLex p).1 ∧ (ofLex p).1 ≤ dev.usedRows + 3) ∧
    1 ≤ (ofLex p).2 ∧ (ofLex p).2 ≤ dev.usedColumns

/-- Whether both sheets hold the same in a cell, where they can be compared. -/
def agrees (dev stage : Sheet) (p : ℕ ×ₗ ℕ) : Option Bool :=
  eq (dev.cell (ofLex p).1 (ofLex p).2) (stage.cell (ofLex p).1 (ofLex p).2)

/-- The line about a cell: the member of its row, the coverage of its column, and both values. -/
def differenceLine (host : Host) (dev stage : Sheet) (p : ℕ ×ₗ ℕ) : Option Str := do
  let (i, j) := ofLex p
  let devText ← host.text (dev.cell i j)
  let stageText ← host.text (stage.cell i j)
  errorLine host 24 2 (dev.cell i 2) (dev.cell i 1) (dev.cell 5 j)
    (devText ++ "(dev) != ".toList ++ stageText ++ "(stage)".toList)

/-- A comparison writes a line where the cells differ. -/
theorem compareCell_writes (host : Host) (dev stage : Sheet) (i j : ℕ) :
    Writes writer (fun log => compareCell host dev stage i log j)
      (itemLines (agrees dev stage) (differenceLine host dev stage) (toLex (i, j))) := by
  refine checkEq_writes _ _ fun log => ?_
  show ((host.text (dev.cell i j)).bind fun devText =>
    (host.text (stage.cell i j)).bind fun stageText => _) = _
  unfold differenceLine
  cases hdev : host.text (dev.cell i j) with
  | none => simp [hdev]
  | some devText =>
    cases hstage : host.text (stage.cell i j) with
    | none => simp [hdev, hstage]
    | some stageText =>
      simp only [Option.bind_some, ofLex_toLex, hdev, hstage, Option.bind_eq_bind]
      exact logError_eq _ _ _ _ _ _ _ _

/-- The run comes to its end exactly when every visited cell can be compared and every difference
has a text, and its report lists the differences row by row. -/
theorem run_reports_cells (host : Host) (dev stage : Sheet) (r : Report) :
    run host dev stage = some r ↔
      ∃ lines, Reported (Visited dev) (agrees dev stage) (differenceLine host dev stage) lines ∧
        r = Report.of lines := by
  have hwrites : Writes writer (compareSheets host dev stage)
      (collect (fun i => collect (fun j => itemLines (agrees dev stage)
        (differenceLine host dev stage) (toLex (i, j))) (forTo 1 dev.usedColumns))
        (forTo 6 (dev.usedRows + 3))) :=
    .foldlM fun i _ => .foldlM fun j _ => compareCell_writes host dev stage i j
  have hsorted : (nested (forTo 6 (dev.usedRows + 3)) fun _ => forTo 1 dev.usedColumns).Pairwise
      (· < ·) :=
    pairwise_nested (pairwise_forTo 6 (dev.usedRows + 3)) fun _ _ =>
      pairwise_forTo 1 dev.usedColumns
  have hmem : ∀ p, p ∈ nested (forTo 6 (dev.usedRows + 3)) (fun _ => forTo 1 dev.usedColumns) ↔
      Visited dev p := fun p => by
    rw [mem_nested, mem_forTo, mem_forTo, Visited]
  rw [run, report_eq hwrites, Option.map_eq_some_iff, collect_collect]
  exact exists_congr fun lines =>
    and_congr (collect_itemLines_iff_reported hsorted hmem) eq_comm

end CompareXls

namespace CompareHtml

open Reports Vbs Vdr

/-- The walk comes to its end: in every row it looks at it can tell whether a member starts there,
and each member has a row of the stage sheet and a block that is closed. -/
def Walkable (host : Host) (dev stage : Sheet) : Prop :=
  ∀ i, 6 ≤ i → i ≤ dev.usedRows → isMember dev i ≠ none ∧
    (isMember dev i = some true →
      lookupRow host dev stage i ≠ none ∧ ∃ n, Block dev i n)

/-- The run compares column `b` of the row `d` rows below the first row `i` of a member. -/
def Visited (dev : Sheet) (p : ℕ ×ₗ ℕ ×ₗ ℕ) : Prop :=
  let i := (ofLex p).1
  let (d, b) := ofLex (ofLex p).2
  (MemberRow dev i ∧ i ≤ dev.usedRows) ∧ (∃ n, Block dev i n ∧ d < n) ∧
    2 ≤ b ∧ b ≤ dev.usedColumns

/-- The value of the stage sheet that the run compares with. -/
def stageValue (host : Host) (dev stage : Sheet) (p : ℕ ×ₗ ℕ ×ₗ ℕ) : Option Variant :=
  let (d, b) := ofLex (ofLex p).2
  (lookupRow host dev stage (ofLex p).1).bind fun k => stage.value (k + d) b

/-- Whether the two values are the same, where they can be compared. -/
def agrees (host : Host) (dev stage : Sheet) (p : ℕ ×ₗ ℕ ×ₗ ℕ) : Option Bool :=
  let i := (ofLex p).1
  let (d, b) := ofLex (ofLex p).2
  (stageValue host dev stage p).bind (eq (dev.cell (i + d) b))

/-- The line about a difference: the name of the member, the coverage of the row, and both
values. -/
def differenceLine (host : Host) (dev stage : Sheet) (p : ℕ ×ₗ ℕ ×ₗ ℕ) : Option Str := do
  let i := (ofLex p).1
  let (d, b) := ofLex (ofLex p).2
  let (lastName, firstName) ← memberName host dev i
  let stageValue ← stageValue host dev stage p
  let devText ← host.text (dev.cell (i + d) b)
  let stageText ← host.text stageValue
  errorLine host 24 2 (.string lastName) (.string firstName) (dev.cell (i + d) 3)
    (devText ++ "(dev) != ".toList ++ stageText ++ "(stage)".toList)

/-- What the run compares for the member in row `i`, if there is one. -/
def memberItems (host : Host) (dev stage : Sheet) (i : ℕ) : Option (List (ℕ ×ₗ ℕ)) :=
  (isMember dev i).bind fun member =>
    if member then
      (lookupRow host dev stage i).bind fun _ =>
        (blockRows dev i).map fun ds => nested ds fun _ => forTo 2 dev.usedColumns
    else some []

variable {host : Host} {dev stage : Sheet} {i : ℕ}

/-- The items of a member can be had when it is found and its block ends. -/
theorem memberItems_ne_none_iff :
    memberItems host dev stage i ≠ none ↔ isMember dev i ≠ none ∧
      (isMember dev i = some true → lookupRow host dev stage i ≠ none ∧ ∃ n, Block dev i n) := by
  rw [memberItems, ← blockRows_ne_none_iff]
  rcases isMember dev i with _ | _ | _
  · simp
  · simp
  · cases lookupRow host dev stage i <;> simp

/-- They are the cells of its block. -/
theorem mem_memberItems_iff {items : List (ℕ ×ₗ ℕ)} (h : memberItems host dev stage i = some items)
    (q : ℕ ×ₗ ℕ) :
    q ∈ items ↔ isMember dev i = some true ∧ (∃ n, Block dev i n ∧ (ofLex q).1 < n) ∧
      2 ≤ (ofLex q).2 ∧ (ofLex q).2 ≤ dev.usedColumns := by
  rw [memberItems] at h
  obtain ⟨member, hmember, h⟩ := Option.bind_eq_some_iff.mp h
  rw [hmember]
  cases member with
  | false =>
    obtain rfl := Option.some.inj h
    simp
  | true =>
    obtain ⟨k, -, h⟩ := Option.bind_eq_some_iff.mp h
    obtain ⟨ds, hds, rfl⟩ := Option.map_eq_some_iff.mp h
    obtain ⟨n, hblock, rfl⟩ := blockRows_eq_some_iff.mp hds
    rw [mem_nested, List.mem_range, mem_forTo]
    refine ⟨fun h => ⟨rfl, ⟨n, hblock, h.1⟩, h.2⟩, ?_⟩
    rintro ⟨-, ⟨n', hblock', hlt⟩, hcolumn⟩
    rw [hblock'.unique hblock] at hlt
    exact ⟨hlt, hcolumn⟩

theorem pairwise_memberItems {items : List (ℕ ×ₗ ℕ)}
    (h : memberItems host dev stage i = some items) : items.Pairwise (· < ·) := by
  rw [memberItems] at h
  obtain ⟨member, -, h⟩ := Option.bind_eq_some_iff.mp h
  cases member with
  | false =>
    obtain rfl := Option.some.inj h
    exact List.Pairwise.nil
  | true =>
    obtain ⟨k, -, h⟩ := Option.bind_eq_some_iff.mp h
    obtain ⟨ds, hds, rfl⟩ := Option.map_eq_some_iff.mp h
    obtain ⟨n, -, rfl⟩ := blockRows_eq_some_iff.mp hds
    exact pairwise_nested List.pairwise_lt_range fun _ _ => pairwise_forTo 2 dev.usedColumns

/-- One comparison of the run. -/
theorem compareCell_writes {lastName firstName : Str} {k d b : ℕ}
    (hname : memberName host dev i = some (lastName, firstName))
    (hrow : lookupRow host dev stage i = some k) :
    Writes writer (fun log => compareCell host dev stage lastName firstName (i + d) (k + d) log b)
      (itemLines (agrees host dev stage) (differenceLine host dev stage)
        (toLex (i, toLex (d, b)))) := by
  have hvalue : stageValue host dev stage (toLex (i, toLex (d, b))) = stage.value (k + d) b := by
    simp only [stageValue, ofLex_toLex, hrow, Option.bind_some]
  have hcell : Writes writer
      (fun log => compareCell host dev stage lastName firstName (i + d) (k + d) log b)
      ((stage.value (k + d) b).bind fun value =>
        (eq (dev.cell (i + d) b) value).bind fun agree => if agree then some [] else
          ((host.text (dev.cell (i + d) b)).bind fun devText =>
            (host.text value).bind fun stageText =>
              errorLine host 24 2 (.string lastName) (.string firstName) (dev.cell (i + d) 3)
                (devText ++ "(dev) != ".toList ++ stageText ++ "(stage)".toList)).map ([·])) := by
    refine Writes.value fun value _ => checkEq_writes _ _ fun log => ?_
    cases host.text (dev.cell (i + d) b) with
    | none => rfl
    | some devText =>
      cases host.text value with
      | none => rfl
      | some stageText => exact logError_eq host 24 2 (.string lastName) (.string firstName) _ _ log
  refine fun log => (hcell log).trans ?_
  unfold itemLines agrees differenceLine
  rw [hvalue]
  simp only [ofLex_toLex, hname]
  cases stage.value (k + d) b <;> rfl

/-- The run comes to its end exactly when its walk does, every visited cell can be compared and
every difference has a text, and its report lists the differences member by member, row by row. -/
theorem run_reports_blocks (host : Host) (dev stage : Sheet) (r : Report) :
    run host dev stage = some r ↔ Walkable host dev stage ∧
      ∃ lines, Reported (Visited dev) (agrees host dev stage) (differenceLine host dev stage)
        lines ∧ r = Report.of lines := by
  have hmember : ∀ i, Writes writer (fun log => compareMember host dev stage log i)
      ((memberItems host dev stage i).bind (collect fun q => itemLines (agrees host dev stage)
        (differenceLine host dev stage) (toLex (i, q)))) := by
    intro i log
    rw [memberItems]
    unfold compareMember
    rcases isMember dev i with _ | _ | _
    · rfl
    · rfl
    · cases hname : memberName host dev i with
      | none =>
        rw [lookupRow, hname]
        rfl
      | some name =>
        have hlookup : lookupRow host dev stage i =
            lookup host stage (name.1 ++ ", ".toList ++ name.2) := by
          rw [lookupRow, hname]
          rfl
        show ((lookup host stage (name.1 ++ ", ".toList ++ name.2)).bind fun nameRow => _) = _
        rw [← hlookup]
        cases hrow : lookupRow host dev stage i with
        | none => rfl
        | some k =>
          refine (forBlock_writes (fun d => Writes.foldlM fun b _ =>
            compareCell_writes (d := d) (b := b) hname hrow) log).trans ?_
          show _ = (((some k).bind fun _ => _).bind _).map _
          rw [Option.bind_some]
          cases blockRows dev i with
          | none => rfl
          | some ds =>
            exact congrArg (Option.map (writer.write log)) (collect_collect (fun q =>
              itemLines (agrees host dev stage) (differenceLine host dev stage) (toLex (i, q))) _ _)
  have hwrites : Writes writer (compareSheets host dev stage) _ := .foldlM fun i _ => hmember i
  have hwalk : (∀ i ∈ forTo 6 dev.usedRows, memberItems host dev stage i ≠ none) ↔
      Walkable host dev stage := by
    simp only [memberItems_ne_none_iff, mem_forTo, Walkable, and_imp]
  rw [run, report_eq hwrites, Option.map_eq_some_iff]
  simp only [collect_walk_iff (pairwise_forTo 6 dev.usedRows) fun _ _ _ => pairwise_memberItems,
    hwalk, and_assoc, exists_and_left]
  refine and_congr_right fun hw => exists_congr fun lines => and_congr (Reported.congr fun p => ?_)
    eq_comm
  rw [mem_forTo]
  constructor
  · rintro ⟨⟨hfirst, hlast⟩, items, hitems, hmem⟩
    obtain ⟨hmember, hblock, hcolumn⟩ := (mem_memberItems_iff hitems _).mp hmem
    exact ⟨⟨⟨hfirst, hmember⟩, hlast⟩, hblock, hcolumn⟩
  · rintro ⟨⟨⟨hfirst, hmember⟩, hlast⟩, hblock, hcolumn⟩
    obtain ⟨items, hitems⟩ := Option.ne_none_iff_exists'.mp
      (memberItems_ne_none_iff.mpr (hw _ hfirst hlast))
    exact ⟨⟨hfirst, hlast⟩, items, hitems,
      (mem_memberItems_iff hitems _).mpr ⟨hmember, hblock, hcolumn⟩⟩

end CompareHtml

namespace CompareHtmlXls

open Reports Vbs Vdr

/-- What the run has found out about a coverage row when it starts to compare: both amounts, the
row of the XLS sheet, and the columns of the coverage. -/
structure Compared where
  electionAmt : ℚ
  payrollDed : ℚ
  row : ℕ
  cols : Columns

/-- What the run compares in row `d` of the member in row `i`, if its search finds the member. -/
def compared (host : Host) (html xls : Sheet) (i d : ℕ) : Option (Option Compared) := do
  let (lastName, firstName) ← memberName host html i
  let electionAmt ← electionAmt host html (i + d)
  let payrollDed ← payrollDed host html (i + d)
  let _ ← toNum host (html.cell (i + d) 6)
  let found ← findMember host xls firstName lastName (searchRows xls)
  found.elim (some none) fun k => do
    let coverage ← host.text (html.cell (i + d) 3)
    let cols ← dispatch host xls coverage
    return some ⟨electionAmt, payrollDed, k, cols⟩

/-- Whether there is an election amount to compare. -/
def Compared.hasElection (x : Compared) : Bool := x.cols.vDLI || 0 < x.cols.amtCol

/-- The comparisons of a row: the election amount (`false`) and the payroll deduction (`true`). -/
def parts : Option Compared → List Bool
  | none => []
  | some x => if x.hasElection then [false, true] else [true]

/-- The amount of the XLS sheet that an amount is compared with, and how the line shows it. -/
def Compared.xlsAmount (host : Host) (xls : Sheet) (x : Compared) (payroll : Bool) :
    Option (ℚ × Str) :=
  if payroll then do
    let deduction ← toNum host (← xls.value x.row x.cols.pdCol)
    return (deduction, host.numberText deduction ++ "(xls)".toList)
  else if x.cols.vDLI then do
    let sp ← toNum host (xls.cell x.row 10)
    let ch ← toNum host (xls.cell x.row 11)
    return (host.add sp ch, host.numberText (host.add sp ch) ++ " (".toList ++
      host.numberText sp ++ "+".toList ++ host.numberText ch ++ ")(xls)".toList)
  else do
    let amount ← toNum host (xls.cell x.row x.cols.amtCol.toNat)
    return (amount, host.numberText amount ++ "(xls)".toList)

/-- The amount of the HTML sheet. -/
def Compared.htmlAmount (x : Compared) (payroll : Bool) : ℚ :=
  if payroll then x.payrollDed else x.electionAmt

/-- The walk comes to its end: in every row it looks at it can tell whether a member starts there,
each member has a name and a block that is closed, and in each row of the block the run finds out
what to compare. -/
def Walkable (host : Host) (html xls : Sheet) : Prop :=
  ∀ i, 6 ≤ i → i ≤ html.usedRows → isMember html i ≠ none ∧
    (isMember html i = some true → memberName host html i ≠ none ∧
      ∃ n, Block html i n ∧ ∀ d < n, compared host html xls i d ≠ none)

/-- The run compares an amount of the row `d` rows below the first row `i` of a member. -/
def Visited (host : Host) (html xls : Sheet) (p : ℕ ×ₗ ℕ ×ₗ Bool) : Prop :=
  let i := (ofLex p).1
  let (d, payroll) := ofLex (ofLex p).2
  (MemberRow html i ∧ i ≤ html.usedRows) ∧ (∃ n, Block html i n ∧ d < n) ∧
    ∃ x, compared host html xls i d = some (some x) ∧ (payroll = true ∨ x.hasElection = true)

/-- Whether the two amounts are the same, where they can be compared. -/
def agrees (host : Host) (html xls : Sheet) (p : ℕ ×ₗ ℕ ×ₗ Bool) : Option Bool := do
  let (d, payroll) := ofLex (ofLex p).2
  let x ← (← compared host html xls (ofLex p).1 d)
  let (amount, _) ← x.xlsAmount host xls payroll
  return x.htmlAmount payroll = amount

/-- The line about a difference: the name of the member, the coverage of the row, and both
amounts. -/
def differenceLine (host : Host) (html xls : Sheet) (p : ℕ ×ₗ ℕ ×ₗ Bool) : Option Str := do
  let i := (ofLex p).1
  let (d, payroll) := ofLex (ofLex p).2
  let (lastName, firstName) ← memberName host html i
  let x ← (← compared host html xls i d)
  let (_, text) ← x.xlsAmount host xls payroll
  errorLine host 34 3 (.string lastName) (.string firstName) (html.cell (i + d) 3)
    (host.numberText (x.htmlAmount payroll) ++ "(html) != ".toList ++ text)

/-- What the run compares for the member in row `i`, if there is one. -/
def memberItems (host : Host) (html xls : Sheet) (i : ℕ) : Option (List (ℕ ×ₗ Bool)) :=
  (isMember html i).bind fun member =>
    if member then
      (memberName host html i).bind fun _ =>
        (blockRows html i).bind fun ds =>
          nestedM ds fun d => (compared host html xls i d).map parts
    else some []

variable {host : Host} {html xls : Sheet} {i : ℕ}

/-- The items of a member can be had when its coverages can be compared. -/
theorem memberItems_ne_none_iff :
    memberItems host html xls i ≠ none ↔ isMember html i ≠ none ∧
      (isMember html i = some true → memberName host html i ≠ none ∧
        ∃ n, Block html i n ∧ ∀ d < n, compared host html xls i d ≠ none) := by
  rw [memberItems]
  rcases isMember html i with _ | _ | _
  · simp
  · simp
  · cases memberName host html i with
    | none => simp
    | some name =>
      simp only [Option.bind_some, if_true, ne_eq, reduceCtorEq, not_false_eq_true, true_and,
        forall_const]
      constructor
      · intro h
        obtain ⟨ds, hds⟩ : ∃ ds, blockRows html i = some ds :=
          Option.ne_none_iff_exists'.mp fun hnone => h (by rw [hnone]; rfl)
        obtain ⟨n, hblock, rfl⟩ := blockRows_eq_some_iff.mp hds
        rw [hds] at h
        have hrows := nestedM_ne_none_iff.mp h
        exact ⟨n, hblock, fun d hd hnone => hrows d (List.mem_range.mpr hd) (by rw [hnone]; rfl)⟩
      · rintro ⟨n, hblock, hrows⟩
        rw [blockRows_eq_some_iff.mpr ⟨n, hblock, rfl⟩]
        refine nestedM_ne_none_iff.mpr fun d hd hnone => ?_
        exact hrows d (List.mem_range.mp hd) (Option.map_eq_none_iff.mp hnone)

/-- They are the amounts of its block that are compared. -/
theorem mem_memberItems_iff {items : List (ℕ ×ₗ Bool)}
    (h : memberItems host html xls i = some items) (q : ℕ ×ₗ Bool) :
    q ∈ items ↔ isMember html i = some true ∧ (∃ n, Block html i n ∧ (ofLex q).1 < n) ∧
      ∃ x, compared host html xls i (ofLex q).1 = some (some x) ∧
        ((ofLex q).2 = true ∨ x.hasElection = true) := by
  rw [memberItems] at h
  obtain ⟨member, hmember, h⟩ := Option.bind_eq_some_iff.mp h
  rw [hmember]
  cases member with
  | false =>
    obtain rfl := Option.some.inj h
    simp
  | true =>
    obtain ⟨name, -, h⟩ := Option.bind_eq_some_iff.mp h
    obtain ⟨ds, hds, h⟩ := Option.bind_eq_some_iff.mp h
    obtain ⟨n, hblock, rfl⟩ := blockRows_eq_some_iff.mp hds
    rw [mem_nestedM h, List.mem_range]
    have hparts : ∀ row : Option Compared, (ofLex q).2 ∈ parts row ↔
        ∃ x, row = some x ∧ ((ofLex q).2 = true ∨ x.hasElection = true) := by
      intro row
      cases row with
      | none => simp [parts]
      | some x =>
        rw [parts]
        cases hx : x.hasElection <;> cases (ofLex q).2 <;> simp [hx]
    constructor
    · rintro ⟨hlt, ys, hys, hmem⟩
      obtain ⟨row, hrow, rfl⟩ := Option.map_eq_some_iff.mp hys
      obtain ⟨x, rfl, hx⟩ := (hparts row).mp hmem
      exact ⟨rfl, ⟨n, hblock, hlt⟩, x, hrow, hx⟩
    · rintro ⟨-, ⟨n', hblock', hlt⟩, x, hrow, hx⟩
      rw [hblock'.unique hblock] at hlt
      exact ⟨hlt, _, Option.map_eq_some_iff.mpr ⟨_, hrow, rfl⟩, (hparts _).mpr ⟨x, rfl, hx⟩⟩

theorem pairwise_memberItems {items : List (ℕ ×ₗ Bool)}
    (h : memberItems host html xls i = some items) : items.Pairwise (· < ·) := by
  rw [memberItems] at h
  obtain ⟨member, -, h⟩ := Option.bind_eq_some_iff.mp h
  cases member with
  | false =>
    obtain rfl := Option.some.inj h
    exact List.Pairwise.nil
  | true =>
    obtain ⟨name, -, h⟩ := Option.bind_eq_some_iff.mp h
    obtain ⟨ds, hds, h⟩ := Option.bind_eq_some_iff.mp h
    obtain ⟨n, -, rfl⟩ := blockRows_eq_some_iff.mp hds
    refine pairwise_nestedM h List.pairwise_lt_range fun d _ ys hys => ?_
    obtain ⟨row, -, rfl⟩ := Option.map_eq_some_iff.mp hys
    cases row with
    | none => exact List.Pairwise.nil
    | some x =>
      rw [parts]
      split
      · decide
      · decide

/-- Two numbers, and the line for them where they differ. -/
theorem checkNum_writes (x y : ℚ) {error : Log → Option Log} {line : Option Str}
    (herror : ∀ log, error log = line.map fun line => log.add [line]) :
    Writes writer (checkNum x y error) (if x = y then some [] else line.map ([·])) := by
  refine Writes.ite (fun _ => writes_pass) fun _ log => ?_
  rw [herror, Option.map_map]
  rfl

section Row

variable {lastName firstName : Str} {d : ℕ} {x : Compared}

/-- The lines about one of the amounts of a row. -/
theorem itemLines_eq (hname : memberName host html i = some (lastName, firstName))
    (hrow : compared host html xls i d = some (some x)) (payroll : Bool) :
    itemLines (agrees host html xls) (differenceLine host html xls)
        (toLex (i, toLex (d, payroll))) =
      (x.xlsAmount host xls payroll).bind fun amount =>
        if x.htmlAmount payroll = amount.1 then some [] else
          (errorLine host 34 3 (.string lastName) (.string firstName) (html.cell (i + d) 3)
            (host.numberText (x.htmlAmount payroll) ++ "(html) != ".toList ++ amount.2)).map
              ([·]) := by
  unfold itemLines agrees differenceLine
  simp only [ofLex_toLex, hname, hrow, Option.bind_eq_bind, Option.bind_some, Option.pure_def]
  cases hamount : x.xlsAmount host xls payroll with
  | none => rfl
  | some amount =>
    by_cases h : x.htmlAmount payroll = amount.1
    · simp only [Option.bind_some, h, decide_true, if_true]
    · simp only [Option.bind_some, h, decide_false, if_false, Bool.false_eq_true]

/-- A comparison of an election writes a line where the amounts differ. -/
theorem checkElection_writes (hname : memberName host html i = some (lastName, firstName))
    (hrow : compared host html xls i d = some (some x)) :
    Writes writer (checkElection host xls x.row x.cols x.electionAmt
        (logError host lastName firstName (html.cell (i + d) 3)))
      (if x.hasElection then itemLines (agrees host html xls) (differenceLine host html xls)
        (toLex (i, toLex (d, false))) else some []) := by
  have hline : ∀ str log, logError host lastName firstName (html.cell (i + d) 3) str log =
      (errorLine host 34 3 (.string lastName) (.string firstName) (html.cell (i + d) 3) str).map
        fun line => log.add [line] := fun str log => logError_eq _ _ _ _ _ _ _ _
  rw [itemLines_eq hname hrow, Compared.hasElection, Compared.xlsAmount, Compared.htmlAmount]
  unfold checkElection
  cases hdli : x.cols.vDLI with
  | true =>
    intro log
    simp only [if_true, Bool.true_or, Bool.false_eq_true, if_false]
    cases toNum host (xls.cell x.row 10) with
    | none => rfl
    | some sp =>
      cases toNum host (xls.cell x.row 11) with
      | none => rfl
      | some ch =>
        refine (checkNum_writes _ _ (hline _) log).trans ?_
        simp only [List.append_assoc, Option.bind_eq_bind, Option.bind_some, Option.pure_def]
  | false =>
    intro log
    by_cases hcol : 0 < x.cols.amtCol
    · simp only [hcol, if_true, decide_true, Bool.or_true, Bool.false_eq_true, if_false]
      cases toNum host (xls.cell x.row x.cols.amtCol.toNat) with
      | none => rfl
      | some amount =>
        refine (checkNum_writes _ _ (hline _) log).trans ?_
        simp only [List.append_assoc, Option.bind_eq_bind, Option.bind_some, Option.pure_def]
    · simp only [hcol, if_false, decide_false, Bool.or_false, Bool.false_eq_true]
      rfl

/-- So does that of a payroll deduction. -/
theorem checkPayroll_writes (hname : memberName host html i = some (lastName, firstName))
    (hrow : compared host html xls i d = some (some x)) :
    Writes writer (checkPayroll host xls x.row x.cols x.payrollDed
        (logError host lastName firstName (html.cell (i + d) 3)))
      (itemLines (agrees host html xls) (differenceLine host html xls)
        (toLex (i, toLex (d, true)))) := by
  have hline : ∀ str log, logError host lastName firstName (html.cell (i + d) 3) str log =
      (errorLine host 34 3 (.string lastName) (.string firstName) (html.cell (i + d) 3) str).map
        fun line => log.add [line] := fun str log => logError_eq _ _ _ _ _ _ _ _
  intro log
  rw [itemLines_eq hname hrow, Compared.xlsAmount, Compared.htmlAmount, checkPayroll]
  simp only [if_true]
  cases xls.value x.row x.cols.pdCol with
  | none => rfl
  | some cell =>
    show ((toNum host cell).bind fun deduction => _) = _
    cases htoNum : toNum host cell with
    | none => simp [htoNum]
    | some deduction =>
      refine (checkNum_writes _ _ (hline _) log).trans ?_
      simp only [List.append_assoc, Option.bind_eq_bind, Option.bind_some, htoNum, Option.pure_def]

end Row

/-- A row of a block: what there is to compare, then the two checks. -/
theorem compareCoverage_eq {name : Str × Str} (hname : memberName host html i = some name) (d : ℕ)
    (log : Log) :
    compareCoverage host html xls name.1 name.2 (i + d) log =
      (compared host html xls i d).bind fun row => row.elim (some log) fun x =>
        (checkElection host xls x.row x.cols x.electionAmt
          (logError host name.1 name.2 (html.cell (i + d) 3)) log).bind
        (checkPayroll host xls x.row x.cols x.payrollDed
          (logError host name.1 name.2 (html.cell (i + d) 3))) := by
  unfold compareCoverage compared
  simp only [hname, Option.bind_eq_bind, Option.bind_some, Option.bind_assoc]
  refine Option.bind_congr fun election _ => Option.bind_congr fun payroll _ =>
    Option.bind_congr fun premium _ => Option.bind_congr fun found _ => ?_
  cases found with
  | none => rfl
  | some k =>
    cases host.text (html.cell (i + d) 3) with
    | none => rfl
    | some text =>
      cases hcols : dispatch host xls text with
      | none => simp [hcols]
      | some cols => simp [hcols]

/-- That of a coverage writes the lines of both. -/
theorem compareCoverage_writes {name : Str × Str} (hname : memberName host html i = some name)
    (d : ℕ) :
    Writes writer (compareCoverage host html xls name.1 name.2 (i + d))
      (((compared host html xls i d).map parts).bind (collect fun payroll =>
        itemLines (agrees host html xls) (differenceLine host html xls)
          (toLex (i, toLex (d, payroll))))) := by
  intro log
  rw [compareCoverage_eq hname]
  cases hrow : compared host html xls i d with
  | none => rfl
  | some row =>
    cases row with
    | none => rfl
    | some x =>
      refine ((checkElection_writes hname hrow).bind (checkPayroll_writes hname hrow) log).trans ?_
      rw [Option.map_some, Option.bind_some, parts]
      have hlast : ∀ lines : Option (List Str), (lines.bind fun l => (some []).map (l ++ ·)) =
          lines := by
        intro lines
        cases lines <;> simp
      cases x.hasElection with
      | false =>
        simp only [Bool.false_eq_true, if_false, collect, hlast]
        rw [Option.bind_some]
        exact congrArg _ Option.map_id'
      | true => simp only [if_true, collect, hlast]

/-- The run comes to its end exactly when its walk does, every amount can be compared and every
difference has a text, and its report lists the differences member by member, row by row, the
election amount of a row before its payroll deduction. -/
theorem run_reports_amounts (host : Host) (html xls : Sheet) (r : Report) :
    run host html xls = some r ↔ Walkable host html xls ∧
      ∃ lines, Reported (Visited host html xls) (agrees host html xls)
        (differenceLine host html xls) lines ∧ r = Report.of lines := by
  have hmember : ∀ i, Writes writer (fun log => compareMember host html xls log i)
      ((memberItems host html xls i).bind (collect fun q => itemLines (agrees host html xls)
        (differenceLine host html xls) (toLex (i, q)))) := by
    intro i log
    rw [memberItems]
    unfold compareMember
    rcases isMember html i with _ | _ | _
    · rfl
    · rfl
    · cases hname : memberName host html i with
      | none => rfl
      | some name =>
        refine (forBlock_writes (fun d => compareCoverage_writes hname d) log).trans ?_
        show _ = (((blockRows html i).bind fun _ => _).bind _).map _
        cases blockRows html i with
        | none => rfl
        | some ds =>
          rw [Option.bind_some, Option.bind_some, ← collect_nestedM]
  have hwrites : Writes writer (compareSheets host html xls) _ := .foldlM fun i _ => hmember i
  have hwalk : (∀ i ∈ forTo 6 html.usedRows, memberItems host html xls i ≠ none) ↔
      Walkable host html xls := by
    simp only [memberItems_ne_none_iff, mem_forTo, Walkable, and_imp]
  rw [run, report_eq hwrites, Option.map_eq_some_iff]
  simp only [collect_walk_iff (pairwise_forTo 6 html.usedRows) fun _ _ _ => pairwise_memberItems,
    hwalk, and_assoc, exists_and_left]
  refine and_congr_right fun hw => exists_congr fun lines => and_congr (Reported.congr fun p => ?_)
    eq_comm
  rw [mem_forTo]
  constructor
  · rintro ⟨⟨hfirst, hlast⟩, items, hitems, hmem⟩
    obtain ⟨hmember, hblock, hrow⟩ := (mem_memberItems_iff hitems _).mp hmem
    exact ⟨⟨⟨hfirst, hmember⟩, hlast⟩, hblock, hrow⟩
  · rintro ⟨⟨⟨hfirst, hmember⟩, hlast⟩, hblock, hrow⟩
    obtain ⟨items, hitems⟩ := Option.ne_none_iff_exists'.mp
      (memberItems_ne_none_iff.mpr (hw _ hfirst hlast))
    exact ⟨⟨hfirst, hlast⟩, items, hitems,
      (mem_memberItems_iff hitems _).mpr ⟨hmember, hblock, hrow⟩⟩

end CompareHtmlXls
