import ScriptsMisc.Cdr.CamelCase
import ScriptsMisc.Lib.Elements
import ScriptsMisc.OaBills.Validation

/-! # The ids of the member adjustments

`fixMbrAdjustmentIDs` gives the inner lines of the adjustments table ids made of the member number,
the benefit and the header of the column; `validateMemberAdjustments` looks them up under ids made
of the columns of the recordset. The loop stands in `oa-bills-member-adjustments.js` too, and but
for a column and the labels of the totals it is the loop of `fixMbrDetlIDs`.
-/

namespace OaBills

open CamelCase (jsSpace)
open Routine
open Vbs (shown)

/-! ## The table -/

/-- A table within a cell: whether it is displayed, and the text of each of its lines. -/
structure SubTable where
  displayed : Bool
  lines : List Str

/-- A child of a row. `colspan` is the number that `parseInt` finds. -/
structure PageCell where
  innerText : Str
  colspan : Option ℕ
  tables : List SubTable

/-- An element of the class `dr-subtable-cell`: its text, and the number of its links. -/
structure SubtableCell where
  innerText : Str
  links : ℕ

structure PageRow where
  innerText : Str
  cells : List PageCell
  subtableCells : List SubtableCell

/-- The table of the page: the texts of its headers, and its rows. -/
structure AdjustmentsTable where
  headers : List Str
  rows : List PageRow

/-- The elements that get ids: the link in a row, an inner line by its cell and table, a cell. -/
inductive Element where
  | link (row : ℕ)
  | line (row column table line : ℕ)
  | cell (row column : ℕ)
deriving DecidableEq, Repr

/-! ## The script -/

/-- The globals of the script, and the ids it has given, the last one first. -/
structure Script where
  memberNo : Str
  tableIndex : ℕ
  ids : List (Element × Str)

/-- Runs of the script. What stops it is a member of `undefined`; the ids given so far stay. -/
abbrev Js := StateT Script (Except Script)

/-- A member of `undefined`. -/
def undefined {α : Type} : Js α := do throw (← get)

/-- `xs[n]`, of which a member is used. -/
def item {α : Type} (xs : List α) (n : ℕ) : Js α :=
  match xs[n]? with
  | some x => pure x
  | none => undefined

/-- `setAttribute('id', x)`. -/
def setId (e : Element) (x : Str) : Js Unit := modify fun s => { s with ids := (e, x) :: s.ids }

/-- The last displayed table, or `tableIndex` as it was. -/
def lastDisplayed (tables : List SubTable) (tableIndex : ℕ) : ℕ :=
  tables.zipIdx.foldl (fun i t => if t.1.displayed then t.2 else i) tableIndex

/-- `split(/[\s]+/)[0]`. -/
def firstWord (s : Str) : Str := s.takeWhile (! jsSpace ·)

/-- The id of an inner line. -/
def lineId (memberNo benefit header : Str) : Str :=
  memberNo ++ ' ' :: benefit ++ ' ' :: header

/-- What the loops of `fixMbrAdjustmentIDs` and `fixMbrDetlIDs` differ in: the cell whose lines name
the benefits, and the labels of the rows with totals. -/
structure IdScript where
  benefits : ℕ
  isTotals : Str → Bool

/-- `members[i]` for `i` from 2 up to `members.length - 3`, each with its `i`. -/
def AdjustmentsTable.walked (t : AdjustmentsTable) : List (PageRow × ℕ) :=
  ((t.rows.drop 2).take (t.rows.length - 4)).zipIdx 2

namespace IdScript

variable (c : IdScript)

/-- The body of the first `if`, for a row with a cell below every header. -/
def fixMember (headers : List Str) (i : ℕ) (row : PageRow) : Js Unit := do
  let shown ← item row.cells 2
  modify fun s => { s with tableIndex := lastDisplayed shown.tables s.tableIndex }
  let cell ← item row.subtableCells 0
  modify fun s => { s with memberNo := firstWord cell.innerText }
  let first ← item row.cells c.benefits
  let s ← get
  let benefits ← item first.tables s.tableIndex
  if cell.links = 0 then undefined
  setId (.link i) (s.memberNo ++ " Name".toList)
  benefits.lines.zipIdx.forM fun benefit =>
    ((row.cells.zip headers).zipIdx.drop 1).forM fun column => do
      let table ← item column.1.1.tables s.tableIndex
      let _ ← item table.lines benefit.2
      setId (.line i column.2 s.tableIndex benefit.2)
        (lineId s.memberNo benefit.1 column.1.2)

/-- The body of the last `if`. Without a `colspan` the loop ends at once, since no number is at most
`NaN`. -/
def fixTotals (headers : List Str) (i : ℕ) (row : PageRow) : Js Unit := do
  match row.cells with
  | [] => pure ()
  | first :: _ =>
    if c.isTotals first.innerText then
      match first.colspan with
      | none => pure ()
      | some colspan =>
        (List.range (headers.length - colspan)).forM fun l => do
          let _ ← item row.cells (l + 1)
          let header ← item headers (colspan + l)
          setId (.cell i (l + 1)) (lineId (← get).memberNo first.innerText header)

def fixRow (headers : List Str) (i : ℕ) (row : PageRow) : Js Unit := do
  if row.cells.length = headers.length ∧ row.innerText ≠ [] then c.fixMember headers i row
  c.fixTotals headers i row

/-- The ids given on a page, the last one first. -/
def run (t : AdjustmentsTable) : List (Element × Str) :=
  match (t.walked.forM fun row => c.fixRow t.headers row.2 row.1) ⟨[], 0, []⟩ with
  | .ok (_, s) => s.ids
  | .error s => s.ids

end IdScript

def adjustmentScript : IdScript where
  benefits := 1
  isTotals label := "Total".toList.isPrefixOf label || Text.contains label "Subtotal".toList

/-- The ids of the member adjustments. -/
def fixMbrAdjustmentIDs (t : AdjustmentsTable) : List (Element × Str) := adjustmentScript.run t

/-- The elements of a row in document order; the link is within the first cell. -/
def rowElements (i : ℕ) (row : PageRow) : List Element :=
  .link i :: row.cells.zipIdx.flatMap fun c =>
    .cell i c.2 :: c.1.tables.zipIdx.flatMap fun t =>
      t.1.lines.zipIdx.map fun line => .line i c.2 t.2 line.2

def AdjustmentsTable.elements (t : AdjustmentsTable) : List Element :=
  t.rows.zipIdx.flatMap fun row => rowElements row.2 row.1

/-- `document.getElementById` after `fixMbrAdjustmentIDs`. -/
def AdjustmentsTable.getElementById (t : AdjustmentsTable) (x : Str) : Option Element :=
  Elements.byId t.elements (fixMbrAdjustmentIDs t) x

/-! ## The page -/

/-- The headers below which `validateMemberAdjustments` looks. -/
def adjustmentFields : List Str :=
  ["Benefit".toList, "Reason".toList, "Payroll Deduction".toList, "Premium/Fees".toList]

/-- A run makes the checks of every record. -/
theorem validateMemberAdjustments_run (b : BillData) {w : World} (h : w.rs = none) :
    validateMemberAdjustments b w = .ok ((), { w with
      log := w.log ++ (b.adjustments.flatMap adjustmentChecks).map w.labelled }) := by
  let body : Unit → Vb Unit := fun _ => do
    let r ← current
    validateElements (adjustmentChecks r)
    moveNext
  have hbody : ∀ x r rest log, body x (w.reading b.adjustments (r :: rest) log) =
      .ok ((), w.reading b.adjustments rest (log ++ (adjustmentChecks r).map w.labelled)) := by
    intro _ r rest log
    show (current >>= _) _ = _
    rw [bind_run (current_cons r), bind_run (validateElements_log _)]
    exact moveNext_cons r
  have hscan : whileRow (fun _ => some true) () body
      (w.reading b.adjustments (b.adjustments ++ []) w.log) = .ok ((), w.reading b.adjustments []
        (w.log ++ (scanned (fun _ _ => ()) (fun _ => adjustmentChecks) () b.adjustments).map
          w.labelled)) :=
    whileRow_scan _ _ hbody () _ (fun _ _ => rfl) (fun _ hr => absurd hr (by simp)) _
  rw [scanned_unit, List.append_nil] at hscan
  unfold validateMemberAdjustments
  rw [bind_run (rsOpen_run h b.adjustments)]
  refine (bind_run hscan _).trans ((rsClose_run rfl).trans ?_)
  rw [← h]
  rfl

/-- The ids of the checks of a record of type `I`. -/
theorem htmlId_adjustmentChecks {r : Row} (h : r.text .recordType = some ['I']) :
    (adjustmentChecks r).map Check.htmlId =
      (shown (r.text .mbrNo) ++ " Name".toList) ::
        adjustmentFields.map (lineId (shown (r.text .mbrNo)) (shown (r.text .benShrtNm))) := by
  unfold adjustmentChecks
  rw [h]
  rfl

/-- A member on the page: a row with an inner line for each record of type `I`, and the rows with
the subtotals. -/
structure AdjustedMember (headers : List Str) where
  mbrNo : Str
  records : List Row
  others : List Row
  row : PageRow
  totals : List PageRow
  table : ℕ
  records_ne : records ≠ []
  records_shape : ∀ r ∈ records, r.text .recordType = some ['I'] ∧ shown (r.text .mbrNo) = mbrNo
  others_shape : ∀ r ∈ others, r.text .recordType ≠ some ['I']
  innerText_ne : row.innerText ≠ []
  cells_length : row.cells.length = headers.length
  no_colspan : ∀ cell ∈ row.cells.head?, cell.colspan = none
  number : ∃ cell cells rest, row.subtableCells = cell :: cells ∧ cell.links ≠ 0 ∧
    cell.innerText = mbrNo ++ rest ∧ ∀ c ∈ rest.head?, jsSpace c = true
  displayed : ∃ cell hidden last undisplayed, row.cells[2]? = some cell ∧
    cell.tables = hidden ++ last :: undisplayed ∧ hidden.length = table ∧
    last.displayed = true ∧ ∀ t ∈ undisplayed, t.displayed = false
  lines : ∀ k cell, row.cells[k + 1]? = some cell →
    ∃ t, cell.tables[table]? = some t ∧ t.lines.length = records.length
  benefits : ∃ cell t, row.cells[1]? = some cell ∧ cell.tables[table]? = some t ∧
    t.lines = records.map fun r => shown (r.text .benShrtNm)
  totals_shape : ∀ row ∈ totals, row.cells.length ≠ headers.length ∧
    ∀ cell ∈ row.cells.head?, ∀ colspan ∈ cell.colspan, headers.length - colspan < row.cells.length

def AdjustedMember.rows {headers : List Str} (m : AdjustedMember headers) : List PageRow :=
  m.row :: m.totals

/-- The page of an adjustments recordset, with a member after the other. No field ends, after a
blank, in the header of a column of the lines, and no such header in a field. -/
structure AdjustmentsPage where
  headers : List Str
  members : List (AdjustedMember headers)
  top : List PageRow
  bottom : List PageRow
  fields_mem : ∀ h ∈ adjustmentFields, h ∈ headers.tail
  headers_nodup : headers.tail.Nodup
  headers_apart : ∀ h ∈ adjustmentFields, ∀ h' ∈ headers.tail,
    ¬ (' ' :: h) <:+ h' ∧ ¬ (' ' :: h') <:+ h
  distinct : (members.map AdjustedMember.mbrNo).Nodup
  top_length : top.length = 2
  bottom_length : bottom.length = 2

def AdjustmentsPage.table (p : AdjustmentsPage) : AdjustmentsTable where
  headers := p.headers
  rows := p.top ++ p.members.flatMap AdjustedMember.rows ++ p.bottom

/-- The records in the order of the page. -/
def AdjustmentsPage.recordset (p : AdjustmentsPage) : List Row :=
  p.members.flatMap fun m => m.records ++ m.others

/-- The members, each with the index of its row. -/
def positions {headers : List Str} : ℕ → List (AdjustedMember headers) →
    List (ℕ × AdjustedMember headers)
  | _, [] => []
  | i, m :: ms => (i, m) :: positions (i + m.rows.length) ms

/-! ## The ids of a row -/

section Runs

variable {headers : List Str} {s : Script}

/-- After giving some ids, the last one of the list last. -/
def Script.add (s : Script) (given : List (Element × Str)) : Script :=
  { s with ids := given.reverse ++ s.ids }

/-- Ids that are given later come after those that are given first. -/
theorem Script.add_add (s : Script) (xs ys : List (Element × Str)) :
    (s.add xs).add ys = s.add (xs ++ ys) := by
  simp [Script.add]

theorem setId_run (e : Element) (x : Str) (s : Script) : setId e x s = .ok ((), s.add [(e, x)]) :=
  rfl

theorem item_run {α : Type} {xs : List α} {n : ℕ} {x : α} (h : xs[n]? = some x) (s : Script) :
    item xs n s = .ok (x, s) := by
  unfold item
  rw [h]
  rfl

/-- A loop whose rounds give ids. -/
theorem forM_run {β : Type} {f : β → Js Unit} (g : β → List (Element × Str)) {xs : List β}
    (h : ∀ x ∈ xs, ∀ s' : Script, s'.memberNo = s.memberNo → f x s' = .ok ((), s'.add (g x))) :
    xs.forM f s = .ok ((), s.add (xs.flatMap g)) := by
  induction xs generalizing s with
  | nil => rfl
  | cons x xs ih =>
    rw [List.forall_mem_cons] at h
    show (f x >>= fun _ => xs.forM f) s = _
    rw [bind_run (h.1 s rfl), ih (s := s.add (g x)) h.2, Script.add_add, List.flatMap_cons]

/-- The last displayed table is found wherever the index stood. -/
theorem lastDisplayed_eq {hidden undisplayed : List SubTable} {last : SubTable}
    (hlast : last.displayed = true) (hundisplayed : ∀ t ∈ undisplayed, t.displayed = false)
    (tableIndex : ℕ) :
    lastDisplayed (hidden ++ last :: undisplayed) tableIndex = hidden.length := by
  have hrest : ∀ (ts : List SubTable) (k i : ℕ), (∀ t ∈ ts, t.displayed = false) →
      (ts.zipIdx k).foldl (fun i t => if t.1.displayed then t.2 else i) i = i := by
    intro ts
    induction ts with
    | nil => exact fun _ _ _ => rfl
    | cons t ts ih =>
      intro k i h
      rw [List.forall_mem_cons] at h
      rw [List.zipIdx_cons, List.foldl_cons, h.1]
      exact ih (k + 1) i h.2
  unfold lastDisplayed
  rw [List.zipIdx_append, List.foldl_append, List.zipIdx_cons, List.foldl_cons, if_pos hlast,
    hrest _ _ _ hundisplayed, Nat.zero_add]

/-- The columns below the headers, but for the first. -/
theorem mem_columns_iff {cells : List PageCell} {column : (PageCell × Str) × ℕ} :
    column ∈ (cells.zip headers).zipIdx.drop 1 ↔
      ∃ k, column.2 = k + 1 ∧ cells[k + 1]? = some column.1.1 ∧
        headers[k + 1]? = some column.1.2 := by
  obtain ⟨⟨cell, header⟩, n⟩ := column
  rw [List.mem_iff_getElem?]
  apply exists_congr
  intro k
  rw [List.getElem?_drop, List.getElem?_zipIdx, Nat.zero_add, Nat.add_comm 1 k]
  constructor
  · intro h
    obtain ⟨c, hc, heq⟩ := Option.map_eq_some_iff.mp h
    rw [List.getElem?_zip_eq_some] at hc
    rw [Prod.mk.injEq] at heq
    obtain ⟨rfl, rfl⟩ := heq
    exact ⟨rfl, hc⟩
  · rintro ⟨rfl, hc⟩
    rw [List.getElem?_zip_eq_some.mpr hc]
    rfl

end Runs

/-- White space ends the first word. -/
theorem firstWord_append {s rest : Str} (h : ∀ c ∈ rest.head?, jsSpace c = true) :
    firstWord (s ++ rest) = firstWord s := by
  have hrest : rest.takeWhile (! jsSpace ·) = [] := by
    cases rest with
    | nil => rfl
    | cons c rest => exact List.takeWhile_cons_of_neg (by simp [h c rfl])
  unfold firstWord
  rw [List.takeWhile_append, hrest, List.append_nil]
  split
  · next hlength => exact ((List.takeWhile_prefix _).eq_of_length hlength).symm
  · rfl

namespace AdjustedMember

variable {headers : List Str} (m : AdjustedMember headers)

/-- The text of the benefit on the line of a record. -/
def benefitTexts : List Str := m.records.map fun r => shown (r.text .benShrtNm)

/-- The ids given to the cells of an inner line. -/
def lineIds (i : ℕ) (benefit : Str × ℕ) : List (Element × Str) :=
  ((m.row.cells.zip headers).zipIdx.drop 1).map fun column =>
    (.line i column.2 m.table benefit.2, lineId (firstWord m.mbrNo) benefit.1 column.1.2)

/-- The ids given to the link and the lines of a member. -/
def memberIds (i : ℕ) : List (Element × Str) :=
  (.link i, firstWord m.mbrNo ++ " Name".toList) :: m.benefitTexts.zipIdx.flatMap (m.lineIds i)

/-- The inner loop gives the ids of a line. -/
theorem columns_run (i : ℕ) {benefit : Str × ℕ} (hbenefit : benefit.2 < m.records.length)
    (s : Script) :
    (((m.row.cells.zip headers).zipIdx.drop 1).forM fun column => do
      let table ← item column.1.1.tables m.table
      let _ ← item table.lines benefit.2
      setId (.line i column.2 m.table benefit.2)
        (lineId (firstWord m.mbrNo) benefit.1 column.1.2)) s =
      .ok ((), s.add (m.lineIds i benefit)) := by
  rw [lineIds, List.map_eq_flatMap]
  apply forM_run
  intro column hcolumn s' _
  obtain ⟨k, -, hcell, -⟩ := mem_columns_iff.mp hcolumn
  obtain ⟨t, ht, hlength⟩ := m.lines k _ hcell
  obtain ⟨line, hline⟩ : ∃ line, t.lines[benefit.2]? = some line :=
    ⟨_, List.getElem?_eq_getElem (hlength ▸ hbenefit)⟩
  rw [bind_run (item_run ht s'), bind_run (item_run hline s')]
  exact setId_run _ _ s'

/-- The script gives a member's row the ids of the member. -/
theorem fixMember_run (i : ℕ) (s : Script) :
    adjustmentScript.fixMember headers i m.row s =
      .ok ((), Script.add ⟨firstWord m.mbrNo, m.table, s.ids⟩ (m.memberIds i)) := by
  obtain ⟨cell, cells, rest, hcells, hlinks, htext, hrest⟩ := m.number
  obtain ⟨second, hidden, last, undisplayed, hsecond, htables, hlength, hlast, hnot⟩ := m.displayed
  obtain ⟨first, table, hfirst, htable, hlines⟩ := m.benefits
  have hnumber : m.row.subtableCells[0]? = some cell := by rw [hcells]; rfl
  have hbenefits : m.row.cells[adjustmentScript.benefits]? = some first := hfirst
  have hword : firstWord cell.innerText = firstWord m.mbrNo := by
    rw [htext, firstWord_append hrest]
  have hindex : lastDisplayed second.tables s.tableIndex = m.table := by
    rw [htables, lastDisplayed_eq hlast hnot, hlength]
  let s₁ : Script := ⟨s.memberNo, m.table, s.ids⟩
  let s₂ : Script := ⟨firstWord m.mbrNo, m.table, s.ids⟩
  have hset : (modify fun s => { s with tableIndex := lastDisplayed second.tables s.tableIndex } :
      Js Unit) s = .ok ((), s₁) := by
    show Except.ok ((), (⟨s.memberNo, lastDisplayed second.tables s.tableIndex, s.ids⟩ : Script)) =
      _
    rw [hindex]
  have hname : (modify fun s => { s with memberNo := firstWord cell.innerText } : Js Unit) s₁ =
      .ok ((), s₂) := by
    show Except.ok ((), (⟨firstWord cell.innerText, m.table, s.ids⟩ : Script)) = _
    rw [hword]
  unfold IdScript.fixMember
  rw [bind_run (item_run hsecond s), bind_run hset, bind_run (item_run hnumber s₁),
    bind_run hname, bind_run (item_run hbenefits s₂), get_bind_run,
    bind_run (item_run htable s₂), if_neg hlinks]
  refine (bind_run (setId_run _ _ s₂) _).trans ?_
  rw [hlines]
  refine (forM_run (m.lineIds i) fun benefit hbenefit s' _ => m.columns_run i ?_ s').trans ?_
  · have hlt := List.snd_lt_of_mem_zipIdx hbenefit
    rwa [List.length_map, Nat.add_zero] at hlt
  · rw [Script.add_add]
    rfl

end AdjustedMember

/-! ## The ids of the rows of a member -/

section Members

variable {headers : List Str}

/-- A row with subtotals gives ids to cells only, with the number of the member before. -/
theorem fixTotals_run (c : IdScript) {row : PageRow}
    (hshape : ∀ cell ∈ row.cells.head?, ∀ colspan ∈ cell.colspan,
      headers.length - colspan < row.cells.length) (i : ℕ) (s : Script) :
    ∃ given, c.fixTotals headers i row s = .ok ((), s.add given) ∧
      ∀ q ∈ given, ∃ l y, q = (.cell i l, s.memberNo ++ ' ' :: y) := by
  have hnone : ∃ given, (pure () : Js Unit) s = .ok ((), s.add given) ∧
      ∀ q ∈ given, ∃ l y, q = (.cell i l, s.memberNo ++ ' ' :: y) :=
    ⟨[], rfl, List.forall_mem_nil _⟩
  unfold IdScript.fixTotals
  cases hcells : row.cells with
  | nil => exact hnone
  | cons first cells =>
    rw [hcells] at hshape
    dsimp only
    split
    · cases hspan : first.colspan with
      | none => exact hnone
      | some colspan =>
        have hlt := hshape first rfl colspan hspan
        let given : ℕ → List (Element × Str) := fun l =>
          [(.cell i (l + 1), lineId s.memberNo first.innerText (headers.getD (colspan + l) []))]
        refine ⟨(List.range (headers.length - colspan)).flatMap given, ?_, ?_⟩
        · apply forM_run
          intro l hl s' hs'
          rw [List.mem_range] at hl
          obtain ⟨cell, hcell⟩ : ∃ cell, (first :: cells)[l + 1]? = some cell :=
            ⟨_, List.getElem?_eq_getElem (by omega)⟩
          have hheader : headers[colspan + l]? = some (headers.getD (colspan + l) []) := by
            rw [List.getD_eq_getElem?_getD, List.getElem?_eq_getElem (by omega)]
            rfl
          rw [bind_run (item_run hcell s'), bind_run (item_run hheader s'), get_bind_run, hs']
          exact setId_run _ _ s'
        · intro q hq
          obtain ⟨l, -, hl⟩ := List.mem_flatMap.mp hq
          rw [List.mem_singleton.mp hl]
          exact ⟨l + 1, first.innerText ++ ' ' :: headers.getD (colspan + l) [], by
            simp [lineId]⟩
    · exact hnone

namespace AdjustedMember

variable (m : AdjustedMember headers)

/-- A member's row is none with totals. -/
theorem fixRow_row_run (i : ℕ) (s : Script) :
    adjustmentScript.fixRow headers i m.row s =
      .ok ((), Script.add ⟨firstWord m.mbrNo, m.table, s.ids⟩ (m.memberIds i)) := by
  have htotals : ∀ s : Script, adjustmentScript.fixTotals headers i m.row s = .ok ((), s) := by
    intro s
    unfold IdScript.fixTotals
    cases hcells : m.row.cells with
    | nil => rfl
    | cons first cells =>
      have hspan := m.no_colspan first (by rw [hcells]; rfl)
      dsimp only
      rw [hspan]
      split <;> rfl
  unfold IdScript.fixRow
  rw [if_pos ⟨m.cells_length, m.innerText_ne⟩, bind_run (m.fixMember_run i s)]
  exact htotals _

/-- The rows with the subtotals of a member. -/
theorem totals_run {rows : List PageRow} (hrows : ∀ row ∈ rows, row ∈ m.totals) (i : ℕ)
    (s : Script) :
    ∃ given, ((rows.zipIdx i).forM fun row => adjustmentScript.fixRow headers row.2 row.1) s =
        .ok ((), s.add given) ∧
      ∀ q ∈ given, ∃ k l y, i ≤ k ∧ k < i + rows.length ∧
        q = (.cell k l, s.memberNo ++ ' ' :: y) := by
  induction rows generalizing i s with
  | nil => exact ⟨[], rfl, List.forall_mem_nil _⟩
  | cons row rows ih =>
    rw [List.forall_mem_cons] at hrows
    have hshape := m.totals_shape row hrows.1
    obtain ⟨given, hrun, hgiven⟩ := fixTotals_run adjustmentScript hshape.2 i s
    obtain ⟨later, hrest, hlater⟩ := ih hrows.2 (i + 1) (s.add given)
    refine ⟨given ++ later, ?_, ?_⟩
    · rw [List.zipIdx_cons]
      show (adjustmentScript.fixRow headers i row >>= fun _ => _) s = _
      have hrow : adjustmentScript.fixRow headers i row s = .ok ((), s.add given) := by
        unfold IdScript.fixRow
        rw [if_neg fun h => hshape.1 h.1]
        exact hrun
      rw [bind_run hrow, ← Script.add_add]
      exact hrest
    · intro q hq
      rw [List.length_cons]
      rcases List.mem_append.mp hq with hq | hq
      · obtain ⟨l, y, rfl⟩ := hgiven q hq
        exact ⟨i, l, y, Nat.le_refl i, by omega, rfl⟩
      · obtain ⟨k, l, y, hle, hlt, rfl⟩ := hlater q hq
        exact ⟨k, l, y, by omega, by omega, rfl⟩

/-- What the rows of a member, the first of which is the `i`-th, may give to an element. -/
def Gives (i : ℕ) (q : Element × Str) : Prop :=
  q ∈ m.memberIds i ∨
    ∃ k l y, i < k ∧ k < i + m.rows.length ∧ q = (.cell k l, firstWord m.mbrNo ++ ' ' :: y)

/-- The ids given in the rows of a member are ids it gives, and those of its own row are given. -/
theorem rows_run (i : ℕ) (s : Script) :
    ∃ s', ((m.rows.zipIdx i).forM fun row => adjustmentScript.fixRow headers row.2 row.1) s =
        .ok ((), s') ∧
      (∀ q ∈ s'.ids, q ∈ s.ids ∨ m.Gives i q) ∧
      (∀ q, q ∈ s.ids ∨ q ∈ m.memberIds i → q ∈ s'.ids) := by
  let s₁ := Script.add ⟨firstWord m.mbrNo, m.table, s.ids⟩ (m.memberIds i)
  obtain ⟨given, hrun, hgiven⟩ := m.totals_run (fun _ h => h) (i + 1) s₁
  refine ⟨s₁.add given, ?_, ?_, ?_⟩
  · rw [rows, List.zipIdx_cons]
    show (adjustmentScript.fixRow headers i m.row >>= fun _ => _) s = _
    rw [bind_run (m.fixRow_row_run i s)]
    exact hrun
  · intro q hq
    simp only [s₁, Script.add, List.mem_append, List.mem_reverse] at hq
    rcases hq with hq | hq | hq
    · obtain ⟨k, l, y, hle, hlt, rfl⟩ := hgiven q hq
      refine .inr (.inr ⟨k, l, y, by omega, ?_, rfl⟩)
      rw [rows, List.length_cons]
      omega
    · exact .inr (.inl hq)
    · exact .inl hq
  · intro q hq
    simp only [s₁, Script.add, List.mem_append, List.mem_reverse]
    exact .inr (hq.symm)

end AdjustedMember

/-- So are those given in the rows of members one after the other. -/
theorem members_run (ms : List (AdjustedMember headers)) (i : ℕ) (s : Script) :
    ∃ s', (((ms.flatMap AdjustedMember.rows).zipIdx i).forM fun row =>
        adjustmentScript.fixRow headers row.2 row.1) s = .ok ((), s') ∧
      (∀ q ∈ s'.ids, q ∈ s.ids ∨ ∃ p ∈ positions i ms, p.2.Gives p.1 q) ∧
      (∀ q, q ∈ s.ids ∨ (∃ p ∈ positions i ms, q ∈ p.2.memberIds p.1) → q ∈ s'.ids) := by
  induction ms generalizing i s with
  | nil => exact ⟨s, rfl, fun q hq => .inl hq, by simp [positions]⟩
  | cons m ms ih =>
    obtain ⟨s₁, hrun, honly, hall⟩ := m.rows_run i s
    obtain ⟨s₂, hrest, honly', hall'⟩ := ih (i + m.rows.length) s₁
    refine ⟨s₂, ?_, ?_, ?_⟩
    · rw [List.flatMap_cons, List.zipIdx_append]
      exact (congrFun List.forM_append s).trans ((bind_run hrun _).trans hrest)
    · intro q hq
      rcases honly' q hq with hq | ⟨p, hp, hgives⟩
      · exact (honly q hq).imp_right fun hgives => ⟨(i, m), List.mem_cons_self, hgives⟩
      · exact .inr ⟨p, List.mem_cons_of_mem _ hp, hgives⟩
    · rintro q (hq | ⟨p, hp, hq⟩)
      · exact hall' q (.inl (hall q (.inl hq)))
      · rcases List.mem_cons.mp hp with rfl | hp
        · exact hall' q (.inl (hall q (.inr hq)))
        · exact hall' q (.inr ⟨p, hp, hq⟩)

/-- The rows of a member come after those of the members before. -/
theorem positions_pairwise (i : ℕ) (ms : List (AdjustedMember headers)) :
    (positions i ms).Pairwise (fun p q => p.1 + p.2.rows.length ≤ q.1) ∧
      ∀ p ∈ positions i ms, i ≤ p.1 := by
  induction ms generalizing i with
  | nil => exact ⟨List.Pairwise.nil, List.forall_mem_nil _⟩
  | cons m ms ih =>
    obtain ⟨hpairwise, hle⟩ := ih (i + m.rows.length)
    refine ⟨List.Pairwise.cons hle hpairwise, List.forall_mem_cons.mpr ⟨Nat.le_refl i, ?_⟩⟩
    exact fun p hp => (Nat.le_add_right i _).trans (hle p hp)

/-- The row at a position. -/
theorem getElem?_of_mem_positions {i : ℕ} {ms : List (AdjustedMember headers)}
    {p : ℕ × AdjustedMember headers} (hp : p ∈ positions i ms) :
    (ms.flatMap AdjustedMember.rows)[p.1 - i]? = some p.2.row := by
  induction ms generalizing i with
  | nil => exact absurd hp List.not_mem_nil
  | cons m ms ih =>
    rcases List.mem_cons.mp hp with rfl | hp
    · rw [List.flatMap_cons, Nat.sub_self]
      rfl
    · have hle := (positions_pairwise _ ms).2 p hp
      have hsub : p.1 - i - m.rows.length = p.1 - (i + m.rows.length) := by omega
      rw [List.flatMap_cons, List.getElem?_append_right (by omega), hsub]
      exact ih hp

/-- Every member has a position. -/
theorem positions_map_snd (i : ℕ) (ms : List (AdjustedMember headers)) :
    (positions i ms).map Prod.snd = ms := by
  induction ms generalizing i with
  | nil => rfl
  | cons m ms ih => rw [positions, List.map_cons, ih]

end Members

/-! ## The ids of the page -/

namespace AdjustmentsPage

variable (p : AdjustmentsPage)

/-- The members of the page with the indices of their rows. -/
def placed : List (ℕ × AdjustedMember p.headers) := positions 2 p.members

/-- The rows that the script walks are those of the members. -/
theorem walked_table : p.table.walked = (p.members.flatMap AdjustedMember.rows).zipIdx 2 := by
  have hlength : p.table.rows.length - 4 = (p.members.flatMap AdjustedMember.rows).length := by
    have htop := p.top_length
    have hbottom := p.bottom_length
    simp only [table, List.length_append] at htop hbottom ⊢
    omega
  rw [AdjustmentsTable.walked, hlength, table, List.append_assoc, ← p.top_length, List.drop_left,
    List.take_left]

/-- The ids given on the page are those of its members. -/
theorem ids_spec :
    (∀ q ∈ fixMbrAdjustmentIDs p.table, ∃ m ∈ p.placed, m.2.Gives m.1 q) ∧
      ∀ m ∈ p.placed, ∀ q ∈ m.2.memberIds m.1, q ∈ fixMbrAdjustmentIDs p.table := by
  obtain ⟨s, hrun, honly, hall⟩ := members_run p.members 2 ⟨[], 0, []⟩
  have hids : fixMbrAdjustmentIDs p.table = s.ids := by
    unfold fixMbrAdjustmentIDs IdScript.run
    rw [walked_table]
    have hheaders : p.table.headers = p.headers := rfl
    rw [hheaders, hrun]
  rw [hids]
  exact ⟨fun q hq => (honly q hq).resolve_left List.not_mem_nil,
    fun m hm q hq => hall q (.inr ⟨m, hm, hq⟩)⟩

/-- Two members with a common row are the same. -/
theorem placed_eq {a b : ℕ × AdjustedMember p.headers} (ha : a ∈ p.placed) (hb : b ∈ p.placed)
    (hlt : a.1 < b.1 + b.2.rows.length) (hlt' : b.1 < a.1 + a.2.rows.length) : a = b := by
  have hpairwise := List.pairwise_iff_getElem.mp (positions_pairwise 2 p.members).1
  obtain ⟨i, hi, rfl⟩ := List.getElem_of_mem ha
  obtain ⟨j, hj, rfl⟩ := List.getElem_of_mem hb
  rcases Nat.lt_trichotomy i j with h | h | h
  · have hle := hpairwise i j hi hj h
    exact absurd hle (Nat.not_le.mpr hlt')
  · subst h
    rfl
  · have hle := hpairwise j i hj hi h
    exact absurd hle (Nat.not_le.mpr hlt)

/-- A member has its own number. -/
theorem placed_eq_of_mbrNo {a b : ℕ × AdjustedMember p.headers} (ha : a ∈ p.placed)
    (hb : b ∈ p.placed) (h : a.2.mbrNo = b.2.mbrNo) : a = b := by
  have hnodup : (p.placed.map fun m => m.2.mbrNo).Nodup := by
    have hmap : (p.placed.map fun m => m.2.mbrNo) =
        (p.placed.map Prod.snd).map AdjustedMember.mbrNo := by rw [List.map_map]; rfl
    rw [hmap, placed, positions_map_snd]
    exact p.distinct
  exact List.inj_on_of_nodup_map hnodup ha hb h

/-- The row of a member stands at its position. -/
theorem getElem?_rows {m : ℕ × AdjustedMember p.headers} (hm : m ∈ p.placed) :
    p.table.rows[m.1]? = some m.2.row := by
  have hle := (positions_pairwise 2 p.members).2 m hm
  have hrow := getElem?_of_mem_positions hm
  have hlt := (List.getElem?_eq_some_iff.mp hrow).1
  rw [table, List.append_assoc, List.getElem?_append_right (by rw [p.top_length]; exact hle),
    p.top_length, List.getElem?_append_left hlt, hrow]

end AdjustmentsPage

end OaBills
