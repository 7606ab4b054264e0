import Mathlib.Data.Rat.Floor
import ScriptsMisc.Lib.Regex
import ScriptsMisc.Lib.Routine
import ScriptsMisc.Vbs.Variant

/-! # Recordsets and checks of the bill validation

`oa_bills_functions(2012-08-03).qfl` validates the bills of a policy. All its routines share the
connection `con` and the recordset `rs`, which may only be opened when closed and only be used
when open, and they report what they check by `validateBillElement`.

The routines are modelled twice. Here a check is a line of the log, made of what the routine passes
to `validateElement`: what the page shows is not converted and stops no run, and a field that is
read past the last row is null. The routines of `Strict` run on a page and stop at both.
-/

namespace OaBills

open Vbs (shown)

/-! ## Rows -/

/-- The columns the routines read. -/
inductive Column where
  | contNo | bgrpKey | dbillFrmtCd | billFormat | recordType | groupTitle | benShrtNm | benDesc
  | cvrdAmt | cvrdLvs | curPyrlTot | curPremTot | curTotal | summEmpleeContrib
  | summEmplrContrib | summRollupIndicator | mbrNo | mbrLastname | mbrFirstname | adjReas1LDesc
  | adjPyrlAmt | adjPremAmt | adjPyrlTot | adjPremTot | adjTotal | ageRangeDesc
  | mbrCvrgIssueAge | pastDueAmt | empleeContrib | currBenAmt | curPyrlAmt | curPremAmt
  | pastDueTot | empleeTot | rollupIndicator | stmtDueDt | billDt | bllngPerd | priorBalDueTot
  | mbrAdjTot | pymtRecTot | amtDueTot | bsvcBusPhoneNo | bsvcBusFaxNo | coDisplayNm
  | coAddrLine1 | coCity | coState | coPostcd | payrOrgname | coNm | bsvcBusAddr1 | bsvcBusCity
  | bsvcBusState | bsvcBusPostcd | catNo | bgrrKey
deriving DecidableEq, Repr

/-- A value that is not null: its text, and the number `CDbl` takes it for. -/
structure Cell where
  text : Str
  number : ℚ
deriving DecidableEq, Repr

/-- A row by column; `none` is null. -/
abbrev Row := Column → Option Cell

/-- The row with these values, null everywhere else. -/
def Row.of (values : List (Column × Cell)) : Row := fun c => values.lookup c

/-- A row of this type, without values. -/
def typedRow (recordType : Char) : Row := Row.of [(.recordType, ⟨[recordType], 0⟩)]

/-- `rs (c)` as a text. -/
def Row.text (r : Row) (c : Column) : Option Str := (r c).map Cell.text

/-- `dbl (c)`: 0 for null. -/
def Row.dbl (r : Row) (c : Column) : ℚ := ((r c).map Cell.number).getD 0

/-! ## VBScript on nullable texts -/

/-- The operator `=`, null when a side is. -/
def eqNull (s t : Option Str) : Option Bool := s.bind fun s => t.map fun t => decide (s = t)

/-- The operator `<>`. -/
def neNull (s t : Option Str) : Option Bool := (eqNull s t).map (!·)

/-- The operator `not`. -/
def notNull (b : Option Bool) : Option Bool := b.map (!·)

/-- The operator `or`. -/
def orNull : Option Bool → Option Bool → Option Bool
  | some true, _ => some true
  | _, some true => some true
  | some false, some false => some false
  | _, _ => none

/-- The condition of an `If` or `While`: null does not hold. -/
def holds (b : Option Bool) : Bool := b.getD false

/-- A comparison with a text holds only of that text. -/
theorem holds_eqNull_iff (s : Option Str) (t : Str) :
    holds (eqNull s (some t)) = true ↔ s = some t := by
  cases s <;> simp [holds, eqNull]

/-- An `or` holds when one of its sides does. -/
theorem holds_orNull (a b : Option Bool) : holds (orNull a b) = (holds a || holds b) := by
  rcases a with _ | _ | _ <;> rcases b with _ | _ | _ <;> rfl

/-- A `not` holds only of what is false, and null is not. -/
theorem holds_notNull_iff (b : Option Bool) : holds (notNull b) = true ↔ b = some false := by
  rcases b with _ | _ | _ <;> decide

/-- A comparison is false only where there is another text. -/
theorem eqNull_eq_false_iff (s : Option Str) (t : Str) :
    eqNull s (some t) = some false ↔ s.isSome = true ∧ s ≠ some t := by
  cases s <;> simp [eqNull]

/-- `While not (c = t)` goes on at a value that is neither null nor `t`. -/
theorem holds_notNull_eqNull_iff (s : Option Str) (t : Str) :
    holds (notNull (eqNull s (some t))) = true ↔ s.isSome = true ∧ s ≠ some t := by
  rw [holds_notNull_iff, eqNull_eq_false_iff]

/-- `or` with a side that does not hold gives the other side. -/
theorem orNull_false (b : Option Bool) : orNull (some false) b = b := by
  rcases b with _ | _ | _ <;> rfl

/-- `regExReplace (s, "^\s+", "")`, where `regExReplace` replaces every match. -/
def stripLeading (s : Str) : Str :=
  Regex.replaceAll (.seq .start (.plus Text.isSpace)) (fun _ => []) s

/-- `CInt`: to the nearest whole number, halves to the even one. -/
def cInt (x : ℚ) : ℤ :=
  let down := ⌊x⌋
  if x - down < 1 / 2 then down
  else if 1 / 2 < x - down then down + 1
  else if down % 2 = 0 then down else down + 1

/-! ## The state of a run -/

/-- What a check expects on the page. -/
inductive Expected where
  | text (s : Option Str)
  | number (x : ℚ)
deriving DecidableEq, Repr

/-- The third parameter of `validateElement`. -/
inductive Typ where
  | string
  | double
  | int
  | date
deriving DecidableEq, Repr

/-- A call of `validateElement`. -/
structure Check where
  label : Str
  htmlId : Str
  expected : Expected
  typ : Typ
deriving DecidableEq, Repr

/-- The call `validateBillElement (id & what, s, typ)` makes. -/
def textCheck (id : Str) (what : String) (s : Option Str) (typ : Typ) : Check :=
  ⟨id ++ what.toList, id ++ what.toList, .text s, typ⟩

/-- The call `validateBillElement (id & what, x, typ)` makes. -/
def numberCheck (id : Str) (what : String) (x : ℚ) (typ : Typ) : Check :=
  ⟨id ++ what.toList, id ++ what.toList, .number x, typ⟩

/-- An open recordset: all its rows, and the rows from the current one on. -/
structure Cursor where
  rows : List Row
  rest : List Row

/-- The globals; `rs` is `none` while the recordset is closed. -/
structure World where
  con : Bool
  rs : Option Cursor
  polNo : Option Str
  bgrpKey : Option Str
  abllKeyGlobal : Option Str
  pyrlTot : Option Str
  dbillFrmtCd : Option Str
  billFormat : Option Str
  log : List Check

/-- The globals before the first bill. -/
def World.start : World := ⟨false, none, none, none, none, none, none, none, []⟩

/-- Why a run stops. `on error resume next` stands outside of the routines, so that an error ends
the call of `validatePolicy` and no statement within it goes on. `stuck` would be a loop that goes
on after its rows are used up. -/
inductive AdoError where
  | objectOpen
  | objectClosed
  | stuck
deriving DecidableEq, Repr

abbrev Vb := StateT World (Except AdoError)

/-- `DBILL_FRMT_CD = "E"`. -/
def World.isE (w : World) : Bool := holds (eqNull w.dbillFrmtCd (some ['E']))

/-- `(DBILL_FRMT_CD = "4") or (BILL_FORMAT = "04")`. -/
def World.isFour (w : World) : Bool :=
  holds (orNull (eqNull w.dbillFrmtCd (some ['4'])) (eqNull w.billFormat (some ['0', '4'])))

/-- `not (PYRL_TOT = "0")`. -/
def World.hasPayroll (w : World) : Bool := holds (notNull (eqNull w.pyrlTot (some ['0'])))

/-! ## The objects -/

def conOpen : Vb Unit := do
  if (← get).con then throw .objectOpen
  modify fun w => { w with con := true }

def conClose : Vb Unit := do
  if !(← get).con then throw .objectClosed
  modify fun w => { w with con := false }

/-- `rs.open` of a query with these rows. -/
def rsOpen (rows : List Row) : Vb Unit := do
  if (← get).rs.isSome then throw .objectOpen
  modify fun w => { w with rs := some ⟨rows, rows⟩ }

/-- The open recordset. -/
def cursor : Vb Cursor := do
  match (← get).rs with
  | some c => return c
  | none => throw .objectClosed

def rsClose : Vb Unit := do
  let _ ← cursor
  modify fun w => { w with rs := none }

/-- The row whose fields `rs (..)` reads. Past the last row, where queries with well-formed rows
are never read, every field is null. -/
def current : Vb Row := do return (← cursor).rest.headD fun _ => none

def moveNext : Vb Unit := do
  let c ← cursor
  modify fun w => { w with rs := some { c with rest := c.rest.tail } }

def moveFirst : Vb Unit := do
  let c ← cursor
  modify fun w => { w with rs := some { c with rest := c.rows } }

/-- A loop condition on the current row, which does not hold past the last one. -/
def rowHolds (cond : Row → Option Bool) : Vb Bool := do
  match (← cursor).rest with
  | [] => return false
  | r :: _ => return holds (cond r)

/-- `while cond: body`, where the local variables go from round to round. Every body moves on, so
that there are at most as many rounds as rows. -/
def whileRow {τ : Type} (cond : Row → Option Bool) (locals : τ) (body : τ → Vb τ) : Vb τ := do
  let c ← cursor
  Routine.loop .stuck (fun _ => rowHolds cond) body (c.rest.length + 1) locals

/-- A label starts with the policy and the bill. -/
def World.labelled (w : World) (c : Check) : Check :=
  { c with label := shown w.polNo ++ '/' :: shown w.abllKeyGlobal ++ ": ".toList ++ c.label }

/-- A label tells checks apart that differ. -/
theorem labelled_injective (w : World) : Function.Injective w.labelled := by
  rintro ⟨l, i, e, t⟩ ⟨l', i', e', t'⟩ h
  simpa [World.labelled] using h

def validateElement (c : Check) : Vb Unit :=
  modify fun w => { w with log := w.log ++ [w.labelled c] }

/-- Calls one after the other. -/
def validateElements (cs : List Check) : Vb Unit := cs.forM validateElement

/-! ## Runs of single calls -/

section Runs

open Routine

variable {w : World} {c : Cursor}

/-- An open recordset is there. -/
theorem cursor_run (h : w.rs = some c) : cursor w = .ok (c, w) := by
  unfold cursor
  rw [get_bind_run, h]
  rfl

/-- A closed one is an error. -/
theorem cursor_closed (h : w.rs = none) : cursor w = .error .objectClosed := by
  unfold cursor
  rw [get_bind_run, h]
  rfl

theorem conOpen_run (h : w.con = false) :
    conOpen w = .ok ((), { w with con := true }) := by
  unfold conOpen
  rw [get_bind_run, h]
  rfl

theorem conClose_run (h : w.con = true) :
    conClose w = .ok ((), { w with con := false }) := by
  unfold conClose
  rw [get_bind_run, h]
  rfl

theorem rsOpen_run (h : w.rs = none) (rows : List Row) :
    rsOpen rows w = .ok ((), { w with rs := some ⟨rows, rows⟩ }) := by
  unfold rsOpen
  rw [get_bind_run, h]
  rfl

theorem rsClose_run (h : w.rs = some c) :
    rsClose w = .ok ((), { w with rs := none }) := by
  unfold rsClose
  rw [bind_run (cursor_run h)]
  rfl

/-- The current row, or nulls past the last one. -/
theorem current_run (h : w.rs = some c) :
    current w = .ok (c.rest.headD fun _ => none, w) := by
  unfold current
  rw [bind_run (cursor_run h)]
  rfl

/-- Moving on drops the current row. -/
theorem moveNext_run (h : w.rs = some c) :
    moveNext w = .ok ((), { w with rs := some { c with rest := c.rest.tail } }) := by
  unfold moveNext
  rw [bind_run (cursor_run h)]
  rfl

/-- Past the last row no condition holds. -/
theorem rowHolds_run_nil (h : w.rs = some c) (hrest : c.rest = []) (cond : Row → Option Bool) :
    rowHolds cond w = .ok (false, w) := by
  unfold rowHolds
  rw [bind_run (cursor_run h), hrest]
  rfl

/-- Before it the condition is decided on the row. -/
theorem rowHolds_run_cons {r : Row} {rs : List Row} (h : w.rs = some c) (hrest : c.rest = r :: rs)
    (cond : Row → Option Bool) : rowHolds cond w = .ok (holds (cond r), w) := by
  unfold rowHolds
  rw [bind_run (cursor_run h), hrest]
  rfl

/-- Checks go to the log. -/
theorem validateElements_run (w : World) (cs : List Check) :
    validateElements cs w = .ok ((), { w with log := w.log ++ cs.map w.labelled }) := by
  unfold validateElements
  induction cs generalizing w with
  | nil =>
    rw [List.map_nil, List.append_nil]
    rfl
  | cons d cs ih =>
    have hone : validateElement d w = .ok ((), { w with log := w.log ++ [w.labelled d] }) := rfl
    show (validateElement d >>= fun _ => cs.forM validateElement) w = _
    rw [bind_run hone, ih, List.map_cons, List.append_assoc, List.singleton_append]
    rfl

theorem moveFirst_run (h : w.rs = some c) :
    moveFirst w = .ok ((), { w with rs := some { c with rest := c.rows } }) := by
  unfold moveFirst
  rw [bind_run (cursor_run h)]
  rfl

end Runs

/-! ## Loops over the rows -/

/-- The world inside of a routine that has `rest` still before it and has logged `log`. -/
def World.reading (w : World) (rows rest : List Row) (log : List Check) : World :=
  { w with rs := some ⟨rows, rest⟩, log := log }

/-- The checks of a loop that goes on with `next` after every row. -/
def scanned {τ : Type} (next : τ → Row → τ) (emit : τ → Row → List Check) :
    τ → List Row → List Check
  | _, [] => []
  | x, r :: rs => emit x r ++ scanned next emit (next x r) rs

/-- Rows in two parts are scanned one after the other. -/
theorem scanned_append {τ : Type} (next : τ → Row → τ) (emit : τ → Row → List Check) (x : τ)
    (rs ss : List Row) :
    scanned next emit x (rs ++ ss) =
      scanned next emit x rs ++ scanned next emit (rs.foldl next x) ss := by
  induction rs generalizing x with
  | nil => rfl
  | cons r rs ih =>
    rw [List.cons_append, scanned, scanned, ih, List.append_assoc]
    rfl

/-- Loops that keep nothing from row to row. -/
theorem scanned_unit (emit : Row → List Check) (rs : List Row) :
    scanned (fun _ _ => ()) (fun _ => emit) () rs = rs.flatMap emit := by
  induction rs with
  | nil => rfl
  | cons r rs ih => rw [scanned, ih, List.flatMap_cons]

/-- Rows up to the first one with a property. -/
theorem exists_first {p : Row → Prop} [DecidablePred p] {rs : List Row} (h : ∃ r ∈ rs, p r) :
    ∃ pre r post, rs = pre ++ r :: post ∧ (∀ r ∈ pre, ¬ p r) ∧ p r := by
  obtain ⟨r, hr⟩ : ∃ r, rs.find? (fun r => decide (p r)) = some r := by
    rw [← Option.isSome_iff_exists, List.find?_isSome]
    simpa using h
  obtain ⟨hp, pre, post, hrs, hpre⟩ := List.find?_eq_some_iff_append.mp hr
  exact ⟨pre, r, post, hrs, by simpa using hpre, by simpa using hp⟩

section Scans

open Routine

variable {w : World} {rows rest : List Row} {log : List Check}

/-- Checks go to the log. -/
theorem validateElements_log (cs : List Check) :
    validateElements cs (w.reading rows rest log) =
      .ok ((), w.reading rows rest (log ++ cs.map w.labelled)) :=
  validateElements_run _ cs

theorem current_cons (r : Row) :
    current (w.reading rows (r :: rest) log) = .ok (r, w.reading rows (r :: rest) log) :=
  current_run (c := ⟨rows, r :: rest⟩) rfl

theorem moveNext_cons (r : Row) :
    moveNext (w.reading rows (r :: rest) log) = .ok ((), w.reading rows rest log) :=
  moveNext_run (w := w.reading rows (r :: rest) log) (c := ⟨rows, r :: rest⟩) rfl

/-- A loop whose rounds are counted ends where its last round does. -/
theorem whileRow_run {τ : Type} {cond : Row → Option Bool} {body : τ → Vb τ} {n : ℕ} {x y : τ}
    {t : World} (h : LoopRuns (fun _ => rowHolds cond) body n x (w.reading rows rest log) y t)
    (hn : n ≤ rest.length) :
    whileRow cond x body (w.reading rows rest log) = .ok (y, t) := by
  unfold whileRow
  rw [bind_run (cursor_run rfl)]
  exact h.run (Nat.lt_succ_of_le hn)

/-- A loop that goes on at the rows `rs`, reports on every one and moves on. -/
theorem loopRuns_scan {ε τ : Type} {guard : τ → StateT World (Except ε) Bool}
    {body : τ → StateT World (Except ε) τ} (next : τ → Row → τ) (emit : τ → Row → List Check)
    (rs : List Row)
    (hguard : ∀ x, ∀ r ∈ rs, ∀ rest log, guard x (w.reading rows (r :: rest) log) =
      .ok (true, w.reading rows (r :: rest) log))
    (hbody : ∀ x r rest log, body x (w.reading rows (r :: rest) log) =
      .ok (next x r, w.reading rows rest (log ++ (emit x r).map w.labelled)))
    (hstop : ∀ x log, guard x (w.reading rows rest log) = .ok (false, w.reading rows rest log))
    (x : τ) (log : List Check) :
    LoopRuns guard body rs.length x (w.reading rows (rs ++ rest) log) (rs.foldl next x)
      (w.reading rows rest (log ++ (scanned next emit x rs).map w.labelled)) := by
  induction rs generalizing x log with
  | nil =>
    rw [List.nil_append, scanned, List.map_nil, List.append_nil]
    exact LoopRuns.stop (hstop x log)
  | cons r rs ih =>
    have hround := ih (fun x r hr => hguard x r (List.mem_cons_of_mem _ hr)) (next x r)
      (log ++ (emit x r).map w.labelled)
    rw [List.append_assoc, ← List.map_append] at hround
    exact LoopRuns.round (hguard x r List.mem_cons_self (rs ++ rest) log)
      (hbody x r (rs ++ rest) log) hround

/-- A loop that reports on every row and moves on stops at the first row without `cond`. -/
theorem whileRow_scan {τ : Type} {cond : Row → Option Bool} {body : τ → Vb τ}
    (next : τ → Row → τ) (emit : τ → Row → List Check)
    (hbody : ∀ x r rest log, body x (w.reading rows (r :: rest) log) =
      .ok (next x r, w.reading rows rest (log ++ (emit x r).map w.labelled)))
    (x : τ) (rs : List Row) (hrs : ∀ r ∈ rs, holds (cond r) = true)
    (hrest : ∀ r ∈ rest.head?, holds (cond r) = false) (log : List Check) :
    whileRow cond x body (w.reading rows (rs ++ rest) log) =
      .ok (rs.foldl next x,
        w.reading rows rest (log ++ (scanned next emit x rs).map w.labelled)) := by
  refine whileRow_run (loopRuns_scan next emit rs (fun x r hr rest log => ?_) hbody
    (fun x log => ?_) x log) (by simp)
  · exact (rowHolds_run_cons rfl rfl cond).trans (by rw [hrs r hr])
  · cases hr : rest with
    | nil => exact rowHolds_run_nil rfl rfl cond
    | cons r rs =>
      rw [hr] at hrest
      exact (rowHolds_run_cons rfl rfl cond).trans (by rw [hrest r rfl])

end Scans

end OaBills
