import ScriptsMisc.OaBills.Validation

/-! # Errors at the end of the data

`rs` may be read and moved only while it stands on a row; a loop condition `rs.EOF or rs(..) = ..`
reads the row in either case. The routines here report that, and what `CInt` does not take, as
errors, and a check converts what the page shows before it is logged. Where they return, those of
`Validation` do the same. On the page `Page.readable` no conversion fails.
-/

namespace OaBills.Strict

open Routine

inductive Error where
  | ado (e : AdoError)
  | endOfData
  | overflow
  | invalidNull
  | conversion
deriving DecidableEq, Repr

abbrev Vb := StateT World (Except Error)

/-- Statements that do not use the current row. -/
def lift {α : Type} (m : OaBills.Vb α) : Vb α := fun w => (m w).mapError .ado

/-! ## The page -/

/-- The text of an element: the number that `CDbl` takes it for, and whether `CDate` takes it. -/
structure Found where
  number : Option ℚ
  isDate : Bool
deriving DecidableEq, Repr

/-- What is shown under an id when so many checks have been made; `none` where the page has no such
element. -/
structure Page where
  shows : ℕ → Str → Option Found

/-- `CInt` takes the number. -/
def fits16 (n : ℤ) : Bool := decide (-32768 ≤ n ∧ n ≤ 32767)

/-- The conversion of the text raises no error. -/
def Found.converts (found : Found) : Typ → Bool
  | .string => true
  | .double => found.number.isSome
  | .int => found.number.any fun x => fits16 (OaBills.cInt x)
  | .date => found.isDate

/-- A check that comes after `n` others finds its element, and converts its text. -/
def Page.reads (page : Page) (n : ℕ) (c : Check) : Bool :=
  (page.shows n c.htmlId).any fun found => found.converts c.typ

/-- A page all of whose texts are converted. -/
def Page.readable : Page := ⟨fun _ _ => some ⟨some 0, true⟩⟩

/-- Every check reads this page. -/
theorem readable_reads (n : ℕ) (c : Check) : Page.readable.reads n c = true := by
  have hconverts : ∀ typ, Found.converts ⟨some 0, true⟩ typ = true := by
    rintro (_ | _ | _ | _) <;> decide +kernel
  exact hconverts c.typ

/-- The conversion comes before the comparison and the entry in the log. -/
def validateElement (page : Page) (c : Check) : Vb Unit := do
  let w ← get
  if page.reads w.log.length c then lift (OaBills.validateElement c)
  else throw .conversion

def validateElements (page : Page) (cs : List Check) : Vb Unit := cs.forM (validateElement page)

/-! ## The recordset -/

def current : Vb Row := do
  match (← lift cursor).rest with
  | [] => throw .endOfData
  | r :: _ => return r

def moveNext : Vb Unit := do
  match (← lift cursor).rest with
  | [] => throw .endOfData
  | _ :: _ => lift OaBills.moveNext

def moveFirst : Vb Unit := do
  match (← lift cursor).rows with
  | [] => throw .endOfData
  | _ :: _ => lift OaBills.moveFirst

/-- A condition that reads the current row, whatever `rs.EOF` is. -/
def rowHolds (cond : Row → Option Bool) : Vb Bool := do return holds (cond (← current))

def whileRow {τ : Type} (cond : Row → Option Bool) (locals : τ) (body : τ → Vb τ) : Vb τ := do
  let c ← lift cursor
  loop (.ado .stuck) (fun _ => rowHolds cond) body (c.rest.length + 1) locals

/-! ## Member details -/

def validateMemberDetailBenefits (page : Page) : Vb Unit :=
  whileRow (fun r => notNull (orNull (some false) (eqNull (r.text .recordType) (some ['O'])))) ()
    fun _ => do
      let w ← get
      let r ← current
      validateElements page (benefitChecks w r)
      moveNext

def validateMemberDetailTotals (page : Page) : Vb Unit := do
  let w ← get
  let r ← current
  validateElements page (totalChecks w r)

def memberRound (page : Page) : Vb Unit := do
  let r ← current
  if holds (eqNull (r.text .recordType) (some ['M'])) then moveNext
  let r ← current
  validateElements page [nameCheck r]
  validateMemberDetailBenefits page
  validateMemberDetailTotals page
  moveNext

def memberDetailLoops (page : Page) : Vb Unit := do
  whileRow (fun r => neNull (r.text .recordType) (some ['N'])) () fun _ => moveNext
  whileRow (fun r => notNull (orNull (some false) (eqNull (r.text .recordType) (some ['P'])))) ()
    fun _ => memberRound page

def memberDetailSummarized (page : Page) : Vb Unit := do
  moveFirst
  let _ ← whileRow (fun r => notNull (eqNull (r.text .recordType) (some ['P'])))
    (⟨none, none, 0, 0, none⟩ : Summarized) fun x => do
      let r ← current
      validateElements page (x.checks r)
      moveNext
      return x.next r

def validateMemberDetails (page : Page) (b : BillData) : Vb Unit := do
  let w ← get
  if w.isE then lift (rsOpen b.onlineMembers)
  else if w.isFour then lift (rsOpen b.members)
  memberDetailLoops page
  if w.isE then memberDetailSummarized page
  lift rsClose

/-! ## Policy summary -/

/-- `CInt` of a number: 16 bits. -/
def cInt (x : ℚ) : Vb ℤ :=
  if -32768 ≤ OaBills.cInt x ∧ OaBills.cInt x ≤ 32767 then return OaBills.cInt x
  else throw .overflow

/-- `CInt (rs (c))`. -/
def cIntField (r : Row) (c : Column) : Vb ℤ :=
  match r c with
  | some v => cInt v.number
  | none => throw .invalidNull

/-- A row of the rollup in work. -/
def addRow (x : Rollup) (r : Row) : Vb Rollup := do
  let lvs ← cIntField r .cvrdLvs
  let max ← cInt x.maxLvs
  return {
    name := x.name
    totalEe := x.totalEe + r.dbl .summEmpleeContrib
    totalEm := x.totalEm + r.dbl .summEmplrContrib
    maxLvs := if max < lvs then lvs else x.maxLvs }

/-- A round of the summarized view: it moves before it reads. -/
def summaryRow (page : Page) (x : Rollup) : Vb Rollup := do
  moveNext
  let r ← current
  if holds (eqNull (r.text .summRollupIndicator) x.name) then addRow x r
  else
    validateElements page x.checks
    return Rollup.start r

/-- The second part of `polSummDefault`, from `rs.MoveFirst` on. -/
def polSummSummarized (page : Page) : Vb Unit := do
  moveFirst
  moveNext
  let r ← current
  moveFirst
  let _ ← whileRow (fun r => notNull (eqNull (r.text .recordType) (some ['G'])))
    ⟨r.text .summRollupIndicator, 0, 0, 0⟩ (summaryRow page)

def polSummDefault (page : Page) (b : BillData) : Vb Unit := do
  lift (rsOpen b.onlineSummary)
  moveNext
  whileRow (fun r => some (r.text .benShrtNm).isSome) () fun _ => do
    let r ← current
    validateElements page (defaultChecks r)
    moveNext
  polSummSummarized page

/-! ## What returns here returns there -/

/-- What returned in `Recordset` returns here. -/
theorem lift_run {α : Type} {m : OaBills.Vb α} {w : World} {r : α × World} (h : m w = .ok r) :
    lift m w = .ok r := by
  rw [lift, h]
  rfl

/-- Lifting changes only the errors. -/
theorem lift_refines {α : Type} (m : OaBills.Vb α) : Refines (lift m) m := by
  intro w r h
  unfold lift at h
  cases hm : m w with
  | error e =>
    rw [hm] at h
    cases h
  | ok q =>
    rw [hm] at h
    cases h
    rfl

/-- Nothing but the log shows that checks convert. -/
theorem validateElements_readable (cs : List Check) :
    validateElements .readable cs = lift (OaBills.validateElements cs) := by
  funext w
  rw [lift_run (validateElements_run w cs)]
  unfold validateElements
  induction cs generalizing w with
  | nil =>
    rw [List.map_nil, List.append_nil]
    rfl
  | cons c cs ih =>
    have hone : validateElement .readable c w =
        .ok ((), { w with log := w.log ++ [w.labelled c] }) := by
      unfold validateElement
      rw [get_bind_run, if_pos (readable_reads _ c)]
      rfl
    show (validateElement .readable c >>= fun _ => cs.forM (validateElement .readable)) w = _
    rw [bind_run hone, ih, List.map_cons, List.append_assoc, List.singleton_append]
    rfl

/-- Checks of a readable page are those of `Recordset`. -/
theorem validateElements_refines (cs : List Check) :
    Refines (validateElements .readable cs) (OaBills.validateElements cs) := by
  rw [validateElements_readable]
  exact lift_refines _

/-- Asking for the open recordset changes nothing. -/
theorem lift_cursor_eq_ok {w w' : World} {c : Cursor} (h : lift cursor w = .ok (c, w')) :
    w' = w ∧ w.rs = some c := by
  cases hrs : w.rs with
  | none =>
    rw [lift, cursor_closed hrs] at h
    cases h
  | some d =>
    rw [lift_run (cursor_run hrs)] at h
    cases h
    exact ⟨rfl, rfl⟩

/-- A row was read, so that the recordset stands on it. -/
theorem current_eq_ok {w w' : World} {r : Row} (h : current w = .ok (r, w')) :
    w' = w ∧ ∃ c rs, w.rs = some c ∧ c.rest = r :: rs := by
  obtain ⟨c, w₁, hc, hread⟩ := bind_eq_ok_iff.mp h
  obtain ⟨rfl, hrs⟩ := lift_cursor_eq_ok hc
  cases hrest : c.rest with
  | nil =>
    rw [hrest] at hread
    cases hread
  | cons r' rs =>
    rw [hrest] at hread
    cases hread
    exact ⟨rfl, c, rs, hrs, hrest⟩

/-- A row that is read is the same in both. -/
theorem current_refines : Refines current OaBills.current := by
  rintro w ⟨r, w'⟩ h
  obtain ⟨rfl, c, rs, hrs, hrest⟩ := current_eq_ok h
  rw [current_run hrs, hrest]
  rfl

theorem rowHolds_refines (cond : Row → Option Bool) :
    Refines (rowHolds cond) (OaBills.rowHolds cond) := by
  intro w q h
  obtain ⟨r, w', hr, hcond⟩ := bind_eq_ok_iff.mp h
  obtain ⟨rfl, c, rs, hrs, hrest⟩ := current_eq_ok hr
  cases hcond
  exact rowHolds_run_cons hrs hrest cond

theorem moveNext_refines : Refines moveNext OaBills.moveNext := by
  intro w q h
  obtain ⟨c, w', hc, hmove⟩ := bind_eq_ok_iff.mp h
  obtain ⟨rfl, -⟩ := lift_cursor_eq_ok hc
  cases hrest : c.rest with
  | nil =>
    rw [hrest] at hmove
    cases hmove
  | cons r rs =>
    rw [hrest] at hmove
    exact lift_refines _ w' q hmove

theorem moveFirst_refines : Refines moveFirst OaBills.moveFirst := by
  intro w q h
  obtain ⟨c, w', hc, hmove⟩ := bind_eq_ok_iff.mp h
  obtain ⟨rfl, -⟩ := lift_cursor_eq_ok hc
  cases hrows : c.rows with
  | nil =>
    rw [hrows] at hmove
    cases hmove
  | cons r rs =>
    rw [hrows] at hmove
    exact lift_refines _ w' q hmove

/-- Loops are the same in both when their bodies are. -/
theorem whileRow_refines {τ : Type} (cond : Row → Option Bool) (x : τ) {body : τ → Vb τ}
    {body' : τ → OaBills.Vb τ} (h : ∀ x, Refines (body x) (body' x)) :
    Refines (whileRow cond x body) (OaBills.whileRow cond x body') :=
  Refines.bind (lift_refines cursor) fun _ => Refines.loop (fun _ => rowHolds_refines cond) h _ x

/-- Where the routines return here they do the same in `Validation`. -/
theorem validateMemberDetailBenefits_refines :
    Refines (validateMemberDetailBenefits .readable) OaBills.validateMemberDetailBenefits := by
  refine whileRow_refines _ () fun _ => Refines.get_bind fun w => ?_
  refine Refines.bind current_refines fun r => ?_
  exact Refines.bind (validateElements_refines _) fun _ => moveNext_refines

theorem validateMemberDetailTotals_refines :
    Refines (validateMemberDetailTotals .readable) OaBills.validateMemberDetailTotals :=
  Refines.get_bind fun _ => Refines.bind current_refines fun _ => validateElements_refines _

theorem memberRound_refines : Refines (memberRound .readable) OaBills.memberRound := by
  refine Refines.bind current_refines fun r => ?_
  have hround := Refines.bind current_refines fun r =>
    Refines.bind (validateElements_refines ([nameCheck r])) fun _ =>
      Refines.bind validateMemberDetailBenefits_refines fun _ =>
        Refines.bind validateMemberDetailTotals_refines fun _ => moveNext_refines
  split
  · exact Refines.bind moveNext_refines fun _ => hround
  · exact hround

theorem memberDetailLoops_refines :
    Refines (memberDetailLoops .readable) OaBills.memberDetailLoops :=
  Refines.bind (whileRow_refines _ () fun _ => moveNext_refines) fun _ =>
    whileRow_refines _ () fun _ => memberRound_refines

theorem memberDetailSummarized_refines :
    Refines (memberDetailSummarized .readable) OaBills.memberDetailSummarized := by
  refine Refines.bind moveFirst_refines fun _ =>
    Refines.bind (whileRow_refines _ _ fun x => ?_) fun _ => Refines.pure ()
  refine Refines.bind current_refines fun r => ?_
  exact Refines.bind (validateElements_refines _) fun _ =>
    Refines.bind moveNext_refines fun _ => Refines.pure _

/-- Where no row is missing the walks over the members are those of `Validation`. -/
theorem validateMemberDetails_refines (b : BillData) :
    Refines (validateMemberDetails .readable b) (OaBills.validateMemberDetails b) := by
  refine Refines.get_bind fun w => ?_
  have hclose := Refines.bind memberDetailLoops_refines fun _ => lift_refines rsClose
  have hsummarized := Refines.bind memberDetailLoops_refines fun _ =>
    Refines.bind memberDetailSummarized_refines fun _ => lift_refines rsClose
  split
  · exact Refines.bind (lift_refines _) fun _ => hsummarized
  · split
    · exact Refines.bind (lift_refines _) fun _ => hclose
    · exact hclose

/-- A number that fits is rounded in the same way. -/
theorem cInt_refines (x : ℚ) : Refines (cInt x) (pure (OaBills.cInt x) : OaBills.Vb ℤ) := by
  intro w q h
  unfold cInt at h
  split at h
  · cases h
    rfl
  · cases h

theorem cIntField_refines (r : Row) (c : Column) :
    Refines (cIntField r c) (pure (OaBills.cInt (r.dbl c)) : OaBills.Vb ℤ) := by
  unfold cIntField
  cases hv : r c with
  | none =>
    intro w q h
    cases h
  | some v =>
    have hdbl : r.dbl c = v.number := by rw [Row.dbl, hv]; rfl
    rw [hdbl]
    exact cInt_refines v.number

/-- A row that can be added is added in the same way. -/
theorem addRow_refines (x : Rollup) (r : Row) :
    Refines (addRow x r) (pure (x.add r) : OaBills.Vb Rollup) :=
  Refines.bind (cIntField_refines r .cvrdLvs) fun _ => Refines.bind (cInt_refines x.maxLvs) fun _ =>
    Refines.pure _

/-- So is the next row of a summary. -/
theorem summaryRow_refines (x : Rollup) :
    Refines (summaryRow .readable x) (do
      OaBills.moveNext
      let r ← OaBills.current
      if holds (eqNull (r.text .summRollupIndicator) x.name) then
        return x.add r
      else
        OaBills.validateElements x.checks
        return Rollup.start r) :=
  Refines.bind moveNext_refines fun _ => Refines.bind current_refines fun r =>
    Refines.ite (addRow_refines x r)
      (Refines.bind (validateElements_refines _) fun _ => Refines.pure _)

/-- The policy summary likewise, where `CInt` takes all lives. -/
theorem polSummDefault_refines (b : BillData) :
    Refines (polSummDefault .readable b) (OaBills.polSummDefault b) := by
  refine Refines.bind (lift_refines _) fun _ => Refines.bind moveNext_refines fun _ => ?_
  refine Refines.bind (whileRow_refines _ () fun _ => Refines.bind current_refines fun r =>
    Refines.bind (validateElements_refines _) fun _ => moveNext_refines) fun _ => ?_
  refine Refines.bind moveFirst_refines fun _ => Refines.bind moveNext_refines fun _ => ?_
  refine Refines.bind current_refines fun r => Refines.bind moveFirst_refines fun _ => ?_
  exact Refines.bind (whileRow_refines _ _ summaryRow_refines) fun _ => Refines.pure ()

/-! ## Runs -/

section Runs

variable {w : World} {rows rest : List Row} {log : List Check}

/-- Checks go to the log. -/
theorem validateElements_log (cs : List Check) :
    validateElements .readable cs (w.reading rows rest log) =
      .ok ((), w.reading rows rest (log ++ cs.map w.labelled)) := by
  rw [validateElements_readable]
  exact lift_run (OaBills.validateElements_log cs)

theorem current_cons (r : Row) :
    current (w.reading rows (r :: rest) log) = .ok (r, w.reading rows (r :: rest) log) := rfl

/-- Past the last row there is none to read. -/
theorem current_nil : current (w.reading rows [] log) = .error .endOfData := rfl

theorem moveNext_cons (r : Row) :
    moveNext (w.reading rows (r :: rest) log) = .ok ((), w.reading rows rest log) := rfl

theorem moveFirst_cons (r : Row) :
    moveFirst (w.reading (r :: rows) rest log) =
      .ok ((), w.reading (r :: rows) (r :: rows) log) := rfl

/-- A condition is decided on the current row. -/
theorem rowHolds_cons (cond : Row → Option Bool) (r : Row) :
    rowHolds cond (w.reading rows (r :: rest) log) =
      .ok (holds (cond r), w.reading rows (r :: rest) log) := rfl

/-- Past the last row it cannot be decided. -/
theorem rowHolds_nil (cond : Row → Option Bool) :
    rowHolds cond (w.reading rows [] log) = .error .endOfData := rfl

/-- A loop has fuel for the rows that are left. -/
theorem whileRow_eq {τ : Type} (cond : Row → Option Bool) (body : τ → Vb τ) (x : τ) :
    whileRow cond x body (w.reading rows rest log) =
      loop (.ado .stuck) (fun _ => rowHolds cond) body (rest.length + 1) x
        (w.reading rows rest log) := rfl

/-- A loop that reports on every row and moves on stops at the first row without `cond`. -/
theorem whileRow_scan {τ : Type} {cond : Row → Option Bool} {body : τ → Vb τ}
    (next : τ → Row → τ) (emit : τ → Row → List Check)
    (hbody : ∀ x r rest log, body x (w.reading rows (r :: rest) log) =
      .ok (next x r, w.reading rows rest (log ++ (emit x r).map w.labelled)))
    (x : τ) (rs : List Row) (hrs : ∀ r ∈ rs, holds (cond r) = true) {stop : Row}
    (hstop : holds (cond stop) = false) (log : List Check) :
    whileRow cond x body (w.reading rows (rs ++ stop :: rest) log) =
      .ok (rs.foldl next x,
        w.reading rows (stop :: rest) (log ++ (scanned next emit x rs).map w.labelled)) := by
  rw [whileRow_eq]
  have hlength : rs.length < (rs ++ stop :: rest).length + 1 := by
    rw [List.length_append]
    omega
  refine (loopRuns_scan next emit rs (fun x r hr rest log => ?_) hbody (fun x log => ?_) x
    log).run hlength
  · rw [rowHolds_cons, hrs r hr]
  · rw [rowHolds_cons, hstop]

/-- Without such a row it reads on past the last one. -/
theorem whileRow_endOfData {τ : Type} {cond : Row → Option Bool} {body : τ → Vb τ}
    (next : τ → Row → τ) (emit : τ → Row → List Check)
    (hbody : ∀ x r rest log, body x (w.reading rows (r :: rest) log) =
      .ok (next x r, w.reading rows rest (log ++ (emit x r).map w.labelled)))
    (x : τ) (rs : List Row) (hrs : ∀ r ∈ rs, holds (cond r) = true) (log : List Check) :
    whileRow cond x body (w.reading rows rs log) = .error .endOfData := by
  rw [whileRow_eq]
  induction rs generalizing x log with
  | nil => exact bind_error (rowHolds_nil cond) _
  | cons r rs ih =>
    rw [List.forall_mem_cons] at hrs
    have hguard : rowHolds cond (w.reading rows (r :: rs) log) = .ok (true, _) :=
      (rowHolds_cons cond r).trans (by rw [hrs.1])
    rw [loop, bind_run hguard]
    exact (bind_run (hbody x r rs log) _).trans (ih _ hrs.2 _)

end Runs

end OaBills.Strict
