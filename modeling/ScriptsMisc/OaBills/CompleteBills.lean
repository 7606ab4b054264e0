import ScriptsMisc.Lib.Returns
import ScriptsMisc.OaBills.AdjustmentIds
import ScriptsMisc.OaBills.BillIsolation
import ScriptsMisc.OaBills.MemberWalk
import ScriptsMisc.OaBills.PageTexts
import ScriptsMisc.OaBills.SummaryRollups
import ScriptsMisc.OaBills.SummaryWalk

/-! # Bills that are validated to their end

A row that is missing, lives that `CInt` does not take, or a text on the page that a check cannot
convert, end the run of a policy within a bill. Bill by bill the rows of its queries decide on the
first two, and the checks that are made on the last.
-/

namespace OaBills.Strict

open Routine

/-! ## The routines -/

def viewBill (b : BillData) : Vb Unit := do
  lift conOpen
  lift (rsOpen b.bills)
  let r ← current
  modify fun w =>
    { w with
      abllKeyGlobal := some b.abllKey, polNo := r.text .contNo, bgrpKey := r.text .bgrpKey }
  lift rsClose
  lift (rsOpen b.summary)
  whileNotAtEnd do
    let r ← current
    modify fun w => { w with pyrlTot := r.text .curPyrlTot }
    moveNext
  lift rsClose
  lift (rsOpen b.formats)
  let r ← current
  modify fun w =>
    { w with dbillFrmtCd := r.text .dbillFrmtCd, billFormat := r.text .billFormat }
  lift rsClose

def validateRemittance (page : Page) (b : BillData) : Vb Unit := do
  lift (rsOpen b.remittance)
  let r ← current
  validateElements page (remittanceChecks r)
  lift rsClose

def validateMemberAdjustments (page : Page) (b : BillData) : Vb Unit := do
  lift (rsOpen b.adjustments)
  whileNotAtEnd do
    let r ← current
    validateElements page (adjustmentChecks r)
    moveNext
  lift rsClose

def validateBill (page : Page) (b : BillData) : Vb Unit := do
  viewBill b
  validateRemittance page b
  validatePolicySummary page b
  validateMemberAdjustments page b
  validateMemberDetails page b
  lift conClose

def validatePolicy (page : Page) (bills : List BillData) : Vb Unit := bills.forM (validateBill page)

/-! ## Where they return -/

/-- An update of the globals is the same in both. -/
theorem modify_refines (g : World → World) :
    Refines (modify g : Vb PUnit) (modify g : OaBills.Vb PUnit) := by
  intro w q h
  cases h
  rfl

/-- Where a routine returns here it does the same in `Validation`. -/
theorem viewBill_refines (b : BillData) : Refines (viewBill b) (OaBills.viewBill b) := by
  have hsummary := whileNotAtEnd_refines (Refines.bind current_refines fun r =>
    Refines.bind (modify_refines fun w => { w with pyrlTot := r.text .curPyrlTot }) fun _ =>
      moveNext_refines)
  refine Refines.bind (lift_refines _) fun _ => Refines.bind (lift_refines _) fun _ => ?_
  refine Refines.bind current_refines fun r => Refines.bind (modify_refines _) fun _ => ?_
  refine Refines.bind (lift_refines _) fun _ => Refines.bind (lift_refines _) fun _ => ?_
  refine Refines.bind hsummary fun _ => ?_
  refine Refines.bind (lift_refines _) fun _ => Refines.bind (lift_refines _) fun _ => ?_
  refine Refines.bind current_refines fun r => Refines.bind (modify_refines _) fun _ => ?_
  exact lift_refines _

theorem validateRemittance_refines (b : BillData) :
    Refines (validateRemittance .readable b) (OaBills.validateRemittance b) :=
  Refines.bind (lift_refines _) fun _ => Refines.bind current_refines fun _ =>
    Refines.bind (validateElements_refines _) fun _ => lift_refines _

theorem validateMemberAdjustments_refines (b : BillData) :
    Refines (validateMemberAdjustments .readable b) (OaBills.validateMemberAdjustments b) := by
  have hround := Refines.bind current_refines fun r =>
    Refines.bind (validateElements_refines (adjustmentChecks r)) fun _ => moveNext_refines
  refine Refines.bind (lift_refines _) fun _ => ?_
  exact Refines.bind (whileNotAtEnd_refines hround) fun _ => lift_refines _

theorem validateBill_refines (b : BillData) :
    Refines (validateBill .readable b) (OaBills.validateBill b) :=
  Refines.bind (viewBill_refines b) fun _ =>
    Refines.bind (validateRemittance_refines b) fun _ =>
      Refines.bind (validatePolicySummary_refines b) fun _ =>
        Refines.bind (validateMemberAdjustments_refines b) fun _ =>
          Refines.bind (validateMemberDetails_refines b) fun _ => lift_refines conClose

/-- So does the run over all bills. -/
theorem validatePolicy_refines (bills : List BillData) :
    Refines (validatePolicy .readable bills) (OaBills.validatePolicy bills) :=
  Refines.forM validateBill_refines

/-! ## The texts of the page -/

section Guarded

variable {page : Page}

/-- An update that leaves the log alone reads no page. -/
theorem modify_guarded {g : World → World} (hg : ∀ w, (g w).log = w.log) :
    Guarded page.guards (modify g : Vb PUnit) (modify g : Vb PUnit) :=
  Silent.guarded (silent_modify hg)

/-- Viewing a bill makes no check. -/
theorem viewBill_guarded (b : BillData) : Guarded page.guards (viewBill b) (viewBill b) := by
  have hclose : Guarded page.guards (lift rsClose) (lift rsClose) := lift_guarded silent_rsClose
  have hopen : ∀ rows, Guarded page.guards (lift (rsOpen rows)) (lift (rsOpen rows)) := fun rows =>
    lift_guarded (silent_rsOpen rows)
  have hsummary : Guarded page.guards _ _ := whileNotAtEnd_guarded (Guarded.bind current_guarded
    fun r => Guarded.bind (modify_guarded (g := fun w => { w with pyrlTot := r.text .curPyrlTot })
      fun _ => rfl) fun _ => moveNext_guarded)
  refine Guarded.bind (lift_guarded silent_conOpen) fun _ => Guarded.bind (hopen _) fun _ => ?_
  refine Guarded.bind current_guarded fun r => ?_
  refine Guarded.bind (modify_guarded fun _ => rfl) fun _ => Guarded.bind hclose fun _ => ?_
  refine Guarded.bind (hopen _) fun _ => Guarded.bind hsummary fun _ => ?_
  refine Guarded.bind hclose fun _ => Guarded.bind (hopen _) fun _ => ?_
  refine Guarded.bind current_guarded fun r => ?_
  exact Guarded.bind (modify_guarded fun _ => rfl) fun _ => hclose

/-- On any page the remittance goes on as long as its checks read the page. -/
theorem validateRemittance_guarded (b : BillData) :
    Guarded page.guards (validateRemittance page b) (validateRemittance .readable b) :=
  Guarded.bind (lift_guarded (silent_rsOpen _)) fun _ => Guarded.bind current_guarded fun _ =>
    Guarded.bind (validateElements_guarded _) fun _ => lift_guarded silent_rsClose

theorem validateMemberAdjustments_guarded (b : BillData) : Guarded page.guards
    (validateMemberAdjustments page b) (validateMemberAdjustments .readable b) :=
  Guarded.bind (lift_guarded (silent_rsOpen _)) fun _ =>
    Guarded.bind (whileNotAtEnd_guarded (Guarded.bind current_guarded fun _ =>
      Guarded.bind (validateElements_guarded _) fun _ => moveNext_guarded)) fun _ =>
        lift_guarded silent_rsClose

/-- A whole bill goes on as long as its checks read the page. -/
theorem validateBill_guarded (b : BillData) :
    Guarded page.guards (validateBill page b) (validateBill .readable b) :=
  Guarded.bind (viewBill_guarded b) fun _ =>
    Guarded.bind (validateRemittance_guarded b) fun _ =>
      Guarded.bind (validatePolicySummary_guarded b) fun _ =>
        Guarded.bind (validateMemberAdjustments_guarded b) fun _ =>
          Guarded.bind (validateMemberDetails_guarded b) fun _ => lift_guarded silent_conClose

/-- The validation of a policy has the guards of the page in each of its checks. -/
theorem validatePolicy_guarded (bills : List BillData) :
    Guarded page.guards (validatePolicy page bills) (validatePolicy .readable bills) :=
  Guarded.forM validateBill_guarded bills

end Guarded

/-! ## Queries -/

variable {w : World} {rows rest : List Row} {log : List Check}

/-- What returned in `Recordset` returns here. -/
theorem returns_lift {α : Type} {m : OaBills.Vb α} {r : α × World} (h : m w = .ok r) :
    Returns (lift m) w := ⟨r, lift_run h⟩

/-- An open recordset is closed. -/
theorem returns_rsClose : Returns (lift rsClose) (w.reading rows rest log) :=
  returns_lift (rsClose_run rfl)

/-- A query of which the first row is read. -/
theorem returns_openRow_iff {α : Type} {f : Row → Vb α} {D : Prop} (hclosed : w.rs = none)
    (hf : ∀ r, Returns (f r) (w.reading rows rows w.log) ↔ D) :
    Returns (do
      lift (rsOpen rows)
      let r ← current
      f r) w ↔ rows ≠ [] ∧ D := by
  have hopen : lift (rsOpen rows) w = .ok ((), w.reading rows rows w.log) :=
    lift_run (rsOpen_run hclosed rows)
  rw [returns_bind_run hopen]
  cases rows with
  | nil =>
    refine iff_of_false (not_returns_bind ?_) fun h => h.1 rfl
    have hnil : current (w.reading [] [] w.log) = .error .endOfData := current_nil
    exact not_returns_of_error hnil
  | cons r rs =>
    rw [returns_bind_run (current_cons r), hf r, and_iff_right (List.cons_ne_nil r rs)]

/-- A loop is only entered on a row. -/
theorem exists_reading {cond : Row → Option Bool} {w' : World}
    (h : OaBills.rowHolds cond w = .ok (true, w')) :
    ∃ rows r rest, w' = w'.reading rows (r :: rest) w'.log := by
  cases hrs : w.rs with
  | none =>
    rw [OaBills.rowHolds, bind_error (cursor_closed hrs)] at h
    cases h
  | some c =>
    cases hrest : c.rest with
    | nil =>
      rw [rowHolds_run_nil hrs hrest] at h
      cases h
    | cons r rest =>
      rw [rowHolds_run_cons hrs hrest] at h
      obtain rfl : w = w' := congrArg Prod.snd (Except.ok.inj h)
      refine ⟨c.rows, r, rest, ?_⟩
      rw [World.reading, ← hrest, ← hrs]

/-- A loop over all rows that the routines of `Validation` go through. -/
theorem whileNotAtEnd_run {body : Vb Unit} {body' : OaBills.Vb Unit} {w' : World}
    (hbody : ∀ (w : World) (rows : List Row) (r : Row) (rest : List Row) (log : List Check) q,
      body' (w.reading rows (r :: rest) log) = .ok q →
        body (w.reading rows (r :: rest) log) = .ok q)
    (h : OaBills.whileRow (fun _ => some true) () (fun _ => body') w = .ok ((), w')) :
    whileNotAtEnd body w = .ok ((), w') := by
  obtain ⟨c, w₁, hc, hloop⟩ := bind_eq_ok_iff.mp h
  refine bind_eq_ok_iff.mpr ⟨c, w₁, lift_run hc, ?_⟩
  refine Refines.loop_guarded (fun _ _ _ h => lift_run h) (fun _ w w₂ hguard q hq => ?_) _ () w₁ _
    hloop
  obtain ⟨rows, r, rest, hw₂⟩ := exists_reading hguard
  rw [hw₂] at hq ⊢
  exact hbody w₂ rows r rest w₂.log q hq

/-! ## The routines that look at no format -/

/-- A bill can be viewed when its first two queries have a row. -/
theorem viewBill_returns_iff (b : BillData) (h : Closed w) :
    Returns (viewBill b) w ↔ b.bills ≠ [] ∧ b.formats ≠ [] := by
  let w₁ : World := { w with con := true }
  have hopen : lift conOpen w = .ok ((), w₁) := lift_run (conOpen_run h.1)
  have hrs : w₁.rs = none := h.2
  rw [viewBill, returns_bind_run hopen]
  refine returns_openRow_iff hrs fun r => ?_
  let w₂ : World :=
    { w₁ with
      abllKeyGlobal := some b.abllKey, polNo := r.text .contNo, bgrpKey := r.text .bgrpKey
      rs := none }
  let w₃ : World := { w₂ with rs := some ⟨b.summary, b.summary⟩ }
  let w₄ : World :=
    { w₂ with rs := some ⟨b.summary, []⟩, pyrlTot := pyrlAfter w.pyrlTot b.summary }
  let w₅ : World := { w₄ with rs := none }
  have hloop : whileNotAtEnd (do
      let r ← current
      modify fun w => { w with pyrlTot := r.text .curPyrlTot }
      moveNext) w₃ = .ok ((), w₄) := by
    refine whileNotAtEnd_run (fun w rows r rest log q hq => ?_)
      (whileRow_run (summaryLoop_runs w₂ b.summary b.summary) le_rfl)
    cases hq
    rfl
  have hset : (modify fun w : World =>
      { w with
        abllKeyGlobal := some b.abllKey, polNo := r.text .contNo, bgrpKey := r.text .bgrpKey } :
      Vb PUnit) (w₁.reading b.bills b.bills w₁.log) =
        .ok ((), { w₂ with rs := some ⟨b.bills, b.bills⟩ }) := rfl
  rw [returns_bind_run hset, returns_bind_run (lift_run (rsClose_run rfl)),
    returns_bind_run (lift_run (rsOpen_run rfl b.summary)), returns_bind_run hloop,
    returns_bind_run (lift_run (rsClose_run rfl))]
  refine (returns_openRow_iff (D := True) rfl fun r => ?_).trans (iff_of_eq (and_true _))
  exact iff_of_true ⟨_, rfl⟩ trivial

/-- The remittance needs a row. -/
theorem validateRemittance_returns_iff (b : BillData) (hclosed : w.rs = none) :
    Returns (validateRemittance .readable b) w ↔ b.remittance ≠ [] := by
  refine (returns_openRow_iff (D := True) hclosed fun r => ?_).trans (iff_of_eq (and_true _))
  rw [returns_bind_run (validateElements_log _)]
  exact iff_of_true returns_rsClose trivial

/-- The adjustments are read to their end, however many there are. -/
theorem validateMemberAdjustments_returns (b : BillData) (hclosed : w.rs = none) :
    Returns (validateMemberAdjustments .readable b) w := by
  obtain ⟨_, w₁, hopen, hrest⟩ := bind_eq_ok_iff.mp (validateMemberAdjustments_run b hclosed)
  obtain ⟨_, w₂, hloop, hclose⟩ := bind_eq_ok_iff.mp hrest
  have hloop' : whileNotAtEnd (do
      let r ← current
      validateElements .readable (adjustmentChecks r)
      moveNext) w₁ = .ok ((), w₂) := by
    refine whileNotAtEnd_run (fun w rows r rest log q hq => ?_) hloop
    rw [bind_run (OaBills.current_cons r), bind_run (OaBills.validateElements_log _)] at hq
    rw [bind_run (current_cons r), bind_run (validateElements_log _)]
    cases hq
    rfl
  rw [validateMemberAdjustments, returns_bind_run (lift_run hopen), returns_bind_run hloop']
  exact returns_lift hclose

/-! ## The default format -/

/-- The row goes on with the rollup of the row before. -/
def GoesOn (before r : Row) : Prop :=
  holds (eqNull (r.text .summRollupIndicator) (before.text .summRollupIndicator)) = true

/-- `CInt` takes the lives of the row. -/
def HasLives (r : Row) : Prop :=
  (r .cvrdLvs).isSome = true ∧ fits16 (OaBills.cInt (r.dbl .cvrdLvs)) = true

/-- The summarized view ends at this row. -/
def EndsRollups (r : Row) : Prop := r.text .recordType = none ∨ r.text .recordType = some ['G']

/-- From a row on the summarized view takes these rows up to one where it ends. Where a row goes on
with a rollup `CInt` takes its lives and those of the row before, which may be null. -/
inductive RollupsEnd : Row → List Row → Prop
  | stop {c : Row} {rest : List Row} : EndsRollups c → RollupsEnd c rest
  | next {c r : Row} {rest : List Row} : ¬ EndsRollups c →
      (GoesOn c r → HasLives r ∧ fits16 (OaBills.cInt (c.dbl .cvrdLvs)) = true) →
      RollupsEnd r rest → RollupsEnd c (r :: rest)

/-- Both views of the policy summary end: the detailed one at a row without `BEN_SHRT_NM`, the
summarized one as `RollupsEnd` says, but that the first benefit has no row before it. -/
def OnlineSummaryEnds (rows : List Row) : Prop :=
  ∃ initial r rest, rows = initial :: r :: rest ∧
    (∃ s ∈ r :: rest, s.text .benShrtNm = none) ∧
    (EndsRollups initial ∨ (GoesOn r r → HasLives r) ∧ RollupsEnd r rest)

/-- The variables after a row: its indicator, and lives that `CInt` takes if it takes its own. -/
structure AfterRow (c : Row) (x : Rollup) : Prop where
  name_eq : x.name = c.text .summRollupIndicator
  fits_iff : fits16 (OaBills.cInt x.maxLvs) = fits16 (OaBills.cInt (c.dbl .cvrdLvs))

/-- Null is equal to nothing. -/
theorem eq_of_holds_eqNull {s t : Option Str} (h : holds (eqNull s t) = true) : s = t := by
  cases t with
  | none =>
    cases s <;> cases h
  | some t => exact (holds_eqNull_iff s t).mp h

/-- A whole number is rounded to itself. -/
theorem cInt_intCast (n : ℤ) : OaBills.cInt (n : ℚ) = n := by
  simp [OaBills.cInt]

/-- A rollup starts with its first row. -/
theorem afterRow_start (r : Row) : AfterRow r (Rollup.start r) := ⟨rfl, rfl⟩

/-- Of lives that `CInt` takes it takes the most. -/
theorem afterRow_add {x : Rollup} {r : Row} (hname : r.text .summRollupIndicator = x.name)
    (hlives : fits16 (OaBills.cInt (r.dbl .cvrdLvs)) = true)
    (hmax : fits16 (OaBills.cInt x.maxLvs) = true) : AfterRow r (x.add r) := by
  refine ⟨hname.symm, ?_⟩
  rw [hlives]
  simp only [OaBills.Rollup.add]
  split
  · rw [cInt_intCast, hlives]
  · exact hmax

/-- A row with lives that fit is added. -/
theorem addRow_of_hasLives {x : Rollup} {r : Row}
    (h : HasLives r ∧ fits16 (OaBills.cInt x.maxLvs) = true) (w : World) :
    addRow x r w = .ok (x.add r, w) := by
  rw [addRow_run x r w h.1.1, h.1.2, h.2]
  rfl

/-- Any other row stops the sum. -/
theorem not_returns_addRow {x : Rollup} {r : Row}
    (h : ¬ (HasLives r ∧ fits16 (OaBills.cInt x.maxLvs) = true)) (w : World) :
    ¬ Returns (addRow x r) w := by
  cases hlives : r .cvrdLvs with
  | none =>
    have hfield : cIntField r .cvrdLvs = throw .invalidNull := by rw [cIntField, hlives]
    refine not_returns_bind ?_
    rw [hfield]
    exact not_returns_of_error (e := .invalidNull) rfl
  | some v =>
    have hsome : (r .cvrdLvs).isSome = true := by rw [hlives]; rfl
    refine not_returns_of_error (e := .overflow) ?_
    rw [addRow_run x r w hsome, if_neg]
    rw [Bool.and_eq_true]
    exact fun hfits => h ⟨⟨hsome, hfits.1⟩, hfits.2⟩

/-- A round after the row it reads. -/
theorem summaryRow_cons (x : Rollup) (c r : Row) (rest : List Row) (log : List Check) :
    summaryRow .readable x (w.reading rows (c :: r :: rest) log) =
      (if holds (eqNull (r.text .summRollupIndicator) x.name) then addRow x r
      else do
        validateElements .readable x.checks
        return Rollup.start r : Vb Rollup) (w.reading rows (r :: rest) log) := by
  unfold summaryRow
  rw [bind_run (moveNext_cons c), bind_run (current_cons r)]

/-- A round returns when the lives it needs are there. -/
theorem returns_summaryRow_bind_iff {f : Rollup → Vb Rollup} {x : Rollup} {c r : Row} {D : Prop}
    (hf : ∀ y log, AfterRow r y → (Returns (f y) (w.reading rows (r :: rest) log) ↔ D)) :
    Returns (summaryRow .readable x >>= f) (w.reading rows (c :: r :: rest) log) ↔
      (holds (eqNull (r.text .summRollupIndicator) x.name) = true →
        HasLives r ∧ fits16 (OaBills.cInt x.maxLvs) = true) ∧ D := by
  have hrow : summaryRow .readable x (w.reading rows (c :: r :: rest) log) = _ :=
    summaryRow_cons x c r rest log
  by_cases hsame : holds (eqNull (r.text .summRollupIndicator) x.name) = true
  · rw [if_pos hsame] at hrow
    rw [forall_prop_of_true hsame]
    by_cases hlives : HasLives r ∧ fits16 (OaBills.cInt x.maxLvs) = true
    · rw [addRow_of_hasLives hlives] at hrow
      rw [returns_bind_run hrow, and_iff_right hlives]
      exact hf _ log (afterRow_add (eq_of_holds_eqNull hsame) hlives.1.2 hlives.2)
    · refine iff_of_false (not_returns_bind ?_) fun h => hlives h.1
      rw [Returns, hrow]
      exact not_returns_addRow hlives _
  · rw [if_neg hsame, bind_run (validateElements_log _)] at hrow
    refine (returns_bind_run hrow).trans ((hf _ _ (afterRow_start r)).trans ?_)
    rw [and_iff_right]
    exact fun h => absurd h hsame

/-- Without another row the sum ends where it stands. -/
theorem rollupsEnd_nil_iff (c : Row) : RollupsEnd c [] ↔ EndsRollups c :=
  ⟨fun | .stop h => h, .stop⟩

/-- Before the end the next row is added or starts another rollup. -/
theorem rollupsEnd_cons_iff {c : Row} (hc : ¬ EndsRollups c) (r : Row) (rest : List Row) :
    RollupsEnd c (r :: rest) ↔
      (GoesOn c r → HasLives r ∧ fits16 (OaBills.cInt (c.dbl .cvrdLvs)) = true) ∧
        RollupsEnd r rest := by
  constructor
  · rintro (h | ⟨-, hlives, hrest⟩)
    · exact absurd h hc
    · exact ⟨hlives, hrest⟩
  · rintro ⟨hlives, hrest⟩
    exact .next hc hlives hrest

/-- Before the end a round is made. -/
theorem summaryLoop_enter {c : Row} (hc : ¬ EndsRollups c) (fuel : ℕ) (x : Rollup) :
    summaryLoop (fuel + 1) x (w.reading rows (c :: rest) log) =
      (summaryRow .readable x >>= summaryLoop fuel) (w.reading rows (c :: rest) log) := by
  have hgo : holds (notNull (eqNull (c.text .recordType) (some ['G']))) = true := by
    rw [holds_notNull_eqNull_iff, Option.isSome_iff_ne_none]
    exact not_or.mp hc
  have hguard : rowHolds (fun r => notNull (eqNull (r.text .recordType) (some ['G'])))
      (w.reading rows (c :: rest) log) = .ok (true, w.reading rows (c :: rest) log) := by
    rw [rowHolds_cons, hgo]
  rw [summaryLoop, loop, bind_run hguard]
  rfl

/-- There is no row to read behind the last one. -/
theorem not_returns_summaryRow_last (x : Rollup) (c : Row) (f : Rollup → Vb Rollup) :
    ¬ Returns (summaryRow .readable x >>= f) (w.reading rows [c] log) := by
  refine not_returns_bind (not_returns_of_error (e := .endOfData) ?_)
  unfold summaryRow
  rw [bind_run (moveNext_cons c)]
  exact bind_error current_nil _

/-- The loop of the rollups returns exactly when the rows end it. -/
theorem summaryLoop_returns_iff (rest : List Row) {c : Row} {x : Rollup} (hx : AfterRow c x)
    {fuel : ℕ} (hfuel : rest.length < fuel) (log : List Check) :
    Returns (summaryLoop fuel x) (w.reading rows (c :: rest) log) ↔ RollupsEnd c rest := by
  induction rest generalizing c x fuel log with
  | nil =>
    obtain ⟨fuel, rfl⟩ : ∃ k, fuel = k + 1 := ⟨fuel - 1, by omega⟩
    rw [rollupsEnd_nil_iff]
    by_cases hc : EndsRollups c
    · exact iff_of_true ⟨_, summaryLoop_stop hc fuel x log⟩ hc
    · rw [Returns, summaryLoop_enter hc]
      exact iff_of_false (not_returns_summaryRow_last x c _) hc
  | cons r rest ih =>
    rw [List.length_cons] at hfuel
    obtain ⟨fuel, rfl⟩ : ∃ k, fuel = k + 1 := ⟨fuel - 1, by omega⟩
    by_cases hc : EndsRollups c
    · exact iff_of_true ⟨_, summaryLoop_stop hc fuel x log⟩ (.stop hc)
    · rw [Returns, summaryLoop_enter hc, rollupsEnd_cons_iff hc, GoesOn, ← hx.name_eq,
        ← hx.fits_iff]
      exact returns_summaryRow_bind_iff fun y log hy => ih hy (by omega) log

/-- The first benefit is read with its own indicator and no lives before it. -/
theorem polSummSummarized_returns_iff (initial r : Row) (rest before : List Row)
    (log : List Check) :
    Returns (polSummSummarized .readable) (w.reading (initial :: r :: rest) before log) ↔
      EndsRollups initial ∨ (GoesOn r r → HasLives r) ∧ RollupsEnd r rest := by
  let rows := initial :: r :: rest
  let fuel := rest.length + 2
  let x : Rollup := ⟨r.text .summRollupIndicator, 0, 0, 0⟩
  have hloop : Returns (polSummSummarized .readable) (w.reading rows before log) ↔
      Returns (summaryLoop (fuel + 1) x) (w.reading rows rows log) := by
    unfold polSummSummarized
    rw [returns_bind_run (moveFirst_cons initial), returns_bind_run (moveNext_cons initial),
      returns_bind_run (current_cons r), returns_bind_run (moveFirst_cons initial)]
    exact returns_bind_iff_left fun _ _ _ => ⟨_, rfl⟩
  rw [hloop]
  by_cases hinitial : EndsRollups initial
  · exact iff_of_true ⟨_, summaryLoop_stop hinitial _ x log⟩ (.inl hinitial)
  rw [or_iff_right hinitial, Returns, summaryLoop_enter hinitial]
  have hzero : fits16 (OaBills.cInt 0) = true := by decide +kernel
  refine (returns_summaryRow_bind_iff fun y log hy =>
    summaryLoop_returns_iff rest hy (by omega) log).trans ?_
  rw [hzero, and_iff_left rfl, GoesOn]

/-- The detailed view, up to a row without `BEN_SHRT_NM`. -/
def detailedView : Vb Unit :=
  whileRow (fun r => some (r.text .benShrtNm).isSome) () fun _ => do
    let r ← current
    validateElements .readable (defaultChecks r)
    moveNext

/-- A round of the detailed view checks its row. -/
theorem detailedView_round (rows : List Row) (_ : Unit) (r : Row) (rest : List Row)
    (log : List Check) :
    (do
      let r ← current
      validateElements .readable (defaultChecks r)
      moveNext : Vb Unit) (w.reading rows (r :: rest) log) =
      .ok ((), w.reading rows rest (log ++ (defaultChecks r).map w.labelled)) := by
  rw [bind_run (current_cons r), bind_run (validateElements_log _)]
  exact moveNext_cons r

/-- The detailed view ends at a row without a benefit. -/
theorem detailedView_run (h : ∃ r ∈ rest, r.text .benShrtNm = none) (log : List Check) :
    ∃ rest' log', detailedView (w.reading rows rest log) = .ok ((), w.reading rows rest' log') := by
  obtain ⟨pre, r, post, rfl, hpre, hr⟩ := exists_first h
  refine ⟨_, _, whileRow_scan (fun _ _ => ()) (fun _ => defaultChecks) (detailedView_round rows) ()
    pre (fun r hr => ?_) ?_ log⟩
  · exact Option.isSome_iff_ne_none.mpr (hpre r hr)
  · rw [hr]
    rfl

/-- Without such a row it runs past the data. -/
theorem not_returns_detailedView (h : ¬ ∃ r ∈ rest, r.text .benShrtNm = none) (log : List Check) :
    ¬ Returns detailedView (w.reading rows rest log) := by
  refine not_returns_of_error (whileRow_endOfData (fun _ _ => ()) (fun _ => defaultChecks)
    (detailedView_round rows) () rest (fun r hr => ?_) log)
  exact Option.isSome_iff_ne_none.mpr fun hnone => h ⟨r, hr, hnone⟩

/-- The condition on a summary, with its first two rows written out. -/
theorem onlineSummaryEnds_cons_iff (initial r : Row) (rest : List Row) :
    OnlineSummaryEnds (initial :: r :: rest) ↔
      (∃ s ∈ r :: rest, s.text .benShrtNm = none) ∧
        (EndsRollups initial ∨ (GoesOn r r → HasLives r) ∧ RollupsEnd r rest) := by
  constructor
  · rintro ⟨_, _, _, hrows, hends⟩
    cases hrows
    exact hends
  · exact fun hends => ⟨initial, r, rest, rfl, hends⟩

/-- The summary of format E returns exactly when its rows end both views. -/
theorem polSummDefault_returns_iff (b : BillData) (hclosed : w.rs = none) :
    Returns (polSummDefault .readable b) w ↔ OnlineSummaryEnds b.onlineSummary := by
  have hopen : lift (rsOpen b.onlineSummary) w =
      .ok ((), w.reading b.onlineSummary b.onlineSummary w.log) :=
    lift_run (rsOpen_run hclosed b.onlineSummary)
  have hdefault : Returns (polSummDefault .readable b) w ↔ Returns (do
      moveNext
      detailedView
      polSummSummarized .readable) (w.reading b.onlineSummary b.onlineSummary w.log) :=
    returns_bind_run hopen
  rw [hdefault]
  cases b.onlineSummary with
  | nil =>
    refine iff_of_false (not_returns_bind (not_returns_of_error (e := .endOfData) rfl)) ?_
    rintro ⟨_, _, _, hrows, -⟩
    cases hrows
  | cons initial rest =>
    rw [returns_bind_run (moveNext_cons initial)]
    by_cases hnone : ∃ r ∈ rest, r.text .benShrtNm = none
    · obtain ⟨rest', log, hscan⟩ :=
        detailedView_run (w := w) hnone w.log
      rw [returns_bind_run hscan]
      cases rest with
      | nil =>
        obtain ⟨r, hr, -⟩ := hnone
        cases hr
      | cons r rest =>
        rw [polSummSummarized_returns_iff, onlineSummaryEnds_cons_iff, and_iff_right hnone]
    · refine iff_of_false (not_returns_bind (not_returns_detailedView hnone w.log)) ?_
      rintro ⟨_, r, rest', hrows, hexists, -⟩
      cases hrows
      exact hnone hexists

/-! ## The routines that look at the format -/

/-- The rows of the policy summary are those the bill's format asks for. -/
def SummaryComplete (b : BillData) : Prop :=
  if b.formatsRead.1 = some ['E'] then OnlineSummaryEnds b.onlineSummary
  else b.summary ≠ [] ∧ ∃ rounds, SummaryEnds b.summary rounds

/-- The rows of the members of a bill. -/
def membersRead (b : BillData) : List Row :=
  if b.formatsRead.1 = some ['E'] then b.onlineMembers else b.members

/-- The format in force decides. -/
theorem isE_iff_of_idle {f : Formats} (h : Idle f w) : w.isE = true ↔ f.1 = some ['E'] := by
  rw [isE_iff, h.2.2]

/-- After both views `rs.close` returns. -/
theorem validatePolicySummary_online_iff (b : BillData) (h : Idle b.formatsRead w)
    (hE : w.isE = true) :
    Returns (validatePolicySummary .readable b) w ↔ OnlineSummaryEnds b.onlineSummary := by
  unfold validatePolicySummary
  rw [← polSummDefault_returns_iff b h.2.1, Returns, get_bind_run, if_pos hE]
  refine returns_bind_iff_left fun _ w' hrun => ?_
  have hreading := (polSummDefault_refines b).ensures (polSummDefault_ensures b) h hrun
  obtain ⟨_, w₂, hclose, -⟩ := rsClose_ensures w' hreading
  exact returns_lift hclose

/-- The summary of format 4 returns exactly when its rows are rounds. -/
theorem validatePolicySummary_rounds_iff (b : BillData) (hclosed : w.rs = none)
    (hE : ¬ w.isE = true) (hfour : w.isFour = true) :
    Returns (validatePolicySummary .readable b) w ↔
      b.summary ≠ [] ∧ ∃ rounds, SummaryEnds b.summary rounds := by
  constructor
  · intro hreturns
    rcases validatePolicySummary_outcome b hclosed hE hfour with ⟨rounds, hne, hends⟩ | herror
    · exact ⟨hne, rounds, hends⟩
    · exact absurd hreturns (not_returns_of_error herror)
  · rintro ⟨hne, rounds, hends⟩
    exact ⟨_, validatePolicySummary_rounds b hclosed hE hfour hne hends⟩

/-- The summary of any format returns exactly when it is known and complete. -/
theorem validatePolicySummary_returns_iff (b : BillData) (h : Idle b.formatsRead w) :
    Returns (validatePolicySummary .readable b) w ↔ Known b.formatsRead ∧ SummaryComplete b := by
  by_cases hknown : Known b.formatsRead
  · rw [and_iff_right hknown, SummaryComplete]
    by_cases hE : w.isE = true
    · rw [if_pos ((isE_iff_of_idle h).mp hE)]
      exact validatePolicySummary_online_iff b h hE
    · have hfour : w.isFour = true := (isE_or_isFour (h.2.2.symm ▸ hknown)).resolve_left hE
      rw [if_neg fun hformat => hE ((isE_iff_of_idle h).mpr hformat)]
      exact validatePolicySummary_rounds_iff b h.2.1 hE hfour
  · -- `rs.close` comes although no branch has opened the recordset
    refine iff_of_false (fun ⟨_, hrun⟩ => ?_) fun hboth => hknown hboth.1
    have hrun' := validatePolicySummary_refines b w _ hrun
    rw [validatePolicySummary_closed b hknown h] at hrun'
    cases hrun'

/-- The members are read to their end exactly when their rows end the walk. -/
theorem validateMemberDetails_returns_iff (b : BillData) (h : Idle b.formatsRead w)
    (hknown : Known b.formatsRead) :
    Returns (validateMemberDetails .readable b) w ↔ MembersEnd (membersRead b) := by
  have hrows : memberRecordset w b = membersRead b := if_congr (isE_iff_of_idle h) rfl rfl
  have hformat : w.isE = true ∨ w.isFour = true := isE_or_isFour (h.2.2.symm ▸ hknown)
  rw [← hrows]
  constructor
  · intro hreturns
    by_contra hends
    exact not_returns_of_error (validateMemberDetails_endOfData b h.2.1 hformat hends) hreturns
  · intro hends
    obtain ⟨w', hrun⟩ := validateMemberDetails_returns b h.2.1 hformat hends
    exact ⟨_, hrun⟩

/-! ## A bill and a policy -/

/-- The queries of a bill have the rows that its validation reads. -/
structure Complete (b : BillData) : Prop where
  bills_ne_nil : b.bills ≠ []
  formats_ne_nil : b.formats ≠ []
  remittance_ne_nil : b.remittance ≠ []
  known : Known b.formatsRead
  summary_complete : SummaryComplete b
  members_end : MembersEnd (membersRead b)

/-- In the state after a routine those of `Validation` tell what is open. -/
theorem validateBill_returns_iff (b : BillData) (h : Closed w) :
    Returns (validateBill .readable b) w ↔ Complete b := by
  have hparts : Returns (validateBill .readable b) w ↔
      (b.bills ≠ [] ∧ b.formats ≠ []) ∧ b.remittance ≠ [] ∧
        (Known b.formatsRead ∧ SummaryComplete b) ∧ True ∧ MembersEnd (membersRead b) ∧ True := by
    refine returns_bind_iff (viewBill_returns_iff b h) fun _ w₁ h₁ => ?_
    have hidle₁ := (viewBill_refines b).ensures (viewBill_ensures b) h h₁
    refine returns_bind_iff (validateRemittance_returns_iff b hidle₁.2.1) fun _ w₂ h₂ => ?_
    have hidle₂ := (validateRemittance_refines b).ensures (validateRemittance_keeps b) hidle₁ h₂
    have hsummary := validatePolicySummary_returns_iff b hidle₂
    refine returns_bind_iff hsummary fun _ w₃ h₃ => ?_
    have hknown : Known b.formatsRead := (hsummary.mp ⟨_, h₃⟩).1
    have hidle₃ :=
      (validatePolicySummary_refines b).ensures (validatePolicySummary_keeps b hknown) hidle₂ h₃
    have hadjustments := validateMemberAdjustments_returns b hidle₃.2.1
    refine returns_bind_iff (iff_of_true hadjustments trivial) fun _ w₄ h₄ => ?_
    have hidle₄ :=
      (validateMemberAdjustments_refines b).ensures (validateMemberAdjustments_keeps b) hidle₃ h₄
    refine returns_bind_iff (validateMemberDetails_returns_iff b hidle₄ hknown) fun _ w₅ h₅ => ?_
    have hidle₅ :=
      (validateMemberDetails_refines b).ensures (validateMemberDetails_keeps b hknown) hidle₄ h₅
    exact iff_of_true (returns_lift (conClose_run hidle₅.1)) trivial
  rw [hparts]
  constructor
  · rintro ⟨⟨hbills, hformats⟩, hremittance, ⟨hknown, hsummary⟩, -, hmembers, -⟩
    exact ⟨hbills, hformats, hremittance, hknown, hsummary, hmembers⟩
  · intro h
    exact ⟨⟨h.bills_ne_nil, h.formats_ne_nil⟩, h.remittance_ne_nil,
      ⟨h.known, h.summary_complete⟩, trivial, h.members_end, trivial⟩

/-- A bill that is validated to its end leaves both objects closed. -/
theorem validateBill_closed {b : BillData} {w' : World} (h : Closed w)
    (hrun : validateBill .readable b w = .ok ((), w')) : Closed w' := by
  have hcomplete : Complete b := (validateBill_returns_iff b h).mp ⟨_, hrun⟩
  exact (validateBill_refines b).ensures (validateBill_ensures hcomplete.known) h hrun

/-- On a page whose texts are converted the run comes to its end when every bill is complete. -/
theorem validatePolicy_readable_iff (bills : List BillData) (hclosed : Closed w) :
    Returns (validatePolicy .readable bills) w ↔ ∀ b ∈ bills, Complete b :=
  returns_forM_iff (fun _ _ _ => validateBill_closed) (fun b _ h => validateBill_returns_iff b h)
    bills hclosed

/-- Such a run is one of `Validation`, and leaves both objects closed. -/
theorem validatePolicy_readable_run {bills : List BillData} {w' : World} (hclosed : Closed w)
    (hrun : validatePolicy .readable bills w = .ok ((), w')) :
    OaBills.validatePolicy bills w = .ok ((), w') ∧ Closed w' := by
  have hknown : ∀ b ∈ bills, Known b.formatsRead := fun b hb =>
    ((validatePolicy_readable_iff bills hclosed).mp ⟨_, hrun⟩ b hb).known
  have hkeeps : Keeps Closed (OaBills.validatePolicy bills) :=
    Keeps.forM fun b hb => validateBill_ensures (hknown b hb)
  exact ⟨validatePolicy_refines bills w _ hrun,
    (validatePolicy_refines bills).ensures hkeeps hclosed hrun⟩

/-- The run over the bills of a policy comes to its end exactly when every bill is complete (each of
its queries has the row that is read, its format has a branch, its summary and its members end in
the data, and `CInt` takes the lives that are summed up) and each check that the run of `Validation`
makes converts what the page shows. It is then that run, and leaves both objects closed. -/
theorem validatePolicy_completes_iff (page : Page) (bills : List BillData) (hclosed : Closed w) :
    ((∃ w', validatePolicy page bills w = .ok ((), w')) ↔ (∀ b ∈ bills, Complete b) ∧
      ∃ w', OaBills.validatePolicy bills w = .ok ((), w') ∧
        page.ReadsFrom w.log.length w'.log) ∧
    ∀ w', validatePolicy page bills w = .ok ((), w') →
      OaBills.validatePolicy bills w = .ok ((), w') ∧ Closed w' := by
  have hguarded : Guarded page.guards (validatePolicy page bills)
      (validatePolicy .readable bills) := validatePolicy_guarded bills
  have hreturns := validatePolicy_readable_iff bills hclosed
  refine ⟨⟨?_, ?_⟩, fun w' hrun => ?_⟩
  · rintro ⟨w', hrun⟩
    obtain ⟨hreadable, hread⟩ := (hguarded.run_iff w _).mp hrun
    have hcomplete := hreturns.mp ⟨_, hreadable⟩
    exact ⟨hcomplete, w', (validatePolicy_readable_run hclosed hreadable).1, hread⟩
  · rintro ⟨hcomplete, w', hvalidation, hread⟩
    obtain ⟨⟨_, w₁⟩, hreadable⟩ := hreturns.mpr hcomplete
    -- both runs are the same one
    have hsame := (validatePolicy_readable_run hclosed hreadable).1.symm.trans hvalidation
    obtain rfl : w₁ = w' := congrArg Prod.snd (Except.ok.inj hsame)
    exact ⟨w₁, (hguarded.run_iff w _).mpr ⟨hreadable, hread⟩⟩
  · exact validatePolicy_readable_run hclosed ((hguarded.run_iff w _).mp hrun).1

/-- A bill of the default format with one coverage and two members. -/
def onlineBill : BillData :=
  { BillData.withFormats ['E'] ['0', '1'] with
    bills := [typedRow 'B']
    remittance := [typedRow 'R']
    onlineSummary :=
      [typedRow 'F',
        Row.of [(.recordType, ⟨['F'], 0⟩), (.benShrtNm, ⟨['A'], 0⟩),
          (.summRollupIndicator, ⟨['A'], 0⟩), (.cvrdLvs, ⟨['3'], 3⟩)],
        typedRow 'G']
    onlineMembers := twoMembers.onlineMembers }

/-- A bill of format 04 with one department and two members. -/
def departmentBill : BillData :=
  { BillData.withFormats ['1'] ['0', '4'] with
    bills := [typedRow 'B']
    remittance := [typedRow 'R']
    summary := oneCoverage.rows
    members := twoMembers.onlineMembers }

/-- Nothing of this bill is missing. -/
theorem complete_onlineBill : Complete onlineBill where
  bills_ne_nil := List.cons_ne_nil _ _
  formats_ne_nil := List.cons_ne_nil _ _
  remittance_ne_nil := List.cons_ne_nil _ _
  known := .inl rfl
  summary_complete := by
    refine (if_pos rfl).mpr ((onlineSummaryEnds_cons_iff _ _ _).mpr ⟨?_, .inr ⟨fun _ => ?_, ?_⟩⟩)
    · exact ⟨typedRow 'G', by simp, rfl⟩
    · exact ⟨rfl, by decide +kernel⟩
    · refine .next (by rintro (h | h) <;> cases h) (fun h => by cases h) (.stop (.inr rfl))
  members_end := membersEnd_twoMembers

theorem complete_departmentBill : Complete departmentBill where
  bills_ne_nil := List.cons_ne_nil _ _
  formats_ne_nil := List.cons_ne_nil _ _
  remittance_ne_nil := List.cons_ne_nil _ _
  known := .inr (.inr rfl)
  summary_complete := by
    obtain ⟨rounds, hends, -⟩ := exists_rounds World.start [oneCoverage]
    have hrows : departmentBill.summary = [oneCoverage].flatMap Department.rows :=
      (List.flatMap_singleton _ _).symm
    rw [← hrows] at hends
    exact (if_neg (by decide)).mpr ⟨by simp [departmentBill, Department.rows], rounds, hends⟩
  members_end := membersEnd_twoMembers

/-- The 34th check on that bill is that of the lives of its rollup. -/
theorem onlineBill_lives :
    ((OaBills.validatePolicy [onlineBill] World.start).toOption.bind fun r =>
      r.2.log[33]?.map Check.typ) = some .int := by
  decide +kernel

/-- A page with 40000 in all its elements. -/
def manyShown : Page where
  shows _ _ := some ⟨some 40000, true⟩

/-- A policy with both bills, with one of them but no remittance, and with too many lives shown. -/
theorem validatePolicy_completes_twoBills :
    (∃ w', validatePolicy .readable [onlineBill, departmentBill] World.start = .ok ((), w') ∧
      OaBills.validatePolicy [onlineBill, departmentBill] World.start = .ok ((), w') ∧
        Closed w') ∧
    (¬ ∃ w', validatePolicy .readable [onlineBill, { departmentBill with remittance := [] }]
      World.start = .ok ((), w')) ∧
    ¬ ∃ w', validatePolicy manyShown [onlineBill] World.start = .ok ((), w') := by
  have hclosed : Closed World.start := ⟨rfl, rfl⟩
  refine ⟨?_, fun hrun => ?_, fun hrun => ?_⟩
  · obtain ⟨hiff, hsame⟩ :=
      validatePolicy_completes_iff .readable [onlineBill, departmentBill] hclosed
    have hcomplete : ∀ b ∈ [onlineBill, departmentBill], Complete b := by
      rintro b (_ | ⟨_, _ | ⟨_, ⟨⟩⟩⟩)
      · exact complete_onlineBill
      · exact complete_departmentBill
    obtain ⟨⟨_, w₁⟩, hreadable⟩ := (validatePolicy_readable_iff _ hclosed).mpr hcomplete
    have hvalidation := (validatePolicy_readable_run hclosed hreadable).1
    obtain ⟨w', hrun⟩ := hiff.mpr ⟨hcomplete, w₁, hvalidation, readsFrom_readable _ _⟩
    exact ⟨w', hrun, hsame w' hrun⟩
  · have hcomplete := ((validatePolicy_completes_iff .readable _ hclosed).1.mp hrun).1
      { departmentBill with remittance := [] } (by simp)
    exact hcomplete.remittance_ne_nil rfl
  · obtain ⟨-, w', hvalidation, hread⟩ :=
      (validatePolicy_completes_iff manyShown _ hclosed).1.mp hrun
    have hlives := onlineBill_lives
    rw [hvalidation] at hlives
    obtain ⟨c, hc, hint⟩ := Option.map_eq_some_iff.mp hlives
    have hreads : manyShown.reads 33 c = true := hread 33 c (Nat.zero_le _) hc
    rw [Page.reads, hint] at hreads
    have hmany : Found.converts ⟨some 40000, true⟩ .int = false := by decide +kernel
    exact absurd hreads (Bool.eq_false_iff.mp hmany)

end OaBills.Strict
