import ScriptsMisc.Lib.Footprint
import ScriptsMisc.OaBills.Lifecycle

/-! # One bill after the other

The bills of a policy are validated in one run, with the same globals. What an earlier bill leaves
behind is the results it has written and `PYRL_TOT`, which `viewBill` sets only when the bill has
summary rows.
-/

namespace OaBills

open Routine
open Vbs (shown)

/-! ## What `viewBill` leaves -/

/-- `PYRL_TOT` after the loop over these summary rows. -/
def pyrlAfter (pyrlTot : Option Str) (rows : List Row) : Option Str :=
  rows.foldl (fun _ r => r.text .curPyrlTot) pyrlTot

/-- The last row decides. -/
theorem pyrlAfter_of_ne_nil {rows : List Row} (h : rows ≠ []) (p q : Option Str) :
    pyrlAfter p rows = pyrlAfter q rows := by
  cases rows with
  | nil => exact absurd rfl h
  | cons r rows => rfl

/-- Rows in two parts are read one after the other. -/
theorem pyrlAfter_append (p : Option Str) (rows rows' : List Row) :
    pyrlAfter p (rows ++ rows') = pyrlAfter (pyrlAfter p rows) rows' := List.foldl_append

/-- The globals after `viewBill`. -/
def viewed (b : BillData) (w : World) : World :=
  let r : Row := b.bills.headD fun _ => none
  { w with
    con := true
    rs := none
    polNo := r.text .contNo
    bgrpKey := r.text .bgrpKey
    abllKeyGlobal := some b.abllKey
    pyrlTot := pyrlAfter w.pyrlTot b.summary
    dbillFrmtCd := b.formatsRead.1
    billFormat := b.formatsRead.2 }

/-- The loop over the summary rows. -/
theorem summaryLoop_runs (w : World) (rows rest : List Row) :
    LoopRuns (fun _ => rowHolds fun _ => some true) (fun _ : Unit => do
        let r ← current
        modify fun w => { w with pyrlTot := r.text .curPyrlTot }
        moveNext) rest.length () { w with rs := some ⟨rows, rest⟩ } ()
      { w with rs := some ⟨rows, []⟩, pyrlTot := pyrlAfter w.pyrlTot rest } := by
  induction rest generalizing w with
  | nil => exact .stop (rowHolds_run_nil rfl rfl _)
  | cons r rest ih =>
    refine .round (rowHolds_run_cons rfl rfl _) ?_ (ih { w with pyrlTot := r.text .curPyrlTot })
    let w₁ : World := { w with pyrlTot := r.text .curPyrlTot, rs := some ⟨rows, r :: rest⟩ }
    have hset : (modify fun w : World => { w with pyrlTot := r.text .curPyrlTot } : Vb PUnit)
        { w with rs := some ⟨rows, r :: rest⟩ } = .ok ((), w₁) := rfl
    rw [bind_run (current_run rfl)]
    exact (bind_run hset _).trans (moveNext_run (w := w₁) (c := ⟨rows, r :: rest⟩) rfl)

/-- A query of which one row sets globals. -/
theorem readRow_run {α : Type} {w : World} (h : w.rs = none) (rows : List Row)
    (g : Row → World → World) (rest : Vb α)
    (hg : ∀ r w, (g r w).rs = w.rs) :
    (do
      rsOpen rows
      let r ← current
      modify (g r)
      rsClose
      rest : Vb α) w =
      rest { g (rows.headD fun _ => none) { w with rs := some ⟨rows, rows⟩ } with rs := none } := by
  let w₁ : World := { w with rs := some ⟨rows, rows⟩ }
  let w₂ : World := g (rows.headD fun _ => none) w₁
  have hopen : rsOpen rows w = .ok ((), w₁) := rsOpen_run h rows
  have hrow : current w₁ = .ok (rows.headD fun _ => none, w₁) :=
    current_run (w := w₁) (c := ⟨rows, rows⟩) rfl
  have hset : (modify (g (rows.headD fun _ => none)) : Vb PUnit) w₁ = .ok ((), w₂) := rfl
  have hclose : rsClose w₂ = .ok ((), { w₂ with rs := none }) := rsClose_run (hg _ w₁)
  rw [bind_run hopen, bind_run hrow, bind_run hset, bind_run hclose]

/-- Viewing a bill sets the globals, opens the connection and leaves the recordset closed. -/
theorem viewBill_run (b : BillData) {w : World} (h : Closed w) :
    viewBill b w = .ok ((), viewed b w) := by
  obtain ⟨hcon, hrs⟩ := h
  let setBill (r : Row) (w : World) : World :=
    { w with
      abllKeyGlobal := some b.abllKey, polNo := r.text .contNo, bgrpKey := r.text .bgrpKey }
  let setFormats (r : Row) (w : World) : World :=
    { w with dbillFrmtCd := r.text .dbillFrmtCd, billFormat := r.text .billFormat }
  let w₁ : World := { w with con := true }
  let w₂ : World := { setBill (b.bills.headD fun _ => none) w₁ with rs := none }
  let w₃ : World := { w₂ with rs := some ⟨b.summary, b.summary⟩ }
  let w₄ : World :=
    { w₂ with rs := some ⟨b.summary, []⟩, pyrlTot := pyrlAfter w.pyrlTot b.summary }
  let w₅ : World := { w₄ with rs := none }
  have hopen : conOpen w = .ok ((), w₁) := conOpen_run hcon
  have hrs₁ : w₁.rs = none := hrs
  have hsummary : rsOpen b.summary w₂ = .ok ((), w₃) := rsOpen_run rfl b.summary
  have hloop : whileRow (fun _ => some true) () (fun _ => do
      let r ← current
      modify fun w => { w with pyrlTot := r.text .curPyrlTot }
      moveNext) w₃ = .ok ((), w₄) :=
    whileRow_run (summaryLoop_runs w₂ b.summary b.summary) le_rfl
  have hclose : rsClose w₄ = .ok ((), w₅) := rsClose_run rfl
  unfold viewBill
  rw [bind_run hopen]
  refine (readRow_run hrs₁ b.bills setBill _ fun _ _ => rfl).trans ?_
  refine (bind_run hsummary _).trans ((bind_run hloop _).trans ((bind_run hclose _).trans ?_))
  rw [bind_run (rsOpen_run rfl b.formats), bind_run (current_run rfl)]
  exact (bind_run rfl _).trans (rsClose_run rfl)

/-! ## The other routines -/

/-- What the routines look at of the globals. -/
structure SameView (w w' : World) : Prop where
  con : w.con = w'.con
  rs : w.rs = w'.rs
  isE : w.isE = w'.isE
  isFour : w.isFour = w'.isFour
  hasPayroll : w.hasPayroll = w'.hasPayroll

/-- A property of all programs that look at no more, use the objects and write results. -/
structure Neutral (P : (α : Type) → Vb α → Prop) : Prop extends Compositional P where
  look : ∀ {α : Type} {f : World → Vb α}, (∀ w w', SameView w w' → f w = f w') →
    (∀ w, P α (f w)) → P α (get >>= f)
  setCon : ∀ con, P PUnit (modify fun w => { w with con := con })
  setRs : ∀ rs, P PUnit (modify fun w => { w with rs := rs })
  validateElement : ∀ c, P PUnit (validateElement c)

namespace Neutral

variable {P : (α : Type) → Vb α → Prop} (h : Neutral P)
include h

/-- The rules for the calls of the recordset: each of them has the property. -/
theorem cursor : P Cursor cursor := by
  refine h.look (fun w w' hsame => ?_) fun w => ?_
  · rw [hsame.rs]
  · split
    · exact h.pure _
    · exact h.throw _

theorem conClose : P Unit conClose := by
  refine h.look (fun w w' hsame => ?_) fun w => ?_
  · rw [hsame.con]
  · split
    · exact h.bind (h.throw _) fun _ => h.setCon false
    · exact h.setCon false

theorem rsOpen (rows : List Row) : P Unit (rsOpen rows) := by
  refine h.look (fun w w' hsame => ?_) fun w => ?_
  · rw [hsame.rs]
  · split
    · exact h.bind (h.throw _) fun _ => h.setRs _
    · exact h.setRs _

theorem rsClose : P Unit rsClose := h.bind h.cursor fun _ => h.setRs none

theorem current : P Row current := h.bind h.cursor fun _ => h.pure _

theorem moveNext : P Unit moveNext := h.bind h.cursor fun _ => h.setRs _

theorem moveFirst : P Unit moveFirst := h.bind h.cursor fun _ => h.setRs _

/-- A loop has the property when its body has it. -/
theorem whileRow {τ : Type} (cond : Row → Option Bool) (x : τ) {body : τ → Vb τ}
    (hbody : ∀ x, P τ (body x)) : P τ (whileRow cond x body) := by
  refine h.bind h.cursor fun c => h.loop (fun _ => h.bind h.cursor fun c => ?_) hbody _ x
  split
  · exact h.pure _
  · exact h.pure _

theorem validateElements (cs : List Check) : P Unit (validateElements cs) :=
  h.forM h.validateElement cs

/-- Report on a row and move on. -/
theorem reportRow (checks : Row → List Check) : P Unit (do
    let r ← OaBills.current
    OaBills.validateElements (checks r)
    OaBills.moveNext) :=
  h.bind h.current fun _ => h.bind (h.validateElements _) fun _ => h.moveNext

/-- The routines have it, one after the other. -/
theorem validateRemittance (b : BillData) : P Unit (validateRemittance b) :=
  h.bind (h.rsOpen _) fun _ => h.bind h.current fun _ =>
    h.bind (h.validateElements _) fun _ => h.rsClose

theorem polSummDefault (b : BillData) : P Unit (polSummDefault b) := by
  refine h.bind (h.rsOpen _) fun _ => h.bind h.moveNext fun _ => ?_
  refine h.bind (h.whileRow _ _ fun _ => h.reportRow _) fun _ => ?_
  refine h.bind h.moveFirst fun _ => h.bind h.moveNext fun _ => h.bind h.current fun r => ?_
  refine h.bind h.moveFirst fun _ => h.bind (h.whileRow _ _ fun x => ?_) fun _ => h.pure _
  refine h.bind h.moveNext fun _ => h.bind h.current fun r => ?_
  split
  · exact h.pure _
  · exact h.bind (h.validateElements _) fun _ => h.pure _

theorem summaryRound : P Unit summaryRound := by
  refine h.look (fun w w' hsame => ?_) fun w => h.bind h.current fun r => ?_
  · simp only [coverageChecks, departmentChecks, hsame.hasPayroll]
  have hdepartment : ∀ r : Row, P Unit
      (if holds (eqNull (r.text .recordType) (some ['G'])) = true then do
        OaBills.validateElements (departmentChecks w r)
        OaBills.moveNext
      else Pure.pure ()) := by
    intro r
    split
    · exact h.bind (h.validateElements _) fun _ => h.moveNext
    · exact h.pure _
  have hcoverage := h.bind h.current fun r =>
    h.bind (h.validateElements (coverageChecks w r)) fun _ => h.bind h.moveNext fun _ =>
      h.bind h.current hdepartment
  split
  · exact h.bind h.moveNext fun _ => hcoverage
  · exact hcoverage

theorem validatePolicySummary (b : BillData) : P Unit (validatePolicySummary b) := by
  refine h.look (fun w w' hsame => ?_) fun w => ?_
  · rw [hsame.isE, hsame.isFour]
  split
  · exact h.bind (h.polSummDefault b) fun _ => h.rsClose
  · split
    · refine h.bind (h.rsOpen _) fun _ => h.bind h.moveFirst fun _ => ?_
      exact h.bind (h.whileRow _ _ fun _ => h.summaryRound) fun _ => h.rsClose
    · exact h.rsClose

theorem validateMemberAdjustments (b : BillData) : P Unit (validateMemberAdjustments b) :=
  h.bind (h.rsOpen _) fun _ => h.bind (h.whileRow _ _ fun _ => h.reportRow _) fun _ => h.rsClose

theorem validateMemberDetailBenefits : P Unit validateMemberDetailBenefits := by
  refine h.whileRow _ _ fun _ => h.look (fun w w' hsame => ?_) fun w => h.reportRow _
  simp only [benefitChecks, hsame.isE, hsame.isFour, hsame.hasPayroll]

theorem validateMemberDetailTotals : P Unit validateMemberDetailTotals := by
  refine h.look (fun w w' hsame => ?_) fun w => h.bind h.current fun _ => h.validateElements _
  simp only [totalChecks, hsame.isE, hsame.isFour, hsame.hasPayroll]

theorem memberRound : P Unit memberRound := by
  refine h.bind h.current fun r => ?_
  have hmember := h.bind h.current fun r =>
    h.bind (h.validateElements [nameCheck r]) fun _ =>
      h.bind h.validateMemberDetailBenefits fun _ =>
        h.bind h.validateMemberDetailTotals fun _ => h.moveNext
  split
  · exact h.bind h.moveNext fun _ => hmember
  · exact hmember

theorem memberDetailLoops : P Unit memberDetailLoops :=
  h.bind (h.whileRow _ _ fun _ => h.moveNext) fun _ => h.whileRow _ _ fun _ => h.memberRound

theorem memberDetailSummarized : P Unit memberDetailSummarized := by
  refine h.bind h.moveFirst fun _ => h.bind (h.whileRow _ _ fun x => ?_) fun _ => h.pure _
  refine h.bind h.current fun r => h.bind (h.validateElements _) fun _ => ?_
  exact h.bind h.moveNext fun _ => h.pure _

theorem validateMemberDetails (b : BillData) : P Unit (validateMemberDetails b) := by
  refine h.look (fun w w' hsame => ?_) fun w => ?_
  · rw [hsame.isE, hsame.isFour]
  have hclose := h.bind h.memberDetailLoops fun _ => h.rsClose
  have hsummarized := h.bind h.memberDetailLoops fun _ =>
    h.bind h.memberDetailSummarized fun _ => h.rsClose
  split
  · exact h.bind (h.rsOpen _) fun _ => hsummarized
  · split
    · exact h.bind (h.rsOpen _) fun _ => hclose
    · exact hclose

end Neutral

/-- A bill that is viewed: the routines of `validateBill` from there on. -/
def validateViewed (b : BillData) : Vb Unit := do
  validateRemittance b
  validatePolicySummary b
  validateMemberAdjustments b
  validateMemberDetails b
  conClose

/-- All that is validated once a bill is viewed has the property. -/
theorem Neutral.validateViewed {P : (α : Type) → Vb α → Prop} (h : Neutral P) (b : BillData) :
    P Unit (validateViewed b) :=
  h.bind (h.validateRemittance b) fun _ => h.bind (h.validatePolicySummary b) fun _ =>
    h.bind (h.validateMemberAdjustments b) fun _ =>
      h.bind (h.validateMemberDetails b) fun _ => h.conClose

/-- A bill is viewed and then validated. -/
theorem validateBill_eq (b : BillData) {w : World} (h : Closed w) :
    validateBill b w = validateViewed b (viewed b w) := bind_run (viewBill_run b h) _

/-! ## What they neither look at nor change -/

/-- `not (PYRL_TOT = "0")` at a value of `PYRL_TOT`. -/
def payroll (pyrlTot : Option Str) : Bool := holds (notNull (eqNull pyrlTot (some ['0'])))

/-- The world with other results before its own and with a value of `PYRL_TOT` put for another. -/
def World.recast (g : Option Str → Option Str) (log : List Check) (w : World) : World :=
  { w with pyrlTot := g w.pyrlTot, log := log ++ w.log }

/-- The routines see no difference between payroll totals that they take for the same. -/
theorem neutral_commutes {g : Option Str → Option Str} (hg : ∀ p, payroll (g p) = payroll p)
    (log : List Check) : Neutral (Commutes (World.recast g log)) where
  toCompositional := commutes_compositional _
  look hlook hf := Commutes.get_bind
    (fun w => hlook _ _ ⟨rfl, rfl, rfl, rfl, hg w.pyrlTot⟩) hf
  setCon _ := Commutes.modify fun _ => rfl
  setRs _ := Commutes.modify fun _ => rfl
  validateElement c := Commutes.modify fun w => by
    simp only [World.recast, List.append_assoc]
    rfl

/-- Results of the bill in work are added, and `PYRL_TOT` stays. -/
structure Adds (w w' : World) : Prop where
  labelled : w'.labelled = w.labelled
  pyrlTot : w'.pyrlTot = w.pyrlTot
  log : ∃ cs : List Check, w'.log = w.log ++ cs.map w.labelled

instance : Std.Refl Adds := ⟨fun _ => ⟨rfl, rfl, [], by simp⟩⟩

instance : IsTrans World Adds where
  trans := by
    rintro w₁ w₂ w₃ ⟨hlabel, hpyrl, cs, hlog⟩ ⟨hlabel', hpyrl', cs', hlog'⟩
    refine ⟨hlabel'.trans hlabel, hpyrl'.trans hpyrl, cs ++ cs', ?_⟩
    rw [hlog', hlog, hlabel, List.map_append, List.append_assoc]

/-- The routines only add to the log. -/
theorem neutral_adds : Neutral (Relates Adds) where
  toCompositional := relates_compositional Adds
  look _ hf := Relates.get_bind hf
  setCon _ := Relates.modify fun _ => ⟨rfl, rfl, [], by simp⟩
  setRs _ := Relates.modify fun _ => ⟨rfl, rfl, [], by simp⟩
  validateElement c := Relates.modify fun _ => ⟨rfl, rfl, [c], rfl⟩

/-! ## The results of a bill -/

/-- A fresh session in which `PYRL_TOT` has a value. -/
def World.fresh (pyrlTot : Option Str) : World := { World.start with pyrlTot := pyrlTot }

/-- The results of a run that returns. -/
def logged : Except AdoError (Unit × World) → List Check
  | .ok (_, w) => w.log
  | .error _ => []

/-- The results of a bill that is validated alone. -/
def billLog (b : BillData) (pyrlTot : Option Str) : List Check :=
  logged (validateBill b (World.fresh pyrlTot))

/-- A label with the policy and the key of the bill. -/
def BillData.labelled (b : BillData) (c : Check) : Check :=
  { c with
    label := shown ((b.bills.headD fun _ => none).text .contNo) ++ '/' :: b.abllKey ++
      ": ".toList ++ c.label }

/-- A fresh world has both objects closed. -/
theorem fresh_closed (p : Option Str) : Closed (World.fresh p) := ⟨rfl, rfl⟩

/-- The log of a recast run is that of the run. -/
theorem logged_map (g : Option Str → Option Str) (r : Except AdoError (Unit × World)) :
    logged (r.map (Prod.map id (World.recast g []))) = logged r := by
  cases r with
  | error e => rfl
  | ok r => rfl

/-- In a run a bill adds the results it has alone, and hands `PYRL_TOT` on. -/
theorem validateBill_log {b : BillData} (hknown : Known b.formatsRead) {w : World}
    (h : Closed w) :
    ∃ w', validateBill b w = .ok ((), w') ∧ Closed w' ∧
      w'.pyrlTot = pyrlAfter w.pyrlTot b.summary ∧ w'.log = w.log ++ billLog b w.pyrlTot := by
  obtain ⟨_, w', hrun, hclosed⟩ := validateBill_ensures hknown w h
  obtain ⟨_, w₀, halone, -⟩ := validateBill_ensures hknown _ (fresh_closed w.pyrlTot)
  have hlog : billLog b w.pyrlTot = w₀.log := by rw [billLog, halone]; rfl
  have hview : viewed b w = (viewed b (World.fresh w.pyrlTot)).recast id w.log := by
    show viewed b w = { viewed b w with log := w.log ++ [] }
    rw [List.append_nil]
    rfl
  have hrun' : validateViewed b (viewed b w) = .ok ((), w₀.recast id w.log) := by
    rw [hview]
    rw [validateBill_eq b (fresh_closed _)] at halone
    exact ((neutral_commutes (fun _ => rfl) w.log).validateViewed b).run halone
  rw [validateBill_eq b h] at hrun
  have hadds : Adds (viewed b w) w' := neutral_adds.validateViewed b _ _ _ hrun
  obtain rfl : w' = w₀.recast id w.log := by
    rw [hrun] at hrun'
    exact congrArg Prod.snd (Except.ok.inj hrun')
  refine ⟨_, (validateBill_eq b h).trans hrun, hclosed, hadds.pyrlTot, ?_⟩
  rw [hlog]
  rfl

/-- Of what came before only `PYRL_TOT` counts, and that only for a bill without summary rows. -/
theorem billLog_eq {b : BillData} {p q : Option Str} (h : b.summary ≠ [] ∨ payroll p = payroll q) :
    billLog b p = billLog b q := by
  have hpayroll : payroll (pyrlAfter p b.summary) = payroll (pyrlAfter q b.summary) := by
    by_cases hsummary : b.summary = []
    · rw [hsummary]
      exact h.resolve_left (not_not_intro hsummary)
    · rw [pyrlAfter_of_ne_nil hsummary p q]
  let g : Option Str → Option Str := fun p => if payroll p then some ['1'] else some ['0']
  have hg : ∀ p, payroll (g p) = payroll p := by
    intro p
    cases hp : payroll p <;> simp only [g, hp] <;> rfl
  have hview : (viewed b (World.fresh p)).recast g [] = (viewed b (World.fresh q)).recast g [] := by
    have hpyrl : g (pyrlAfter p b.summary) = g (pyrlAfter q b.summary) := by
      simp only [g, hpayroll]
    show { viewed b (World.fresh p) with pyrlTot := g (pyrlAfter p b.summary), log := [] } =
      { viewed b (World.fresh p) with pyrlTot := g (pyrlAfter q b.summary), log := [] }
    rw [hpyrl]
  have hcommutes := (neutral_commutes hg []).validateViewed b
  rw [billLog, billLog, validateBill_eq b (fresh_closed p), validateBill_eq b (fresh_closed q),
    ← logged_map g, ← hcommutes, hview, hcommutes, logged_map]

/-- Every check of a bill has its label. -/
theorem labelled_of_mem_billLog {b : BillData} {p : Option Str} {c : Check}
    (h : c ∈ billLog b p) : ∃ d, c = b.labelled d := by
  rw [billLog, validateBill_eq b (fresh_closed p)] at h
  cases hrun : validateViewed b (viewed b (World.fresh p)) with
  | error e =>
    rw [hrun] at h
    exact absurd h List.not_mem_nil
  | ok r =>
    obtain ⟨cs, hlog⟩ := (neutral_adds.validateViewed b _ _ _ hrun).log
    rw [hrun] at h
    have hmem : c ∈ r.2.log := h
    rw [hlog] at hmem
    obtain ⟨d, -, rfl⟩ := List.mem_map.mp hmem
    exact ⟨d, rfl⟩

/-! ## The results of a policy -/

/-- A bill of format 4 with one member and no summary rows. -/
def BillData.oneMember : BillData :=
  { BillData.withFormats ['4'] ['0', '4'] with
    members :=
      [typedRow 'N', typedRow 'O', typedRow 'P'] }

end OaBills
