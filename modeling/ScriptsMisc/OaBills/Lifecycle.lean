import ScriptsMisc.OaBills.Validation

/-! # The connection and the recordset over whole runs

Every routine opens `rs`, works on it and closes it again. The policy summary and the member
details open it in a branch for each known format only, and close it in any case.
-/

namespace OaBills

open Routine

/-! ## What the objects ensure -/

/-- The formats of the bill in work: `DBILL_FRMT_CD` and `BILL_FORMAT`. -/
abbrev Formats := Option Str × Option Str

def World.formats (w : World) : Formats := (w.dbillFrmtCd, w.billFormat)

/-- Both objects are closed. -/
def Closed (w : World) : Prop := w.con = false ∧ w.rs = none

/-- Between two routines: the connection is open, the recordset is not. -/
def Idle (f : Formats) (w : World) : Prop := w.con = true ∧ w.rs = none ∧ w.formats = f

/-- Inside a routine: at most `n` rows are left. -/
def Busy (f : Formats) (n : ℕ) (w : World) : Prop :=
  w.con = true ∧ (∃ c, w.rs = some c ∧ c.rest.length ≤ n) ∧ w.formats = f

/-- Inside a routine. -/
def Reading (f : Formats) (w : World) : Prop := ∃ n, Busy f n w

variable {f : Formats} {n : ℕ}

/-- The bound on the rows that are left may be raised. -/
theorem Busy.mono {m : ℕ} {w : World} (hle : m ≤ n) (h : Busy f m w) : Busy f n w := by
  obtain ⟨hcon, ⟨c, hrs, hrest⟩, hf⟩ := h
  exact ⟨hcon, ⟨c, hrs, le_trans hrest hle⟩, hf⟩

/-- A closed recordset can be opened. -/
theorem rsOpen_ensures (rows : List Row) :
    Ensures (Idle f) (rsOpen rows) fun _ => Reading f := by
  rintro w ⟨hcon, hrs, hf⟩
  exact ⟨(), _, rsOpen_run hrs rows, rows.length, hcon, ⟨_, rfl, le_rfl⟩, hf⟩

/-- An open one can be closed. -/
theorem rsClose_ensures : Ensures (Reading f) rsClose fun _ => Idle f := by
  rintro w ⟨n, hcon, ⟨c, hrs, -⟩, hf⟩
  exact ⟨(), _, rsClose_run hrs, hcon, rfl, hf⟩

theorem current_keeps : Keeps (Busy f n) current := by
  intro w h
  obtain ⟨c, hrs, -⟩ := h.2.1
  exact ⟨_, w, current_run hrs, h⟩

/-- Moving on uses up a row. -/
theorem moveNext_ensures : Ensures (Busy f (n + 1)) moveNext fun _ => Busy f n := by
  rintro w ⟨hcon, ⟨c, hrs, hrest⟩, hf⟩
  refine ⟨(), _, moveNext_run hrs, hcon, ⟨_, rfl, ?_⟩, hf⟩
  rw [List.length_tail]
  omega

/-- Moving on leaves no more rows than before. -/
theorem moveNext_keeps : Keeps (Busy f n) moveNext := by
  rintro w ⟨hcon, ⟨c, hrs, hrest⟩, hf⟩
  refine ⟨(), _, moveNext_run hrs, hcon, ⟨_, rfl, ?_⟩, hf⟩
  rw [List.length_tail]
  omega

theorem moveFirst_keeps : Keeps (Reading f) moveFirst := by
  rintro w ⟨n, hcon, ⟨c, hrs, -⟩, hf⟩
  exact ⟨(), _, moveFirst_run hrs, c.rows.length, hcon, ⟨_, rfl, le_rfl⟩, hf⟩

/-- Checks leave the recordset alone. -/
theorem validateElements_keeps (cs : List Check) : Keeps (Busy f n) (validateElements cs) :=
  fun w h => ⟨(), _, validateElements_run w cs, h⟩

theorem get_keeps {P : World → Prop} : Keeps P (get : Vb World) := fun w h => ⟨w, w, rfl, h⟩

/-- What holds for every number of rows left holds inside a routine. -/
theorem reading_of_busy {α : Type} {m : Vb α} (h : ∀ n, Keeps (Busy f n) m) :
    Keeps (Reading f) m := by
  rintro w ⟨n, hw⟩
  obtain ⟨a, w', hrun, hw'⟩ := h n w hw
  exact ⟨a, w', hrun, n, hw'⟩

/-- A loop over the rows ends when every round moves on. -/
theorem whileRow_keeps {τ : Type} {cond : Row → Option Bool} {body : τ → Vb τ}
    (hbody : ∀ x n, Ensures (Busy f (n + 1)) (body x) fun _ => Busy f n) (x : τ) :
    Keeps (Busy f n) (whileRow cond x body) := by
  intro w h
  obtain ⟨c, hrs, hrest⟩ := h.2.1
  have hloop : Keeps (Busy f c.rest.length)
      (Routine.loop .stuck (fun _ => rowHolds cond) body (c.rest.length + 1) x) := by
    apply Keeps.loop (I := Busy f) (fun _ _ _ => Busy.mono) ?_ hbody (Nat.lt_succ_self _)
    intro _ n w' h'
    obtain ⟨c', hrs', hrest'⟩ := h'.2.1
    cases hc : c'.rest with
    | nil => exact ⟨false, w', rowHolds_run_nil hrs' hc cond, h', fun hb => absurd hb (by decide)⟩
    | cons r rs =>
      rw [hc, List.length_cons] at hrest'
      exact ⟨_, w', rowHolds_run_cons hrs' hc cond, h', fun _ => by omega⟩
  obtain ⟨x', w', hrun, hw'⟩ := hloop w ⟨h.1, ⟨c, hrs, le_rfl⟩, h.2.2⟩
  refine ⟨x', w', ?_, hw'.mono hrest⟩
  unfold whileRow
  rw [Routine.bind_run (cursor_run hrs)]
  exact hrun

/-! ## The routines -/

/-- Reading a row keeps the recordset open. -/
theorem current_reading : Keeps (Reading f) current := reading_of_busy fun _ => current_keeps

theorem validateElements_reading (cs : List Check) : Keeps (Reading f) (validateElements cs) :=
  reading_of_busy fun _ => validateElements_keeps cs

theorem moveNext_reading : Keeps (Reading f) moveNext := reading_of_busy fun _ => moveNext_keeps

/-- A loop keeps the recordset open when its rounds use up a row each. -/
theorem whileRow_reading {τ : Type} {cond : Row → Option Bool} {body : τ → Vb τ}
    (hbody : ∀ x n, Ensures (Busy f (n + 1)) (body x) fun _ => Busy f n) (x : τ) :
    Keeps (Reading f) (whileRow cond x body) := reading_of_busy fun _ => whileRow_keeps hbody x

/-- A round that reports on its row and moves on. -/
theorem reportRow_ensures (checks : Row → List Check) :
    Ensures (Busy f (n + 1)) (do
      let r ← current
      validateElements (checks r)
      moveNext) fun _ => Busy f n :=
  Ensures.bind current_keeps fun _ =>
    Ensures.bind (validateElements_keeps _) fun _ => moveNext_ensures

/-- The remittance opens and closes the recordset. -/
theorem validateRemittance_keeps (b : BillData) : Keeps (Idle f) (validateRemittance b) := by
  unfold validateRemittance
  refine Ensures.bind (rsOpen_ensures _) fun _ => ?_
  refine Ensures.bind current_reading fun r => ?_
  exact Ensures.bind (validateElements_reading _) fun _ => rsClose_ensures

theorem validateMemberAdjustments_keeps (b : BillData) :
    Keeps (Idle f) (validateMemberAdjustments b) := by
  unfold validateMemberAdjustments
  refine Ensures.bind (rsOpen_ensures _) fun _ => ?_
  exact Ensures.bind (whileRow_reading (fun _ _ => reportRow_ensures _) ())
    fun _ => rsClose_ensures

/-- The summary of format E leaves the recordset open. -/
theorem polSummDefault_ensures (b : BillData) :
    Ensures (Idle f) (polSummDefault b) fun _ => Reading f := by
  unfold polSummDefault
  refine Ensures.bind (rsOpen_ensures _) fun _ => ?_
  refine Ensures.bind moveNext_reading fun _ => ?_
  refine Ensures.bind (whileRow_reading (fun _ _ => reportRow_ensures _) ()) fun _ => ?_
  refine Ensures.bind moveFirst_keeps fun _ => ?_
  refine Ensures.bind moveNext_reading fun _ => ?_
  refine Ensures.bind current_reading fun r => ?_
  refine Ensures.bind moveFirst_keeps fun _ => ?_
  refine Ensures.bind (whileRow_reading (fun x n => ?_) _) fun _ => Keeps.pure _
  refine Ensures.bind moveNext_ensures fun _ => ?_
  refine Ensures.bind current_keeps fun r => ?_
  apply Ensures.ite
  · exact fun _ => Keeps.pure _
  · exact fun _ => Ensures.bind (validateElements_keeps _) fun _ => Keeps.pure _

/-- A coverage uses up a row at least. -/
theorem summaryRound_ensures : Ensures (Busy f (n + 1)) summaryRound fun _ => Busy f n := by
  have hrest : ∀ w : World, Ensures (Busy f (n + 1)) (do
      let r ← current
      validateElements (coverageChecks w r)
      moveNext
      let r ← current
      if holds (eqNull (r.text .recordType) (some ['G'])) then
        validateElements (departmentChecks w r)
        moveNext) fun _ => Busy f n := by
    intro w
    refine Ensures.bind current_keeps fun r => ?_
    refine Ensures.bind (validateElements_keeps _) fun _ => ?_
    refine Ensures.bind moveNext_ensures fun _ => ?_
    refine Ensures.bind current_keeps fun r => ?_
    apply Ensures.ite
    · exact fun _ => Ensures.bind (validateElements_keeps _) fun _ => moveNext_keeps
    · exact fun _ => Keeps.pure _
  unfold summaryRound
  refine Ensures.bind get_keeps fun w => ?_
  refine Ensures.bind current_keeps fun r => ?_
  apply Ensures.ite
  · exact fun _ => Ensures.bind moveNext_keeps fun _ => hrest w
  · exact fun _ => hrest w

/-- A member uses up a row at least. -/
theorem memberRound_ensures : Ensures (Busy f (n + 1)) memberRound fun _ => Busy f n := by
  have hbenefits : Keeps (Busy f (n + 1)) validateMemberDetailBenefits := by
    refine whileRow_keeps (fun _ k => ?_) ()
    refine Ensures.bind get_keeps fun w => ?_
    exact reportRow_ensures (benefitChecks w)
  have htotals : Keeps (Busy f (n + 1)) validateMemberDetailTotals := by
    refine Keeps.bind get_keeps fun w => ?_
    exact Keeps.bind current_keeps fun r => validateElements_keeps _
  have hrest : Ensures (Busy f (n + 1)) (do
      let r ← current
      validateElements [nameCheck r]
      validateMemberDetailBenefits
      validateMemberDetailTotals
      moveNext) fun _ => Busy f n := by
    refine Ensures.bind current_keeps fun r => ?_
    refine Ensures.bind (validateElements_keeps _) fun _ => ?_
    exact Ensures.bind hbenefits fun _ => Ensures.bind htotals fun _ => moveNext_ensures
  unfold memberRound
  refine Ensures.bind current_keeps fun r => ?_
  apply Ensures.ite
  · exact fun _ => Ensures.bind moveNext_keeps fun _ => hrest
  · exact fun _ => hrest

/-- The detailed view keeps the recordset open. -/
theorem memberDetailLoops_keeps : Keeps (Reading f) memberDetailLoops :=
  Keeps.bind (whileRow_reading (fun _ _ => moveNext_ensures) ()) fun _ =>
    whileRow_reading (fun _ _ => memberRound_ensures) ()

theorem memberDetailSummarized_keeps : Keeps (Reading f) memberDetailSummarized := by
  unfold memberDetailSummarized
  refine Keeps.bind moveFirst_keeps fun _ => ?_
  refine Keeps.bind (whileRow_reading (fun x n => ?_) _) fun _ => Keeps.pure _
  refine Ensures.bind current_keeps fun r => ?_
  refine Ensures.bind (validateElements_keeps _) fun _ => ?_
  exact Ensures.bind moveNext_ensures fun _ => Keeps.pure _

/-! ## Formats -/

/-- The formats for which the routines have a branch. -/
def Known (f : Formats) : Prop := f.1 = some ['E'] ∨ f.1 = some ['4'] ∨ f.2 = some ['0', '4']

instance (f : Formats) : Decidable (Known f) := by unfold Known; infer_instance

/-- Format E is read off the first format. -/
theorem isE_iff (w : World) : w.isE = true ↔ w.formats.1 = some ['E'] := holds_eqNull_iff _ _

/-- Format 4 is read off either format. -/
theorem isFour_iff (w : World) :
    w.isFour = true ↔ w.formats.1 = some ['4'] ∨ w.formats.2 = some ['0', '4'] := by
  unfold World.isFour
  rw [holds_orNull, Bool.or_eq_true, holds_eqNull_iff, holds_eqNull_iff]
  rfl

/-- One of the two branches is taken for a known format. -/
theorem isE_or_isFour {w : World} (hknown : Known w.formats) : w.isE = true ∨ w.isFour = true := by
  rw [isE_iff, isFour_iff]
  exact hknown

/-- A format that is not known is none of the two. -/
theorem not_isE_isFour {w : World} (hknown : ¬ Known w.formats) :
    ¬ w.isE = true ∧ ¬ w.isFour = true := by
  rw [isE_iff, isFour_iff]
  exact not_or.mp hknown

/-! ## The two routines that look at the format -/

/-- The summary of a known format opens and closes the recordset. -/
theorem validatePolicySummary_keeps (b : BillData) (hknown : Known f) :
    Keeps (Idle f) (validatePolicySummary b) := by
  intro w h
  unfold validatePolicySummary
  rw [get_bind_run]
  by_cases hE : w.isE = true
  · rw [if_pos hE]
    exact (Ensures.bind (polSummDefault_ensures b) fun _ => rsClose_ensures) w h
  · have hfour := (isE_or_isFour (h.2.2.symm ▸ hknown)).resolve_left hE
    rw [if_neg hE, if_pos hfour]
    refine (Ensures.bind (rsOpen_ensures _) fun _ => ?_) w h
    refine Ensures.bind moveFirst_keeps fun _ => ?_
    exact Ensures.bind (whileRow_reading (fun _ _ => summaryRound_ensures) ())
      fun _ => rsClose_ensures

/-- No branch opens the recordset for an unknown format, but `rs.close` comes in any case. -/
theorem validatePolicySummary_closed (b : BillData) (hknown : ¬ Known f) {w : World}
    (h : Idle f w) : validatePolicySummary b w = .error .objectClosed := by
  obtain ⟨hE, hfour⟩ := not_isE_isFour (h.2.2.symm ▸ hknown)
  unfold validatePolicySummary
  rw [get_bind_run, if_neg hE, if_neg hfour]
  exact bind_error (cursor_closed h.2.1) _

/-- The member details of a known format open and close the recordset. -/
theorem validateMemberDetails_keeps (b : BillData) (hknown : Known f) :
    Keeps (Idle f) (validateMemberDetails b) := by
  intro w h
  unfold validateMemberDetails
  rw [get_bind_run]
  by_cases hE : w.isE = true
  · rw [if_pos hE]
    refine (Ensures.bind (rsOpen_ensures _) fun _ => ?_) w h
    refine Ensures.bind memberDetailLoops_keeps fun _ => ?_
    rw [if_pos hE]
    exact Ensures.bind memberDetailSummarized_keeps fun _ => rsClose_ensures
  · have hfour := (isE_or_isFour (h.2.2.symm ▸ hknown)).resolve_left hE
    rw [if_neg hE, if_pos hfour]
    refine (Ensures.bind (rsOpen_ensures _) fun _ => ?_) w h
    refine Ensures.bind memberDetailLoops_keeps fun _ => ?_
    rw [if_neg hE]
    exact rsClose_ensures

/-! ## A bill -/

/-- `DBILL_FRMT_CD` and `BILL_FORMAT` of a bill. -/
def BillData.formatsRead (b : BillData) : Formats :=
  let r : Row := b.formats.headD fun _ => none
  (r.text .dbillFrmtCd, r.text .billFormat)

/-- Setting a global that is neither an object nor a format. -/
theorem modify_keeps {g : World → World}
    (hg : ∀ w, (g w).con = w.con ∧ (g w).rs = w.rs ∧ (g w).formats = w.formats) :
    Keeps (Busy f n) (modify g : Vb Unit) := by
  intro w h
  obtain ⟨hcon, hrs, hf⟩ := hg w
  exact ⟨(), g w, rfl, hcon ▸ h.1, hrs ▸ h.2.1, hf ▸ h.2.2⟩

/-- The last query of `viewBill` sets the formats. -/
theorem readFormats_ensures (b : BillData) :
    Ensures (Idle f) (do
      rsOpen b.formats
      let r ← current
      modify fun w =>
        { w with dbillFrmtCd := r.text .dbillFrmtCd, billFormat := r.text .billFormat }
      rsClose) fun _ => Idle b.formatsRead := by
  intro w h
  let w' : World :=
    { w with dbillFrmtCd := b.formatsRead.1, billFormat := b.formatsRead.2, rs := none }
  refine ⟨(), w', ?_, h.1, rfl, rfl⟩
  rw [bind_run (rsOpen_run h.2.1 b.formats), bind_run (current_run rfl)]
  exact (bind_run rfl _).trans (rsClose_run rfl)

/-- `viewBill` opens the connection and reads the formats. -/
theorem viewBill_ensures (b : BillData) :
    Ensures Closed (viewBill b) fun _ => Idle b.formatsRead := by
  intro w h
  unfold viewBill
  rw [bind_run (conOpen_run h.1)]
  have hidle : Idle w.formats { w with con := true } := ⟨rfl, h.2, rfl⟩
  refine (Ensures.bind (rsOpen_ensures _) fun _ => ?_) _ hidle
  refine Ensures.bind current_reading fun r => ?_
  refine Ensures.bind (reading_of_busy fun _ => modify_keeps fun _ => ⟨rfl, rfl, rfl⟩) fun _ => ?_
  refine Ensures.bind rsClose_ensures fun _ => ?_
  refine Ensures.bind (rsOpen_ensures _) fun _ => ?_
  refine Ensures.bind (whileRow_reading (fun _ n => ?_) ()) fun _ => ?_
  · refine Ensures.bind current_keeps fun r => ?_
    exact Ensures.bind (modify_keeps fun _ => ⟨rfl, rfl, rfl⟩) fun _ => moveNext_ensures
  · exact Ensures.bind rsClose_ensures fun _ => readFormats_ensures b

/-- A bill with a known format is validated, and leaves both objects closed. -/
theorem validateBill_ensures {b : BillData} (hknown : Known b.formatsRead) :
    Keeps Closed (validateBill b) := by
  unfold validateBill
  refine Ensures.bind (viewBill_ensures b) fun _ => ?_
  refine Ensures.bind (validateRemittance_keeps b) fun _ => ?_
  refine Ensures.bind (validatePolicySummary_keeps b hknown) fun _ => ?_
  refine Ensures.bind (validateMemberAdjustments_keeps b) fun _ => ?_
  refine Ensures.bind (validateMemberDetails_keeps b hknown) fun _ w h => ?_
  exact ⟨(), _, conClose_run h.1, rfl, h.2.1⟩

/-- A bill with an unknown format stops the run at the policy summary. -/
theorem validateBill_error {b : BillData} (hknown : ¬ Known b.formatsRead) {w : World}
    (h : Closed w) : validateBill b w = .error .objectClosed := by
  obtain ⟨_, w₁, hview, hidle₁⟩ := viewBill_ensures b w h
  obtain ⟨_, w₂, hremit, hidle₂⟩ := validateRemittance_keeps b w₁ hidle₁
  unfold validateBill
  rw [bind_run hview, bind_run hremit]
  exact bind_error (validatePolicySummary_closed b hknown hidle₂) _

/-! ## A policy -/

/-- The run over the bills of a policy uses the connection and the recordset in a legal order,
and closes both after every bill, exactly when every bill has a known format. -/
theorem validatePolicy_legal_iff (bills : List BillData) (w : World) (hclosed : Closed w) :
    (∀ bs, bs <+: bills → ∃ w', validatePolicy bs w = .ok ((), w') ∧ Closed w') ↔
      ∀ b ∈ bills, Known b.formatsRead := by
  constructor
  · intro h
    induction bills generalizing w with
    | nil => exact fun b hb => absurd hb List.not_mem_nil
    | cons b bills ih =>
      have hknown : Known b.formatsRead := by
        by_contra hno
        obtain ⟨w', hrun, -⟩ := h [b] ⟨bills, rfl⟩
        have herr : validatePolicy [b] w = .error .objectClosed :=
          bind_error (validateBill_error hno hclosed) _
        rw [herr] at hrun
        cases hrun
      obtain ⟨_, w₁, hbill, hclosed₁⟩ := validateBill_ensures hknown w hclosed
      refine List.forall_mem_cons.mpr ⟨hknown, ih w₁ hclosed₁ fun bs hbs => ?_⟩
      obtain ⟨w', hrun, hw'⟩ := h (b :: bs) (List.cons_prefix_cons.mpr ⟨rfl, hbs⟩)
      exact ⟨w', (bind_run hbill _).symm.trans hrun, hw'⟩
  · intro hknown bs hbs
    have hkeeps : Keeps Closed (validatePolicy bs) := by
      apply Keeps.forM
      exact fun b hb => validateBill_ensures (hknown b (hbs.subset hb))
    obtain ⟨_, w', hrun, hw'⟩ := hkeeps w hclosed
    exact ⟨w', hrun, hw'⟩

/-- A bill whose queries return no row but the one with its formats. -/
def BillData.withFormats (dbillFrmtCd billFormat : Str) : BillData where
  abllKey := "1".toList
  bills := []
  formats := [Row.of [(.dbillFrmtCd, ⟨dbillFrmtCd, 0⟩), (.billFormat, ⟨billFormat, 0⟩)]]
  remittance := []
  summary := []
  onlineSummary := []
  adjustments := []
  members := []
  onlineMembers := []

/-- A bill of format E with a coverage, an adjustment and a member. -/
def BillData.online : BillData :=
  { BillData.withFormats ['E'] ['0', '1'] with
    bills := [typedRow 'B']
    remittance := [typedRow 'R']
    onlineSummary := [typedRow 'F', typedRow 'G']
    adjustments := [typedRow 'I', typedRow 'I']
    onlineMembers := [typedRow 'N', typedRow 'O', typedRow 'P'] }

/-- A bill of format 04 with a department and a member. -/
def BillData.departments : BillData :=
  { BillData.withFormats ['1'] ['0', '4'] with
    bills := [typedRow 'B']
    remittance := [typedRow 'R']
    summary := [typedRow 'D', typedRow 'F', typedRow 'F', typedRow 'G']
    adjustments := [typedRow 'I']
    members := [typedRow 'M', typedRow 'N', typedRow 'O', typedRow 'P'] }

/-- A bill of each of these formats. -/
theorem validatePolicy_legal_twoFormats :
    ∃ w', validatePolicy [.online, .departments] World.start = .ok ((), w') ∧ Closed w' :=
  (validatePolicy_legal_iff _ World.start ⟨rfl, rfl⟩).mpr (by decide) _ (List.prefix_refl _)

/-- A bill of format 1 stops at `rs.close`, with the connection still open. -/
theorem validatePolicy_format_one :
    validatePolicy [BillData.withFormats ['1'] ['0', '1']] World.start = .error .objectClosed :=
  bind_error (validateBill_error (by decide) ⟨rfl, rfl⟩) _

end OaBills
