import ScriptsMisc.Lib.Guards
import ScriptsMisc.OaBills.SummaryWalk

/-! # Texts that are not converted

A check that cannot convert what the page shows stops the run. A routine returns on a page exactly
when it returns on `Page.readable` and the page is read by every check that this run has logged.
-/

namespace OaBills.Strict

open Routine

/-! ## The guards of a page -/

/-- Every entry of the log from the `n`-th on stands for a check that reads the page. -/
def Page.ReadsFrom (page : Page) (n : ℕ) (log : List Check) : Prop :=
  ∀ i c, n ≤ i → log[i]? = some c → page.reads i c = true

/-- The checks read the page when `n` others have been made. -/
def Page.ReadBy (page : Page) (n : ℕ) (cs : List Check) : Prop :=
  ∀ i c, cs[i]? = some c → page.reads (n + i) c = true

/-- Only the checks that are added have to read the page. -/
theorem readsFrom_append_iff (page : Page) (log cs : List Check) :
    page.ReadsFrom log.length (log ++ cs) ↔ page.ReadBy log.length cs := by
  constructor
  · intro h i c hc
    refine h (log.length + i) c (Nat.le_add_right _ _) ?_
    rw [List.getElem?_append_right (Nat.le_add_right _ _), Nat.add_sub_cancel_left, hc]
  · intro h i c hi hc
    rw [List.getElem?_append_right hi] at hc
    have hreads := h (i - log.length) c hc
    rwa [Nat.add_sub_cancel' hi] at hreads

/-- Every check reads a readable page. -/
theorem readsFrom_readable (n : ℕ) (log : List Check) : Page.readable.ReadsFrom n log :=
  fun i c _ _ => readable_reads i c

/-- The log grows, and the checks that are added read the page. -/
def Page.guards (page : Page) : Guards World where
  Along w w' := w.log <+: w'.log
  Pass w w' := page.ReadsFrom w.log.length w'.log
  along_refl w := List.prefix_rfl
  along_trans := List.IsPrefix.trans
  pass_refl w i c hi hc := by
    rw [List.getElem?_eq_none hi] at hc
    cases hc
  pass_iff := by
    rintro w w₁ w₂ h₁ h₂
    obtain ⟨cs, hcs⟩ := h₂
    have hbefore : ∀ i, i < w₁.log.length → w₂.log[i]? = w₁.log[i]? := fun i hi => by
      rw [← hcs, List.getElem?_append_left hi]
    constructor
    · intro h
      refine ⟨fun i c hi hc => h i c hi ?_, fun i c hi hc => h i c (h₁.length_le.trans hi) hc⟩
      rw [hbefore i (List.getElem?_eq_some_iff.mp hc).1, hc]
    · rintro ⟨hfirst, hsecond⟩ i c hi hc
      rcases Nat.lt_or_ge i w₁.log.length with hlt | hge
      · exact hfirst i c hi (by rw [← hbefore i hlt, hc])
      · exact hsecond i c hge hc

/-- What is added to the log reads the page. -/
theorem pass_of_log {page : Page} {w w' : World} {cs : List Check}
    (hlog : w'.log = w.log ++ cs.map w.labelled) :
    page.guards.Pass w w' ↔ page.ReadBy w.log.length cs := by
  show page.ReadsFrom w.log.length w'.log ↔ _
  rw [hlog, readsFrom_append_iff]
  constructor
  · intro h i c hc
    exact h i (w.labelled c) (by rw [List.getElem?_map, hc]; rfl)
  · intro h i c hc
    rw [List.getElem?_map] at hc
    obtain ⟨d, hd, rfl⟩ := Option.map_eq_some_iff.mp hc
    exact h i d hd

/-! ## Routines without checks -/

/-- A routine that logs nothing. -/
def Silent {ε α : Type} (m : StateT World (Except ε) α) : Prop :=
  ∀ w r, m w = .ok r → r.2.log = w.log

/-- What logs nothing there logs nothing here. -/
theorem Silent.of_refines {ε α : Type} {m : Vb α} {n : StateT World (Except ε) α}
    (h : Refines m n) (hn : Silent n) : Silent m := fun w r hrun => hn w r (h w r hrun)

/-- Returning logs nothing. -/
theorem silent_pure {ε α : Type} (a : α) : Silent (pure a : StateT World (Except ε) α) := by
  intro w r hrun
  cases hrun
  rfl

/-- Nor does asking for the recordset. -/
theorem silent_cursor : Silent cursor := by
  intro w r hrun
  cases hrs : w.rs with
  | none =>
    rw [cursor_closed hrs] at hrun
    cases hrun
  | some c =>
    rw [cursor_run hrs] at hrun
    cases hrun
    rfl

/-- What asks for the open recordset first logs no more than what it does then. -/
theorem silent_cursor_bind {α : Type} {f : Cursor → OaBills.Vb α} (hf : ∀ c, Silent (f c)) :
    Silent (cursor >>= f) := by
  intro w r hrun
  obtain ⟨c, w', hc, hrest⟩ := bind_eq_ok_iff.mp hrun
  exact (hf c w' r hrest).trans (silent_cursor w _ hc)

/-- An update that leaves the log alone logs nothing. -/
theorem silent_modify {ε : Type} {g : World → World} (hg : ∀ w, (g w).log = w.log) :
    Silent (modify g : StateT World (Except ε) PUnit) := by
  intro w r hrun
  cases hrun
  exact hg w

theorem silent_rowHolds (cond : Row → Option Bool) : Silent (OaBills.rowHolds cond) := by
  refine silent_cursor_bind fun c => ?_
  cases c.rest with
  | nil => exact silent_pure _
  | cons r rs => exact silent_pure _

theorem silent_current : Silent OaBills.current := silent_cursor_bind fun _ => silent_pure _

theorem silent_moveNext : Silent OaBills.moveNext :=
  silent_cursor_bind fun _ => silent_modify fun _ => rfl

theorem silent_moveFirst : Silent OaBills.moveFirst :=
  silent_cursor_bind fun _ => silent_modify fun _ => rfl

theorem silent_rsClose : Silent rsClose := silent_cursor_bind fun _ => silent_modify fun _ => rfl

theorem silent_rsOpen (rows : List Row) : Silent (rsOpen rows) := by
  intro w r hrun
  cases hrs : w.rs with
  | none =>
    rw [rsOpen_run hrs] at hrun
    cases hrun
    rfl
  | some c =>
    rw [rsOpen, get_bind_run, hrs] at hrun
    cases hrun

theorem silent_conOpen : Silent conOpen := by
  intro w r hrun
  cases hcon : w.con with
  | false =>
    rw [conOpen_run hcon] at hrun
    cases hrun
    rfl
  | true =>
    rw [conOpen, get_bind_run, hcon] at hrun
    cases hrun

theorem silent_conClose : Silent conClose := by
  intro w r hrun
  cases hcon : w.con with
  | true =>
    rw [conClose_run hcon] at hrun
    cases hrun
    rfl
  | false =>
    rw [conClose, get_bind_run, hcon] at hrun
    cases hrun

variable {page : Page}

/-- A routine that logs nothing reads nothing off the page. -/
theorem Silent.guarded {α : Type} {m : Vb α} (h : Silent m) : Guarded page.guards m m := by
  refine Guarded.same fun w r hrun => ?_
  show w.log <+: r.2.log ∧ page.ReadsFrom w.log.length r.2.log
  rw [h w r hrun]
  exact ⟨page.guards.along_refl w, page.guards.pass_refl w⟩

/-- What logs nothing is the same on every page. -/
theorem lift_guarded {α : Type} {m : OaBills.Vb α} (h : Silent m) :
    Guarded page.guards (lift m) (lift m) := (Silent.of_refines (lift_refines m) h).guarded

/-- Reading a row is the same on every page. -/
theorem current_guarded : Guarded page.guards current current :=
  (Silent.of_refines current_refines silent_current).guarded

theorem moveNext_guarded : Guarded page.guards moveNext moveNext :=
  (Silent.of_refines moveNext_refines silent_moveNext).guarded

theorem moveFirst_guarded : Guarded page.guards moveFirst moveFirst :=
  (Silent.of_refines moveFirst_refines silent_moveFirst).guarded

/-- Adding a row is the same on every page. -/
theorem addRow_guarded (x : Rollup) (r : Row) : Guarded page.guards (addRow x r) (addRow x r) :=
  (Silent.of_refines (addRow_refines x r) (silent_pure _)).guarded

/-! ## Checks -/

/-- A check goes on when it reads the page. -/
theorem validateElement_guarded (page : Page) (c : Check) :
    Guarded page.guards (validateElement page c) (validateElement .readable c) := by
  have hreadable : ∀ w, validateElement .readable c w =
      .ok ((), { w with log := w.log ++ [c].map w.labelled }) := fun w => by
    rw [validateElement, get_bind_run, if_pos (readable_reads _ c)]
    rfl
  have hpass : ∀ w : World,
      page.guards.Pass w { w with log := w.log ++ [c].map w.labelled } ↔
        page.reads w.log.length c = true := fun w => by
    rw [pass_of_log rfl]
    constructor
    · exact fun h => h 0 c rfl
    · intro h i d hd
      obtain ⟨rfl, rfl⟩ : i = 0 ∧ c = d := by
        cases i with
        | zero => exact ⟨rfl, Option.some.inj hd⟩
        | succ i => simp at hd
      exact h
  refine ⟨fun w r hrun => ?_, fun w r => ?_⟩
  · rw [hreadable] at hrun
    cases hrun
    exact List.prefix_append _ _
  · rw [hreadable, validateElement, get_bind_run]
    by_cases hreads : page.reads w.log.length c = true
    · have hrun : lift (OaBills.validateElement c) w =
          .ok ((), { w with log := w.log ++ [c].map w.labelled }) := rfl
      rw [if_pos hreads, hrun]
      refine ⟨fun h => ⟨h, ?_⟩, fun h => h.1⟩
      cases h
      exact (hpass w).mpr hreads
    · rw [if_neg hreads]
      constructor
      · intro h
        cases h
      · rintro ⟨h, hp⟩
        cases h
        exact absurd ((hpass w).mp hp) hreads

/-- Checks go on as long as they do. -/
theorem validateElements_guarded (cs : List Check) :
    Guarded page.guards (validateElements page cs) (validateElements .readable cs) :=
  Guarded.forM (fun c => validateElement_guarded page c) cs

/-! ## The routines -/

/-- A loop goes on as long as its rounds do. -/
theorem whileRow_guarded {τ : Type} (cond : Row → Option Bool) (x : τ) {body body' : τ → Vb τ}
    (h : ∀ x, Guarded page.guards (body x) (body' x)) :
    Guarded page.guards (whileRow cond x body) (whileRow cond x body') :=
  Guarded.bind (lift_guarded silent_cursor) fun _ =>
    Guarded.loop (fun _ => (Silent.of_refines (rowHolds_refines cond)
      (silent_rowHolds cond)).guarded) h _ x

/-- So does one up to the end of the data. -/
theorem whileNotAtEnd_guarded {body body' : Vb Unit} (h : Guarded page.guards body body') :
    Guarded page.guards (whileNotAtEnd body) (whileNotAtEnd body') :=
  Guarded.bind (lift_guarded silent_cursor) fun _ =>
    Guarded.loop (fun _ => lift_guarded (silent_rowHolds _)) (fun _ => h) _ ()

/-- The routines go on as long as their checks read the page. -/
theorem validateMemberDetailBenefits_guarded : Guarded page.guards
    (validateMemberDetailBenefits page) (validateMemberDetailBenefits .readable) :=
  whileRow_guarded _ () fun _ => Guarded.get_bind fun _ => Guarded.bind current_guarded fun _ =>
    Guarded.bind (validateElements_guarded _) fun _ => moveNext_guarded

theorem validateMemberDetailTotals_guarded : Guarded page.guards
    (validateMemberDetailTotals page) (validateMemberDetailTotals .readable) :=
  Guarded.get_bind fun _ => Guarded.bind current_guarded fun _ => validateElements_guarded _

theorem memberRound_guarded :
    Guarded page.guards (memberRound page) (memberRound .readable) := by
  refine Guarded.bind current_guarded fun r => ?_
  have hround := Guarded.bind (G := page.guards) current_guarded fun r =>
    Guarded.bind (validateElements_guarded [nameCheck r]) fun _ =>
      Guarded.bind validateMemberDetailBenefits_guarded fun _ =>
        Guarded.bind validateMemberDetailTotals_guarded fun _ => moveNext_guarded
  exact Guarded.ite (Guarded.bind moveNext_guarded fun _ => hround) hround

theorem memberDetailLoops_guarded :
    Guarded page.guards (memberDetailLoops page) (memberDetailLoops .readable) :=
  Guarded.bind (whileRow_guarded _ () fun _ => moveNext_guarded) fun _ =>
    whileRow_guarded _ () fun _ => memberRound_guarded

theorem memberDetailSummarized_guarded :
    Guarded page.guards (memberDetailSummarized page) (memberDetailSummarized .readable) := by
  refine Guarded.bind moveFirst_guarded fun _ =>
    Guarded.bind (whileRow_guarded _ _ fun x => ?_) fun _ => Guarded.pure ()
  exact Guarded.bind current_guarded fun _ => Guarded.bind (validateElements_guarded _) fun _ =>
    Guarded.bind moveNext_guarded fun _ => Guarded.pure _

/-- Both views of the members do. -/
theorem validateMemberDetails_guarded (b : BillData) :
    Guarded page.guards (validateMemberDetails page b) (validateMemberDetails .readable b) := by
  refine Guarded.get_bind fun w => ?_
  have hclose : Guarded page.guards (lift rsClose) (lift rsClose) := lift_guarded silent_rsClose
  have hloops := Guarded.bind (G := page.guards) memberDetailLoops_guarded fun _ =>
    Guarded.ite (c := w.isE = true)
      (Guarded.bind memberDetailSummarized_guarded fun _ => hclose) hclose
  exact Guarded.ite (Guarded.bind (lift_guarded (silent_rsOpen _)) fun _ => hloops)
    (Guarded.ite (Guarded.bind (lift_guarded (silent_rsOpen _)) fun _ => hloops) hloops)

/-- A row of the summary does. -/
theorem summaryRow_guarded (x : Rollup) :
    Guarded page.guards (summaryRow page x) (summaryRow .readable x) :=
  Guarded.bind moveNext_guarded fun _ => Guarded.bind current_guarded fun r =>
    Guarded.ite (addRow_guarded x r)
      (Guarded.bind (validateElements_guarded _) fun _ => Guarded.pure _)

theorem polSummSummarized_guarded :
    Guarded page.guards (polSummSummarized page) (polSummSummarized .readable) :=
  Guarded.bind moveFirst_guarded fun _ => Guarded.bind moveNext_guarded fun _ =>
    Guarded.bind current_guarded fun _ => Guarded.bind moveFirst_guarded fun _ =>
      Guarded.bind (whileRow_guarded _ _ summaryRow_guarded) fun _ => Guarded.pure ()

/-- The summary of format E does. -/
theorem polSummDefault_guarded (b : BillData) :
    Guarded page.guards (polSummDefault page b) (polSummDefault .readable b) := by
  refine Guarded.bind (lift_guarded (silent_rsOpen _)) fun _ => ?_
  refine Guarded.bind moveNext_guarded fun _ => Guarded.bind (whileRow_guarded _ () fun _ => ?_)
    fun _ => polSummSummarized_guarded
  exact Guarded.bind current_guarded fun _ =>
    Guarded.bind (validateElements_guarded _) fun _ => moveNext_guarded

theorem summaryRound_guarded :
    Guarded page.guards (summaryRound page) (summaryRound .readable) := by
  refine Guarded.get_bind fun w => Guarded.bind current_guarded fun r => ?_
  have hcoverage := Guarded.bind (G := page.guards) current_guarded fun r =>
    Guarded.bind (validateElements_guarded (coverageChecks w r)) fun _ =>
      Guarded.bind moveNext_guarded fun _ => Guarded.bind current_guarded fun r =>
        Guarded.ite (c := holds (eqNull (r.text .recordType) (some ['G'])) = true)
          (Guarded.bind (validateElements_guarded (departmentChecks w r)) fun _ =>
            moveNext_guarded)
          (Guarded.pure ())
  exact Guarded.ite (Guarded.bind moveNext_guarded fun _ => hcoverage) hcoverage

/-- The summary of any format does. -/
theorem validatePolicySummary_guarded (b : BillData) :
    Guarded page.guards (validatePolicySummary page b) (validatePolicySummary .readable b) := by
  refine Guarded.get_bind fun w => ?_
  have hclose : Guarded page.guards (lift rsClose) (lift rsClose) := lift_guarded silent_rsClose
  refine Guarded.ite (Guarded.bind (polSummDefault_guarded b) fun _ => hclose)
    (Guarded.ite ?_ hclose)
  exact Guarded.bind (lift_guarded (silent_rsOpen _)) fun _ =>
    Guarded.bind moveFirst_guarded fun _ =>
      Guarded.bind (whileNotAtEnd_guarded summaryRound_guarded) fun _ => hclose

end OaBills.Strict
