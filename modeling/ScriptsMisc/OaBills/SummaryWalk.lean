import ScriptsMisc.OaBills.EndOfData

/-! # The walk over the policy summary and the end of the data

Under format 4 the summary is taken coverage by coverage. A row of type `E` before a coverage is
skipped, and a row of type `G` after it holds the totals of a department; to see whether there is
one the row after every coverage is read.
-/

namespace OaBills.Strict

open Routine

def summaryRound (page : Page) : Vb Unit := do
  let w ← get
  let r ← current
  if holds (eqNull (r.text .recordType) (some ['E'])) then moveNext
  let r ← current
  validateElements page (coverageChecks w r)
  moveNext
  let r ← current
  if holds (eqNull (r.text .recordType) (some ['G'])) then
    validateElements page (departmentChecks w r)
    moveNext

/-- `not (rs.EOF)`, which reads no row. -/
def notAtEnd : Vb Bool := lift (OaBills.rowHolds fun _ => some true)

def whileNotAtEnd (body : Vb Unit) : Vb Unit := do
  let c ← lift cursor
  loop (.ado .stuck) (fun _ => notAtEnd) (fun _ => body) (c.rest.length + 1) ()

def validatePolicySummary (page : Page) (b : BillData) : Vb Unit := do
  let w ← get
  if w.isE then polSummDefault page b
  else if w.isFour then
    lift (rsOpen b.summary)
    moveFirst
    whileNotAtEnd (summaryRound page)
  lift rsClose

/-! ## Where it returns -/

/-- Where a round returns here it does the same in `Validation`. -/
theorem summaryRound_refines : Refines (summaryRound .readable) OaBills.summaryRound := by
  refine Refines.get_bind fun w => Refines.bind current_refines fun r => ?_
  have hcoverage := Refines.bind current_refines fun r =>
    Refines.bind (validateElements_refines ((coverageChecks w r))) fun _ =>
      Refines.bind moveNext_refines fun _ => Refines.bind current_refines fun r =>
        Refines.ite (c := holds (eqNull (r.text .recordType) (some ['G'])) = true)
          (Refines.bind (validateElements_refines ((departmentChecks w r))) fun _ =>
            moveNext_refines)
          (Refines.pure ())
  split
  · exact Refines.bind moveNext_refines fun _ => hcoverage
  · exact hcoverage

/-- So does a loop up to the end of the data. -/
theorem whileNotAtEnd_refines {body : Vb Unit} {body' : OaBills.Vb Unit} (h : Refines body body') :
    Refines (whileNotAtEnd body) (OaBills.whileRow (fun _ => some true) () fun _ => body') :=
  Refines.bind (lift_refines cursor) fun _ =>
    Refines.loop (fun _ => lift_refines _) (fun _ => h) _ ()

/-- So does the summary. -/
theorem validatePolicySummary_refines (b : BillData) :
    Refines (validatePolicySummary .readable b) (OaBills.validatePolicySummary b) := by
  refine Refines.get_bind fun w => ?_
  split
  · exact Refines.bind (polSummDefault_refines b) fun _ => lift_refines rsClose
  · split
    · refine Refines.bind (lift_refines _) fun _ => Refines.bind moveFirst_refines fun _ => ?_
      exact Refines.bind (whileNotAtEnd_refines summaryRound_refines) fun _ => lift_refines rsClose
    · exact lift_refines rsClose

/-! ## Rows on which the walk ends -/

/-- A round: maybe a row before the coverage, the coverage, maybe the totals of its department. -/
structure Round where
  header : Option Row
  coverage : Row
  totals : Option Row

def Round.rows (x : Round) : List Row := x.header.toList ++ x.coverage :: x.totals.toList

/-- The round is read when these rows follow. -/
structure Round.Reads (x : Round) (rest : List Row) : Prop where
  header_type : ∀ r ∈ x.header, r.text .recordType = some ['E']
  coverage_type : x.header = none → x.coverage.text .recordType ≠ some ['E']
  totals_type : ∀ r ∈ x.totals, r.text .recordType = some ['G']
  next_type : x.totals = none → ∃ r rs, rest = r :: rs ∧ r.text .recordType ≠ some ['G']

/-- What a round reports. -/
def Round.checks (w : World) (x : Round) : List Check :=
  coverageChecks w x.coverage ++ x.totals.toList.flatMap (departmentChecks w)

/-- Rounds one after the other, up to the last row. -/
inductive SummaryEnds : List Row → List Round → Prop
  | stop : SummaryEnds [] []
  | round {x : Round} {rest : List Row} {rounds : List Round} : x.Reads rest →
      SummaryEnds rest rounds → SummaryEnds (x.rows ++ rest) (x :: rounds)

section Walk

variable (w : World) (rows : List Row) {rest : List Row} {log : List Check}

/-- A round after the row of type `E`. -/
def coverageRows (w : World) : Vb Unit := do
  let r ← current
  validateElements .readable (coverageChecks w r)
  moveNext
  let r ← current
  if holds (eqNull (r.text .recordType) (some ['G'])) then
    validateElements .readable (departmentChecks w r)
    moveNext

/-- What is left of a round after the coverage. -/
theorem coverageRows_cons (r : Row) (rest : List Row) :
    coverageRows w (w.reading rows (r :: rest) log) = (do
      let r ← current
      if holds (eqNull (r.text .recordType) (some ['G'])) then
        validateElements .readable (departmentChecks w r)
        moveNext : Vb Unit)
      (w.reading rows rest (log ++ (coverageChecks w r).map w.labelled)) := by
  unfold coverageRows
  rw [bind_run (current_cons r), bind_run (validateElements_log _)]
  exact bind_run (moveNext_cons r) _

/-- Totals behind a coverage are checked with it. -/
theorem coverageRows_totals (r : Row) {g : Row} (hg : g.text .recordType = some ['G'])
    (rest : List Row) :
    coverageRows w (w.reading rows (r :: g :: rest) log) =
      .ok ((), w.reading rows rest
        (log ++ (coverageChecks w r ++ departmentChecks w g).map w.labelled)) := by
  rw [coverageRows_cons, bind_run (current_cons g), hg]
  refine (bind_run (validateElements_log _) _).trans ?_
  rw [List.append_assoc, ← List.map_append]
  exact moveNext_cons g

/-- Any other row behind it is left for the next round. -/
theorem coverageRows_plain (r : Row) {g : Row} (hg : g.text .recordType ≠ some ['G'])
    (rest : List Row) :
    coverageRows w (w.reading rows (r :: g :: rest) log) =
      .ok ((), w.reading rows (g :: rest) (log ++ (coverageChecks w r).map w.labelled)) := by
  have hG : ¬ holds (eqNull (g.text .recordType) (some ['G'])) = true := by
    rw [holds_eqNull_iff]
    exact hg
  rw [coverageRows_cons, bind_run (current_cons g), if_neg hG]
  rfl

/-- A department header is passed over. -/
theorem summaryRound_header {r : Row} (hr : r.text .recordType = some ['E']) :
    summaryRound .readable (w.reading rows (r :: rest) log) =
      coverageRows w (w.reading rows rest log) := by
  have hE : holds (eqNull (r.text .recordType) (some ['E'])) = true :=
    (holds_eqNull_iff _ _).mpr hr
  unfold summaryRound
  rw [get_bind_run, bind_run (current_cons r), if_pos hE]
  exact bind_run (moveNext_cons r) _

/-- Without one the round starts at the coverage. -/
theorem summaryRound_plain {r : Row} (hr : r.text .recordType ≠ some ['E']) :
    summaryRound .readable (w.reading rows (r :: rest) log) =
      coverageRows w (w.reading rows (r :: rest) log) := by
  have hE : ¬ holds (eqNull (r.text .recordType) (some ['E'])) = true := by
    rw [holds_eqNull_iff]
    exact hr
  unfold summaryRound
  rw [get_bind_run, bind_run (current_cons r), if_neg hE]
  rfl

/-- A round is taken with its rows, or the rows are used up within it. -/
theorem coverageRows_outcome (header : Option Row)
    (hheader : ∀ r ∈ header, r.text .recordType = some ['E'])
    (hplain : header = none → ∀ r ∈ rest.head?, r.text .recordType ≠ some ['E']) :
    (∃ x rest', header.toList ++ rest = Round.rows x ++ rest' ∧ x.Reads rest' ∧
      coverageRows w (w.reading rows rest log) =
        .ok ((), w.reading rows rest' (log ++ (x.checks w).map w.labelled))) ∨
    coverageRows w (w.reading rows rest log) = .error .endOfData := by
  cases rest with
  | nil => exact .inr (bind_error current_nil _)
  | cons r rest =>
    have hcoverage : header = none → r.text .recordType ≠ some ['E'] := fun h => hplain h r rfl
    cases rest with
    | nil =>
      refine .inr ?_
      rw [coverageRows_cons]
      exact bind_error current_nil _
    | cons g rest =>
      by_cases hg : g.text .recordType = some ['G']
      · refine .inl ⟨⟨header, r, some g⟩, rest, by simp [Round.rows], ?_, ?_⟩
        · exact ⟨hheader, hcoverage, by simpa using hg, by simp⟩
        · rw [coverageRows_totals w rows r hg]
          simp [Round.checks]
      · refine .inl ⟨⟨header, r, none⟩, g :: rest, by simp [Round.rows], ?_, ?_⟩
        · exact ⟨hheader, hcoverage, by simp, fun _ => ⟨g, rest, rfl, hg⟩⟩
        · rw [coverageRows_plain w rows r hg]
          simp [Round.checks]

/-- A round takes its rows, or it reads past the data. -/
theorem summaryRound_outcome (r : Row) (rest : List Row) (log : List Check) :
    (∃ x rest', r :: rest = Round.rows x ++ rest' ∧ x.Reads rest' ∧
      summaryRound .readable (w.reading rows (r :: rest) log) =
        .ok ((), w.reading rows rest' (log ++ (x.checks w).map w.labelled))) ∨
    summaryRound .readable (w.reading rows (r :: rest) log) = .error .endOfData := by
  by_cases hr : r.text .recordType = some ['E']
  · rw [summaryRound_header w rows hr]
    exact coverageRows_outcome w rows (some r) (by simpa using hr) (by simp)
  · rw [summaryRound_plain w rows hr]
    exact coverageRows_outcome w rows none (by simp) (by simpa using hr)

/-- The rows decide how they are taken. -/
theorem summaryRound_reads {x : Round} (h : x.Reads rest) (log : List Check) :
    summaryRound .readable (w.reading rows (x.rows ++ rest) log) =
      .ok ((), w.reading rows rest (log ++ (x.checks w).map w.labelled)) := by
  obtain ⟨header, coverage, totals⟩ := x
  have hcoverage : coverageRows w (w.reading rows (coverage :: totals.toList ++ rest) log) =
      .ok ((), w.reading rows rest
        (log ++ (Round.checks w ⟨header, coverage, totals⟩).map w.labelled)) := by
    cases totals with
    | none =>
      obtain ⟨g, rs, rfl, hg⟩ := h.next_type rfl
      refine (coverageRows_plain w rows coverage hg rs).trans ?_
      simp [Round.checks]
    | some g =>
      refine (coverageRows_totals w rows coverage (h.totals_type g rfl) rest).trans ?_
      simp [Round.checks]
  cases header with
  | none => exact (summaryRound_plain w rows (h.coverage_type rfl)).trans hcoverage
  | some r => exact (summaryRound_header w rows (h.header_type r rfl)).trans hcoverage

/-! ## The walk -/

theorem Round.exists_cons (x : Round) (rest : List Row) :
    ∃ r rs, x.rows ++ rest = r :: rs ∧ rest.length ≤ rs.length := by
  obtain ⟨header, coverage, totals⟩ := x
  cases header with
  | none => exact ⟨coverage, totals.toList ++ rest, rfl, by simp⟩
  | some r => exact ⟨r, coverage :: totals.toList ++ rest, rfl, by simp; omega⟩

/-- The loop with this many rounds at most. -/
def walkRounds (fuel : ℕ) : Vb Unit :=
  loop (.ado .stuck) (fun _ => notAtEnd) (fun _ => summaryRound .readable) fuel ()

theorem walkRounds_nil (fuel : ℕ) :
    walkRounds (fuel + 1) (w.reading rows [] log) = .ok ((), w.reading rows [] log) :=
  loop_of_false rfl fuel

theorem walkRounds_cons {r : Row} {w' : World}
    (h : summaryRound .readable (w.reading rows (r :: rest) log) = .ok ((), w')) (fuel : ℕ) :
    walkRounds (fuel + 1) (w.reading rows (r :: rest) log) = walkRounds fuel w' :=
  loop_of_true rfl h fuel

/-- A round that reads past the data ends the walk. -/
theorem walkRounds_endOfData {r : Row}
    (h : summaryRound .readable (w.reading rows (r :: rest) log) = .error .endOfData) (fuel : ℕ) :
    walkRounds (fuel + 1) (w.reading rows (r :: rest) log) = .error .endOfData := by
  rw [walkRounds, loop]
  exact (bind_run rfl _).trans (bind_error h _)

/-- Rows that are rounds are checked round by round. -/
theorem walkRounds_returns {rounds : List Round} (h : SummaryEnds rest rounds) {fuel : ℕ}
    (hfuel : rest.length < fuel) (log : List Check) :
    walkRounds fuel (w.reading rows rest log) =
      .ok ((), w.reading rows [] (log ++ (rounds.flatMap (Round.checks w)).map w.labelled)) := by
  induction h generalizing fuel log with
  | stop =>
    obtain ⟨fuel, rfl⟩ : ∃ k, fuel = k + 1 := ⟨fuel - 1, by omega⟩
    rw [walkRounds_nil, List.flatMap_nil, List.map_nil, List.append_nil]
  | @round x rest rounds hx _ ih =>
    obtain ⟨r, rs, hrows, hlength⟩ := x.exists_cons rest
    obtain ⟨fuel, rfl⟩ : ∃ k, fuel = k + 1 := ⟨fuel - 1, by omega⟩
    have hround := summaryRound_reads w rows hx log
    rw [hrows] at hfuel hround ⊢
    rw [List.length_cons] at hfuel
    have hfuel' : rest.length < fuel := by omega
    rw [walkRounds_cons w rows hround, ih hfuel', List.flatMap_cons, List.map_append,
      List.append_assoc]

/-- Rows are rounds, or they are read past the data. -/
theorem walkRounds_outcome (rest : List Row) {fuel : ℕ} (hfuel : rest.length < fuel)
    (log : List Check) :
    (∃ rounds, SummaryEnds rest rounds) ∨
      walkRounds fuel (w.reading rows rest log) = .error .endOfData := by
  induction fuel generalizing rest log with
  | zero => omega
  | succ fuel ih =>
    cases rest with
    | nil => exact .inl ⟨[], .stop⟩
    | cons r rs =>
      rcases summaryRound_outcome w rows r rs log with
        ⟨x, rest', hrows, hx, hround⟩ | herror
      · obtain ⟨r', rs', hcons, hlength⟩ := x.exists_cons rest'
        have hfuel' : rest'.length < fuel := by
          rw [hrows, hcons, List.length_cons] at hfuel
          omega
        rcases ih rest' hfuel' (log ++ (x.checks w).map w.labelled) with ⟨rounds, hends⟩ | herror
        · rw [hrows]
          exact .inl ⟨x :: rounds, .round hx hends⟩
        · exact .inr ((walkRounds_cons w rows hround fuel).trans herror)
      · exact .inr (walkRounds_endOfData w rows herror fuel)

end Walk

/-! ## Departments -/

/-- The rows of a department: maybe a row of type `E`, coverages, the totals. -/
structure Department where
  header : Option Row
  coverages : List Row
  totals : Row
  header_type : ∀ r ∈ header, r.text .recordType = some ['E']
  coverages_ne_nil : coverages ≠ []
  coverages_type : ∀ r ∈ coverages,
    r.text .recordType ≠ some ['E'] ∧ r.text .recordType ≠ some ['G']
  totals_type : totals.text .recordType = some ['G']

def Department.rows (d : Department) : List Row := d.header.toList ++ (d.coverages ++ [d.totals])

/-- Every coverage is checked, and then the totals. -/
def Department.checks (w : World) (d : Department) : List Check :=
  d.coverages.flatMap (coverageChecks w) ++ departmentChecks w d.totals

/-- The rounds of a department: one for each coverage, the last one with the totals. -/
theorem exists_rounds_cons (w : World) {header : Option Row} {coverages : List Row} {totals : Row}
    (hheader : ∀ r ∈ header, r.text .recordType = some ['E']) (hne : coverages ≠ [])
    (htypes : ∀ r ∈ coverages,
      r.text .recordType ≠ some ['E'] ∧ r.text .recordType ≠ some ['G'])
    (htotals : totals.text .recordType = some ['G']) {rest : List Row} {rounds : List Round}
    (hrest : SummaryEnds rest rounds) :
    ∃ rounds', SummaryEnds (header.toList ++ (coverages ++ totals :: rest)) rounds' ∧
      rounds'.flatMap (Round.checks w) =
        coverages.flatMap (coverageChecks w) ++ departmentChecks w totals ++
          rounds.flatMap (Round.checks w) := by
  induction coverages generalizing header with
  | nil => exact absurd rfl hne
  | cons r coverages ih =>
    obtain ⟨hr, hcoverages⟩ := List.forall_mem_cons.mp htypes
    cases coverages with
    | nil =>
      have hreads : Round.Reads ⟨header, r, some totals⟩ rest :=
        ⟨hheader, fun _ => hr.1, by simpa using htotals, by simp⟩
      refine ⟨⟨header, r, some totals⟩ :: rounds, ?_, by simp [Round.checks]⟩
      have hends := SummaryEnds.round hreads hrest
      simpa [Round.rows] using hends
    | cons g coverages =>
      have hnone : ∀ r ∈ (none : Option Row), r.text .recordType = some ['E'] := by simp
      obtain ⟨rounds', hends, hchecks⟩ := ih hnone (List.cons_ne_nil g coverages) hcoverages
      have hreads : Round.Reads ⟨header, r, none⟩ (g :: coverages ++ totals :: rest) :=
        ⟨hheader, fun _ => hr.1, by simp, fun _ =>
          ⟨g, _, rfl, (hcoverages g List.mem_cons_self).2⟩⟩
      refine ⟨⟨header, r, none⟩ :: rounds', ?_, ?_⟩
      · have hends' := SummaryEnds.round hreads hends
        simpa [Round.rows] using hends'
      · rw [List.flatMap_cons, hchecks]
        simp [Round.checks]

/-- The rows of departments are rounds, with their checks. -/
theorem exists_rounds (w : World) (ds : List Department) :
    ∃ rounds, SummaryEnds (ds.flatMap Department.rows) rounds ∧
      rounds.flatMap (Round.checks w) = ds.flatMap (Department.checks w) := by
  induction ds with
  | nil => exact ⟨[], .stop, rfl⟩
  | cons d ds ih =>
    obtain ⟨rounds, hends, hchecks⟩ := ih
    obtain ⟨rounds', hends', hchecks'⟩ := exists_rounds_cons w d.header_type d.coverages_ne_nil
      d.coverages_type d.totals_type hends
    refine ⟨rounds', ?_, ?_⟩
    · simpa [Department.rows] using hends'
    · rw [hchecks', hchecks, List.flatMap_cons]
      rfl

/-! ## The routine -/

/-- The summary of format 4 is a walk over its rounds. -/
theorem validatePolicySummary_eq (b : BillData) {w : World} (hclosed : w.rs = none)
    (hE : ¬ w.isE = true) (hfour : w.isFour = true) {r : Row} {rs : List Row}
    (hrows : b.summary = r :: rs) :
    validatePolicySummary .readable b w = (do
      walkRounds ((r :: rs).length + 1)
      lift rsClose : Vb Unit) (w.reading (r :: rs) (r :: rs) w.log) := by
  unfold validatePolicySummary
  rw [get_bind_run, if_neg hE, if_pos hfour, bind_run (lift_run (rsOpen_run hclosed b.summary)),
    hrows]
  exact bind_run (moveFirst_cons r) _

/-- Rounds up to the last row are checked, each one once and in order. -/
theorem validatePolicySummary_rounds (b : BillData) {w : World} (hclosed : w.rs = none)
    (hE : ¬ w.isE = true) (hfour : w.isFour = true) {rounds : List Round} (hne : b.summary ≠ [])
    (hends : SummaryEnds b.summary rounds) :
    validatePolicySummary .readable b w =
      .ok ((), { w with log := w.log ++ (rounds.flatMap (Round.checks w)).map w.labelled }) := by
  obtain ⟨r, rs, hrows⟩ := List.exists_cons_of_ne_nil hne
  rw [hrows] at hends
  rw [validatePolicySummary_eq b hclosed hE hfour hrows,
    bind_run (walkRounds_returns w _ hends (Nat.lt_succ_self _) w.log)]
  refine (lift_run (rsClose_run (c := ⟨r :: rs, []⟩) rfl)).trans ?_
  rw [World.reading, ← hclosed]

/-- Other rows are too few. -/
theorem validatePolicySummary_outcome (b : BillData) {w : World} (hclosed : w.rs = none)
    (hE : ¬ w.isE = true) (hfour : w.isFour = true) :
    (∃ rounds, b.summary ≠ [] ∧ SummaryEnds b.summary rounds) ∨
      validatePolicySummary .readable b w = .error .endOfData := by
  cases hrows : b.summary with
  | nil =>
    refine .inr ?_
    unfold validatePolicySummary
    rw [get_bind_run, if_neg hE, if_pos hfour,
      bind_run (lift_run (rsOpen_run hclosed b.summary)), hrows]
    rfl
  | cons r rs =>
    rcases walkRounds_outcome w (r :: rs) (r :: rs) (Nat.lt_succ_self _) w.log with
      ⟨rounds, hends⟩ | hwalk
    · exact .inl ⟨rounds, List.cons_ne_nil r rs, hends⟩
    · refine .inr ?_
      rw [validatePolicySummary_eq b hclosed hE hfour hrows]
      exact bind_error hwalk _

/-- Under format 4 the policy summary is validated exactly when its rows are rounds up to the last
one, and then every round is checked once, in order; otherwise the run stops past the last row.
Departments are such rounds: each of their coverages and totals is checked once. -/
theorem validatePolicySummary_four (b : BillData) {w : World} (hclosed : w.rs = none)
    (hE : ¬ w.isE = true) (hfour : w.isFour = true) :
    (∀ w', validatePolicySummary .readable b w = .ok ((), w') ↔
      b.summary ≠ [] ∧ ∃ rounds, SummaryEnds b.summary rounds ∧
        w' = { w with log := w.log ++ (rounds.flatMap (Round.checks w)).map w.labelled }) ∧
    (∀ e, validatePolicySummary .readable b w = .error e → e = .endOfData) ∧
    ∀ ds : List Department, ds ≠ [] → b.summary = ds.flatMap Department.rows →
      validatePolicySummary .readable b w =
        .ok ((), { w with log := w.log ++ (ds.flatMap (Department.checks w)).map w.labelled }) := by
  refine ⟨fun w' => ⟨fun h => ?_, ?_⟩, fun e h => ?_, fun ds hds hrows => ?_⟩
  · rcases validatePolicySummary_outcome b hclosed hE hfour with ⟨rounds, hne, hends⟩ | herror
    · rw [validatePolicySummary_rounds b hclosed hE hfour hne hends] at h
      exact ⟨hne, rounds, hends, (congrArg Prod.snd (Except.ok.inj h)).symm⟩
    · rw [herror] at h
      cases h
  · rintro ⟨hne, rounds, hends, rfl⟩
    exact validatePolicySummary_rounds b hclosed hE hfour hne hends
  · rcases validatePolicySummary_outcome b hclosed hE hfour with ⟨rounds, hne, hends⟩ | herror
    · rw [validatePolicySummary_rounds b hclosed hE hfour hne hends] at h
      cases h
    · exact (Except.error.inj (herror.symm.trans h)).symm
  · obtain ⟨rounds, hends, hchecks⟩ := exists_rounds w ds
    have hne : b.summary ≠ [] := by
      obtain ⟨d, ds, rfl⟩ := List.exists_cons_of_ne_nil hds
      rw [hrows]
      simp [Department.rows]
    rw [← hrows] at hends
    rw [validatePolicySummary_rounds b hclosed hE hfour hne hends, hchecks]

/-- A department with one coverage. -/
def oneCoverage : Department where
  header := none
  coverages := [typedRow 'F']
  totals := Row.of [(.recordType, ⟨['G'], 0⟩), (.groupTitle, ⟨['A'], 0⟩)]
  header_type _ hr := absurd hr (Option.not_mem_none _)
  coverages_ne_nil := by decide
  coverages_type r hr := by
    obtain rfl := List.mem_singleton.mp hr
    decide
  totals_type := by decide

/-- Its four checks and the three of its totals; without the totals the run stops. -/
theorem validatePolicySummary_four_oneCoverage :
    let w : World := { World.start with billFormat := some ['0', '4'] }
    let b : BillData := ⟨[], [], [], [], oneCoverage.rows, [], [], [], []⟩
    validatePolicySummary .readable b w =
      .ok ((), { w with log := (oneCoverage.checks w).map w.labelled }) ∧
    (oneCoverage.checks w).length = 7 ∧
    validatePolicySummary .readable { b with summary := oneCoverage.coverages } w =
      .error .endOfData := by
  intro w b
  refine ⟨?_, by decide +kernel, rfl⟩
  obtain ⟨-, -, hds⟩ :=
    validatePolicySummary_four b (w := w) rfl (by decide) (by decide)
  exact (hds [oneCoverage] (by simp) (by simp [b])).trans (by simp [w, World.start])

end OaBills.Strict
