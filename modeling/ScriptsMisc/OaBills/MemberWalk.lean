import ScriptsMisc.OaBills.EndOfData

/-! # The walk over the members and the end of the data

`validateMemberDetails` skips to the first benefit and then takes the rows member by member. None
of its loops can be left past the last row: their conditions read the row they stand on.
-/

namespace OaBills.Strict

open Routine

/-! ## Rows on which the walk ends -/

/-- The row is the last one of a member. -/
def ClosesMember (r : Row) : Prop := r.text .recordType = none ∨ r.text .recordType = some ['O']

/-- The walk ends where this row would begin a member. -/
def EndsWalk (r : Row) : Prop := r.text .recordType = none ∨ r.text .recordType = some ['P']

instance (r : Row) : Decidable (ClosesMember r) := by
  unfold ClosesMember
  infer_instance

instance (r : Row) : Decidable (EndsWalk r) := by
  unfold EndsWalk
  infer_instance

/-- The rows of one member: maybe a row of type `M`, benefits, the row that closes them. -/
structure IsMember (memberRow : Option Row) (benefits : List Row) (close : Row) : Prop where
  memberRow_type : ∀ r ∈ memberRow, r.text .recordType = some ['M']
  begins : memberRow = none → ∀ r ∈ (benefits ++ [close]).head?,
    r.text .recordType ≠ some ['M'] ∧ ¬ EndsWalk r
  benefits_open : ∀ r ∈ benefits, ¬ ClosesMember r
  close_closes : ClosesMember close

/-- Members one after the other, up to a row that ends the walk. -/
inductive WalkEnds : List Row → Prop
  | stop {r : Row} {rest : List Row} : EndsWalk r → WalkEnds (r :: rest)
  | member {memberRow : Option Row} {benefits : List Row} {close : Row} {rest : List Row} :
      IsMember memberRow benefits close → WalkEnds rest →
      WalkEnds (memberRow.toList ++ (benefits ++ close :: rest))

/-- There is a first row of type `N` or without a type, and from it on the walk ends. -/
def MembersEnd (rows : List Row) : Prop :=
  ∃ pre r rest, rows = pre ++ r :: rest ∧
    (∀ r ∈ pre, ¬ (r.text .recordType = none ∨ r.text .recordType = some ['N'])) ∧
    (r.text .recordType = none ∨ r.text .recordType = some ['N']) ∧ WalkEnds (r :: rest)

/-! ## Benefits -/

/-- A loop goes on where the row has another type. -/
theorem holds_or_iff (r : Row) (t : Str) :
    holds (notNull (orNull (some false) (eqNull (r.text .recordType) (some t)))) = true ↔
      ¬ (r.text .recordType = none ∨ r.text .recordType = some t) := by
  rw [orNull_false, holds_notNull_eqNull_iff, not_or, Option.isSome_iff_ne_none]

section Walk

variable (w : World) (rows : List Row) {rest : List Row} {log : List Check}

/-- A round checks a benefit. -/
theorem benefits_round (r : Row) (rest : List Row) (log : List Check) :
    (do
      let w ← get
      let r ← current
      validateElements .readable (benefitChecks w r)
      moveNext : Vb Unit) (w.reading rows (r :: rest) log) =
      .ok ((), w.reading rows rest (log ++ (benefitChecks w r).map w.labelled)) := by
  rw [get_bind_run, bind_run (current_cons r), bind_run (validateElements_log _)]
  exact moveNext_cons r

/-- The benefits are checked up to the row that closes the member. -/
theorem validateMemberDetailBenefits_closed {benefits : List Row} {close : Row}
    (hopen : ∀ r ∈ benefits, ¬ ClosesMember r) (hclose : ClosesMember close) (rest : List Row)
    (log : List Check) :
    ∃ log', validateMemberDetailBenefits .readable
      (w.reading rows (benefits ++ close :: rest) log) =
      .ok ((), w.reading rows (close :: rest) log') := by
  refine ⟨_, whileRow_scan (fun _ _ => ()) (fun _ => benefitChecks w)
    (fun _ => benefits_round w rows) () benefits
    (fun r hr => (holds_or_iff r _).mpr (hopen r hr)) ?_ log⟩
  rw [Bool.eq_false_iff, Ne, holds_or_iff, not_not]
  exact hclose

/-- Without such a row they are read past the data. -/
theorem validateMemberDetailBenefits_endOfData {benefits : List Row}
    (hopen : ∀ r ∈ benefits, ¬ ClosesMember r) (log : List Check) :
    validateMemberDetailBenefits .readable (w.reading rows benefits log) = .error .endOfData :=
  whileRow_endOfData (fun _ _ => ()) (fun _ => benefitChecks w) (fun _ => benefits_round w rows) ()
    benefits (fun r hr => (holds_or_iff r _).mpr (hopen r hr)) log

/-! ## Members -/

/-- A round after the row of type `M`. -/
def memberRows : Vb Unit := do
  let r ← current
  validateElements .readable [nameCheck r]
  validateMemberDetailBenefits .readable
  validateMemberDetailTotals .readable
  moveNext

/-- A member with a row of its own starts behind it. -/
theorem memberRound_own {r : Row} (hr : r.text .recordType = some ['M']) :
    memberRound .readable (w.reading rows (r :: rest) log) =
      memberRows (w.reading rows rest log) := by
  unfold memberRound
  rw [bind_run (current_cons r), hr]
  exact bind_run (moveNext_cons r) _

/-- A member without one starts at its benefits. -/
theorem memberRound_plain {r : Row} (hr : r.text .recordType ≠ some ['M']) :
    memberRound .readable (w.reading rows (r :: rest) log) =
      memberRows (w.reading rows (r :: rest) log) := by
  have hM : ¬ holds (eqNull (r.text .recordType) (some ['M'])) = true := by
    rw [holds_eqNull_iff]
    exact hr
  unfold memberRound
  rw [bind_run (current_cons r), if_neg hM]
  rfl

/-- The rows of a member are read up to the one that closes it. -/
theorem memberRows_closed {benefits : List Row} {close : Row}
    (hopen : ∀ r ∈ benefits, ¬ ClosesMember r) (hclose : ClosesMember close) (rest : List Row)
    (log : List Check) :
    ∃ log', memberRows (w.reading rows (benefits ++ close :: rest) log) =
      .ok ((), w.reading rows rest log') := by
  obtain ⟨r, rs, hrs⟩ : ∃ r rs, benefits ++ close :: rest = r :: rs :=
    List.exists_cons_of_ne_nil (by simp)
  obtain ⟨log', hbenefits⟩ := validateMemberDetailBenefits_closed w rows hopen
    hclose rest (log ++ [nameCheck r].map w.labelled)
  refine ⟨log' ++ (totalChecks w close).map w.labelled, ?_⟩
  have htotals : validateMemberDetailTotals .readable (w.reading rows (close :: rest) log') =
      .ok ((), w.reading rows (close :: rest) (log' ++ (totalChecks w close).map w.labelled)) := by
    unfold validateMemberDetailTotals
    rw [get_bind_run, bind_run (current_cons close)]
    exact validateElements_log _
  rw [hrs] at hbenefits ⊢
  unfold memberRows
  rw [bind_run (current_cons r), bind_run (validateElements_log _), bind_run hbenefits,
    bind_run htotals]
  exact moveNext_cons close

/-- Without it they are read past the data. -/
theorem memberRows_endOfData {benefits : List Row} (hopen : ∀ r ∈ benefits, ¬ ClosesMember r)
    (log : List Check) : memberRows (w.reading rows benefits log) = .error .endOfData := by
  unfold memberRows
  cases benefits with
  | nil => exact bind_error current_nil _
  | cons r rs =>
    rw [bind_run (current_cons r), bind_run (validateElements_log _)]
    exact bind_error (validateMemberDetailBenefits_endOfData w rows hopen _) _

/-- A round takes the rows of one member. -/
theorem memberRound_member {memberRow : Option Row} {benefits : List Row} {close : Row}
    (h : IsMember memberRow benefits close) (rest : List Row) (log : List Check) :
    ∃ log', memberRound .readable
      (w.reading rows (memberRow.toList ++ (benefits ++ close :: rest)) log) =
      .ok ((), w.reading rows rest log') := by
  obtain ⟨log', hrows⟩ := memberRows_closed w rows h.benefits_open
    h.close_closes rest log
  refine ⟨log', ?_⟩
  cases hrow : memberRow with
  | some r => exact (memberRound_own w rows (h.memberRow_type r hrow)).trans hrows
  | none =>
    obtain ⟨r, rs, hrs⟩ : ∃ r rs, benefits ++ [close] = r :: rs :=
      List.exists_cons_of_ne_nil (by simp)
    have hall : benefits ++ close :: rest = r :: (rs ++ rest) := by
      rw [List.append_cons, hrs, List.cons_append]
    have hr := h.begins hrow r (by rw [hrs]; exact rfl)
    rw [Option.toList_none, List.nil_append, hall]
    rw [hall] at hrows
    exact (memberRound_plain w rows hr.1).trans hrows

/-- A round that is entered takes the rows of one member, or there are none that make one. -/
theorem memberRound_outcome {r : Row} (hr : ¬ EndsWalk r) (rs : List Row) :
    (∃ memberRow benefits close rest, IsMember memberRow benefits close ∧
        r :: rs = memberRow.toList ++ (benefits ++ close :: rest)) ∨
      ∀ log, memberRound .readable (w.reading rows (r :: rs) log) = .error .endOfData := by
  by_cases hM : r.text .recordType = some ['M']
  · by_cases hclose : ∃ r ∈ rs, ClosesMember r
    · obtain ⟨benefits, close, rest, hrs, hopen, hclose⟩ := exists_first hclose
      refine .inl ⟨some r, benefits, close, rest, ⟨?_, ?_, hopen, hclose⟩, by rw [hrs]; rfl⟩
      · intro r' hr'
        obtain rfl : r = r' := Option.some.inj hr'
        exact hM
      · intro h
        cases h
    · refine .inr fun log => (memberRound_own w rows hM).trans (memberRows_endOfData w rows ?_ log)
      exact fun r hr hclose' => hclose ⟨r, hr, hclose'⟩
  · by_cases hclose : ∃ r' ∈ r :: rs, ClosesMember r'
    · obtain ⟨benefits, close, rest, hrs, hopen, hclose⟩ := exists_first hclose
      refine .inl ⟨none, benefits, close, rest, ⟨?_, fun _ r' hr' => ?_, hopen, hclose⟩, hrs⟩
      · intro _ h
        cases h
      · obtain rfl : r = r' := by
          have hhead : (benefits ++ [close]).head? = (r :: rs).head? := by
            rw [hrs]
            cases benefits <;> rfl
          rw [hhead] at hr'
          simpa using hr'
        exact ⟨hM, hr⟩
    · refine .inr fun log => (memberRound_plain w rows hM).trans
        (memberRows_endOfData w rows ?_ log)
      exact fun r hr hclose' => hclose ⟨r, hr, hclose'⟩

/-! ## The walk -/

/-- The loop over the members. -/
def walk (fuel : ℕ) : Vb Unit :=
  loop (.ado .stuck)
    (fun _ => rowHolds fun r =>
      notNull (orNull (some false) (eqNull (r.text .recordType) (some ['P']))))
    (fun _ => memberRound .readable) fuel ()

/-- The walk ends at a row that ends it. -/
theorem walk_stop {r : Row} (hr : EndsWalk r) (fuel : ℕ) :
    walk (fuel + 1) (w.reading rows (r :: rest) log) =
      .ok ((), w.reading rows (r :: rest) log) := by
  have hstop : rowHolds (fun r =>
      notNull (orNull (some false) (eqNull (r.text .recordType) (some ['P']))))
      (w.reading rows (r :: rest) log) = .ok (false, w.reading rows (r :: rest) log) := by
    rw [rowHolds_cons, Bool.eq_false_iff.mpr fun h => (holds_or_iff r ['P']).mp h hr]
  rw [walk, loop, bind_run hstop]
  rfl

/-- At any other row a member begins. -/
theorem walk_enter {r : Row} (hr : ¬ EndsWalk r) (fuel : ℕ) :
    walk (fuel + 1) (w.reading rows (r :: rest) log) =
      (memberRound .readable >>= fun _ => walk fuel) (w.reading rows (r :: rest) log) := by
  have hgo : rowHolds (fun r =>
      notNull (orNull (some false) (eqNull (r.text .recordType) (some ['P']))))
      (w.reading rows (r :: rest) log) = .ok (true, w.reading rows (r :: rest) log) := by
    rw [rowHolds_cons, (holds_or_iff r ['P']).mpr hr]
  rw [walk, loop, bind_run hgo]
  rfl

/-- The first row of a member does not end the walk. -/
theorem IsMember.exists_cons {memberRow : Option Row} {benefits : List Row} {close : Row}
    (h : IsMember memberRow benefits close) (rest : List Row) :
    ∃ r rs, memberRow.toList ++ (benefits ++ close :: rest) = r :: rs ∧ ¬ EndsWalk r := by
  cases hrow : memberRow with
  | some r =>
    refine ⟨r, _, rfl, ?_⟩
    rw [EndsWalk, h.memberRow_type r hrow]
    decide
  | none =>
    obtain ⟨r, rs, hrs⟩ : ∃ r rs, benefits ++ [close] = r :: rs :=
      List.exists_cons_of_ne_nil (by simp)
    refine ⟨r, rs ++ rest, ?_, (h.begins hrow r (by rw [hrs]; exact rfl)).2⟩
    rw [Option.toList_none, List.nil_append, List.append_cons, hrs, List.cons_append]

/-- Where the rows end the walk it returns. -/
theorem walk_returns (h : WalkEnds rest) (fuel : ℕ) (hfuel : rest.length < fuel)
    (log : List Check) :
    ∃ rest' log', walk fuel (w.reading rows rest log) = .ok ((), w.reading rows rest' log') := by
  obtain ⟨fuel, rfl⟩ : ∃ k, fuel = k + 1 := ⟨fuel - 1, by omega⟩
  induction h generalizing fuel log with
  | stop hr => exact ⟨_, _, walk_stop w rows hr fuel⟩
  | @member memberRow benefits close rest hmember _ ih =>
    obtain ⟨r, rs, hrs, hr⟩ := hmember.exists_cons rest
    obtain ⟨log₁, hround⟩ := memberRound_member w rows hmember rest log
    rw [List.length_append, List.length_append, List.length_cons] at hfuel
    obtain ⟨k, rfl⟩ : ∃ k, fuel = k + 1 := ⟨fuel - 1, by omega⟩
    obtain ⟨rest', log', hrun⟩ := ih log₁ k (by omega)
    refine ⟨rest', log', ?_⟩
    rw [hrs] at hround ⊢
    rw [walk_enter w rows hr, bind_run hround, hrun]

/-- Where they do not it reads past the last row. -/
theorem walk_endOfData (h : ¬ WalkEnds rest) (fuel : ℕ) (hfuel : rest.length < fuel)
    (log : List Check) : walk fuel (w.reading rows rest log) = .error .endOfData := by
  obtain ⟨fuel, rfl⟩ : ∃ k, fuel = k + 1 := ⟨fuel - 1, by omega⟩
  induction hn : rest.length using Nat.strong_induction_on generalizing rest fuel log with
  | _ n ih =>
    cases rest with
    | nil => exact bind_error (rowHolds_nil _) _
    | cons r rs =>
      have hr : ¬ EndsWalk r := fun hr => h (WalkEnds.stop hr)
      rw [walk_enter w rows hr]
      rcases memberRound_outcome w rows hr rs with
        ⟨memberRow, benefits, close, rest, hmember, hrs⟩ | hround
      · obtain ⟨log₁, hround⟩ := memberRound_member w rows hmember rest log
        have hlength := congrArg List.length hrs
        rw [List.length_append, List.length_append, List.length_cons, List.length_cons] at hlength
        obtain ⟨k, rfl⟩ : ∃ k, fuel = k + 1 := ⟨fuel - 1, by rw [List.length_cons] at hfuel; omega⟩
        rw [List.length_cons] at hn hfuel
        rw [hrs, bind_run hround]
        exact ih rest.length (by omega) (fun hends => h (by rw [hrs]; exact .member hmember hends))
          log₁ k (by omega) rfl
      · exact bind_error (hround log) _

end Walk

section Details

variable (w : World) (rows : List Row) {rest : List Row} {log : List Check}

/-- A row before the first benefit is passed over. -/
theorem skip_round (r : Row) (rest : List Row) (log : List Check) :
    moveNext (w.reading rows (r :: rest) log) =
      .ok ((), w.reading rows rest (log ++ ([] : List Check).map w.labelled)) := by
  rw [List.map_nil, List.append_nil]
  exact moveNext_cons r

/-- Rows before the first one of type `N` or without a type are skipped. -/
theorem skips_iff (r : Row) :
    holds (neNull (r.text .recordType) (some ['N'])) = true ↔
      ¬ (r.text .recordType = none ∨ r.text .recordType = some ['N']) := by
  rw [not_or, ← Ne, ← Option.isSome_iff_ne_none]
  exact holds_notNull_eqNull_iff _ _

/-- Behind the rows that are passed over the members begin. -/
theorem memberDetailLoops_eq_walk {pre : List Row} {r : Row}
    (hpre : ∀ r ∈ pre, ¬ (r.text .recordType = none ∨ r.text .recordType = some ['N']))
    (hr : r.text .recordType = none ∨ r.text .recordType = some ['N']) (log : List Check) :
    ∃ log', memberDetailLoops .readable (w.reading rows (pre ++ r :: rest) log) =
      walk ((r :: rest).length + 1) (w.reading rows (r :: rest) log') := by
  have hskip : whileRow (fun r => neNull (r.text .recordType) (some ['N'])) () (fun _ => moveNext)
      (w.reading rows (pre ++ r :: rest) log) = .ok _ :=
    whileRow_scan (fun _ _ => ()) (fun _ _ => []) (fun _ => skip_round w rows) () pre
      (fun r hr => (skips_iff r).mpr (hpre r hr))
      (Bool.eq_false_iff.mpr fun h => (skips_iff r).mp h hr) log
  exact ⟨_, bind_run hskip _⟩

/-- Where the members end the detailed view returns. -/
theorem memberDetailLoops_returns (h : MembersEnd rows) (log : List Check) :
    ∃ rest' log', memberDetailLoops .readable (w.reading rows rows log) =
      .ok ((), w.reading rows rest' log') := by
  obtain ⟨pre, r, rest, hrows, hpre, hr, hends⟩ := h
  obtain ⟨log₁, hloops⟩ := memberDetailLoops_eq_walk w rows hpre hr
    log
  obtain ⟨rest', log', hrun⟩ := walk_returns w rows hends _ (Nat.lt_succ_self _)
    log₁
  exact ⟨rest', log', by nth_rewrite 2 [hrows]; rw [hloops, hrun]⟩

/-- Where they do not it reads past the data. -/
theorem memberDetailLoops_endOfData (h : ¬ MembersEnd rows) (log : List Check) :
    memberDetailLoops .readable (w.reading rows rows log) = .error .endOfData := by
  by_cases hfirst : ∃ r ∈ rows, r.text .recordType = none ∨ r.text .recordType = some ['N']
  · obtain ⟨pre, r, rest, hrows, hpre, hr⟩ := exists_first hfirst
    obtain ⟨log₁, hloops⟩ := memberDetailLoops_eq_walk w rows hpre
      hr log
    have hends : ¬ WalkEnds (r :: rest) := fun hends => h ⟨pre, r, rest, hrows, hpre, hr, hends⟩
    nth_rewrite 2 [hrows]
    rw [hloops]
    exact walk_endOfData w rows hends _ (Nat.lt_succ_self _) log₁
  · refine bind_error (whileRow_endOfData (fun _ _ => ()) (fun _ _ => [])
      (fun _ => skip_round w rows) () rows
      (fun r hr => (skips_iff r).mpr fun hstop => hfirst ⟨r, hr, hstop⟩) log) _

/-- The walk over the members ended at a row where the summarized view ends, too. -/
theorem WalkEnds.exists_endsWalk (h : WalkEnds rest) : ∃ r ∈ rest, EndsWalk r := by
  induction h with
  | stop hr => exact ⟨_, List.mem_cons_self, hr⟩
  | member _ _ ih =>
    obtain ⟨r, hr, hends⟩ := ih
    exact ⟨r, by simp [hr], hends⟩

/-- The summarized view returns when some row ends it. -/
theorem memberDetailSummarized_returns (h : ∃ r ∈ rows, EndsWalk r) (rest : List Row)
    (log : List Check) :
    ∃ rest' log', memberDetailSummarized .readable (w.reading rows rest log) =
      .ok ((), w.reading rows rest' log') := by
  obtain ⟨pre, r, post, rfl, hpre, hr⟩ := exists_first h
  have hgoes : ∀ r : Row, holds (notNull (eqNull (r.text .recordType) (some ['P']))) = true ↔
      ¬ EndsWalk r := by
    intro r
    rw [EndsWalk, ← holds_or_iff, orNull_false]
  obtain ⟨r₀, rs, hcons⟩ : ∃ r₀ rs, pre ++ r :: post = r₀ :: rs :=
    List.exists_cons_of_ne_nil (by simp)
  have hfirst : moveFirst (w.reading (pre ++ r :: post) rest log) =
      .ok ((), w.reading (pre ++ r :: post) (pre ++ r :: post) log) := by
    rw [hcons]
    exact moveFirst_cons r₀
  unfold memberDetailSummarized
  rw [bind_run hfirst]
  refine ⟨_, _, (bind_run (whileRow_scan Summarized.next Summarized.checks (fun x r rest log => ?_)
    _ pre (fun r hr => (hgoes r).mpr (hpre r hr))
    (Bool.eq_false_iff.mpr fun h => (hgoes r).mp h hr) log) _).trans rfl⟩
  rw [bind_run (current_cons r), bind_run (validateElements_log _), bind_run (moveNext_cons r)]
  rfl

/-! ## The routine -/

/-- The rows `validateMemberDetails` opens. -/
def memberRecordset (w : World) (b : BillData) : List Row :=
  if w.isE then b.onlineMembers else b.members

/-- Opening the recordset and what is left to do then. -/
theorem validateMemberDetails_open (b : BillData) {w : World} (hclosed : w.rs = none)
    (hformat : w.isE = true ∨ w.isFour = true) :
    validateMemberDetails .readable b w =
      (do
        memberDetailLoops .readable
        if w.isE then memberDetailSummarized .readable
        lift rsClose : Vb Unit)
        (w.reading (memberRecordset w b) (memberRecordset w b) w.log) := by
  have hopen : ∀ rows, lift (rsOpen rows) w = .ok ((), w.reading rows rows w.log) := fun rows =>
    lift_run (rsOpen_run hclosed rows)
  unfold validateMemberDetails memberRecordset
  rw [get_bind_run]
  cases hE : w.isE with
  | true => exact bind_run (hopen b.onlineMembers) _
  | false =>
    have hFour : w.isFour = true := hformat.resolve_left (by rw [hE]; decide)
    rw [hFour]
    exact bind_run (hopen b.members) _

/-- The routine comes to an end, and uses the recordset only while it stands on a row. -/
def StaysInData (b : BillData) (w : World) : Prop :=
  ∃ w', validateMemberDetails .readable b w = .ok ((), w')

/-- Where the members end both views return. -/
theorem validateMemberDetails_returns (b : BillData) {w : World} (hclosed : w.rs = none)
    (hformat : w.isE = true ∨ w.isFour = true) (h : MembersEnd (memberRecordset w b)) :
    StaysInData b w := by
  rw [StaysInData, validateMemberDetails_open b hclosed hformat]
  obtain ⟨rest, log, hloops⟩ := memberDetailLoops_returns w _ h w.log
  rw [bind_run hloops]
  cases hE : w.isE with
  | false => exact ⟨_, lift_run (rsClose_run rfl)⟩
  | true =>
    have hends : ∃ r ∈ memberRecordset w b, EndsWalk r := by
      obtain ⟨pre, r, rest, hrows, -, -, hends⟩ := h
      obtain ⟨stop, hstop, hends⟩ := hends.exists_endsWalk
      exact ⟨stop, by rw [hrows]; exact List.mem_append_right _ hstop, hends⟩
    obtain ⟨rest', log', hsummarized⟩ := memberDetailSummarized_returns w _ hends rest log
    exact ⟨_, (bind_run hsummarized _).trans (lift_run (rsClose_run rfl))⟩

/-- All that goes wrong is that rows are missing. -/
theorem validateMemberDetails_endOfData (b : BillData) {w : World} (hclosed : w.rs = none)
    (hformat : w.isE = true ∨ w.isFour = true) (h : ¬ MembersEnd (memberRecordset w b)) :
    validateMemberDetails .readable b w = .error .endOfData := by
  rw [validateMemberDetails_open b hclosed hformat]
  exact bind_error (memberDetailLoops_endOfData w _ h w.log) _

/-- The walk over the members stays in the data exactly when every member is closed and a row
without a type or of type `P` follows the last one. -/
theorem staysInData_iff (b : BillData) {w : World} (hclosed : w.rs = none)
    (hformat : w.isE = true ∨ w.isFour = true) :
    StaysInData b w ↔ MembersEnd (memberRecordset w b) := by
  refine ⟨fun hreturns => ?_, validateMemberDetails_returns b hclosed hformat⟩
  by_contra h
  obtain ⟨w', hrun⟩ := hreturns
  rw [validateMemberDetails_endOfData b hclosed hformat h] at hrun
  cases hrun

end Details

/-- A bill without any rows. -/
def noRows : BillData := ⟨[], [], [], [], [], [], [], [], []⟩

/-- The globals while a bill of the default format is viewed. -/
def onlineWorld : World := { World.start with dbillFrmtCd := some ['E'] }

/-- A row before the first benefit, a member without a row of its own, and one with it. -/
def twoMembers : BillData :=
  { noRows with
    onlineMembers := [typedRow 'A', typedRow 'N', typedRow 'N', typedRow 'O', typedRow 'M',
      typedRow 'N', typedRow 'O', typedRow 'P'] }

/-- The first member of that bill. -/
theorem isMember_withoutRow : IsMember none [typedRow 'N', typedRow 'N'] (typedRow 'O') where
  memberRow_type := by simp
  begins := fun _ r hr => by
    obtain rfl : typedRow 'N' = r := Option.some.inj hr
    decide
  benefits_open := by simp [ClosesMember, typedRow, Row.of, Row.text]
  close_closes := by decide

theorem isMember_withRow : IsMember (some (typedRow 'M')) [typedRow 'N'] (typedRow 'O') where
  memberRow_type := by simp [typedRow, Row.of, Row.text]
  begins := fun h => by cases h
  benefits_open := by simp [ClosesMember, typedRow, Row.of, Row.text]
  close_closes := by decide

theorem membersEnd_twoMembers : MembersEnd twoMembers.onlineMembers :=
  ⟨[typedRow 'A'], typedRow 'N', _, rfl, by simp [typedRow, Row.of, Row.text], .inr rfl,
    WalkEnds.member isMember_withoutRow (WalkEnds.member isMember_withRow
      (WalkEnds.stop (.inr rfl)))⟩

/-- The members are read up to the row of type `P`. -/
theorem staysInData_twoMembers : StaysInData twoMembers onlineWorld :=
  (staysInData_iff twoMembers rfl (.inl rfl)).mpr membersEnd_twoMembers

/-- An empty recordset is read at once. -/
theorem not_staysInData_noRows :
    onlineWorld.rs = none ∧ onlineWorld.isE = true ∧ ¬ StaysInData noRows onlineWorld := by
  refine ⟨rfl, rfl, ?_⟩
  rintro ⟨w', hrun⟩
  cases hrun

end OaBills.Strict
