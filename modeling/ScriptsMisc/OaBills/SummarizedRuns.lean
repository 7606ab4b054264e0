import ScriptsMisc.Lib.Runs
import ScriptsMisc.OaBills.MemberChecks

/-! # The summarized view of the members as a group-by

`memberDetailSummarized` sums the benefits of a member up while their `ROLLUP_INDICATOR` stays the
same, and reports the sums at the row after them.
-/

namespace OaBills

/-! ## The shape of the rows -/

/-- The rows of one member: maybe a row before the benefits, benefits, totals. Only benefits belong
to a rollup. -/
structure RollupBlock where
  mbrNo : Option Str
  memberRow : Option Row
  first : Row
  more : List Row
  totals : Row
  memberRow_shape : ∀ r ∈ memberRow,
    r.text .recordType = some ['M'] ∧ r.text .rollupIndicator = none
  benefit_shape : ∀ r ∈ first :: more, r.text .recordType = some ['N'] ∧ r.text .mbrNo = mbrNo
  totals_shape : totals.text .recordType = some ['O'] ∧ totals.text .rollupIndicator = none

def RollupBlock.rows (b : RollupBlock) : List Row :=
  b.memberRow.toList ++ b.first :: b.more ++ [b.totals]

/-- The rows `memberDetailSummarized` goes over. -/
structure RollupRecords where
  header : List Row
  blocks : List RollupBlock
  trailer : Row
  rest : List Row
  header_shape : ∀ r ∈ header, r.text .recordType ≠ some ['N'] ∧
    r.text .recordType ≠ some ['O'] ∧ r.text .recordType ≠ some ['P'] ∧
    r.text .rollupIndicator = none
  trailer_shape : trailer.text .recordType = some ['P']

def RollupRecords.rows (m : RollupRecords) : List Row :=
  m.header ++ m.blocks.flatMap RollupBlock.rows ++ m.trailer :: m.rest

/-! ## What is to be reported -/

/-- A run of benefits of one member summed up. -/
def summed (mbrNo : Option Str) (run : List Row) : Summarized where
  mbrNo := mbrNo
  rollupIndicator := run.getLast?.bind fun r => r.text .rollupIndicator
  totalEmployee := (run.map fun r => r.dbl .empleeContrib).sum
  totalPastDue := (run.map fun r => r.dbl .pastDueAmt).sum
  ageBandExpected := run.getLast?.bind issueAgeBand

/-- The group of checks for a run, if it has an indicator. -/
def runGroup (mbrNo : Option Str) (run : List Row) : List Check :=
  if (summed mbrNo run).rollupIndicator.isSome then (summed mbrNo run).rollupChecks else []

/-- The maximal runs of benefits with the same indicator. -/
def RollupBlock.runs (b : RollupBlock) : List (List Row) :=
  (b.first :: b.more).splitBy fun before r => decide (SameRollup before r)

/-- A group for each run with an indicator, and one for the totals. -/
def RollupBlock.groups (b : RollupBlock) : List Check :=
  b.runs.flatMap (runGroup b.mbrNo) ++ (summed b.mbrNo []).totalChecks b.totals

/-- The checks that are not of names. -/
def unnamed (cs : List Check) : List Check := cs.filter fun c => !c.isName

/-- `memberDetailSummarized` reports the groups of all members in order, and besides them nothing
but names. -/
def RollupRecords.Grouped (m : RollupRecords) (w : World) (before : List Row) : Prop :=
  ∃ w' cs, memberDetailSummarized { w with rs := some ⟨m.rows, before⟩ } = .ok ((), w') ∧
    w'.log = w.log ++ cs.map w.labelled ∧ unnamed cs = m.blocks.flatMap RollupBlock.groups

/-! ## One row -/

theorem unnamed_append (cs ds : List Check) : unnamed (cs ++ ds) = unnamed cs ++ unnamed ds :=
  List.filter_append cs ds

/-- Checks of other things than names all stay. -/
theorem unnamed_eq_self {cs : List Check} (h : ∀ c ∈ cs, c.isName = false) : unnamed cs = cs :=
  List.filter_eq_self.mpr fun c hc => by rw [h c hc, Bool.not_false]

/-- What a row reports besides names. -/
theorem unnamed_checks (x : Summarized) (r : Row) :
    unnamed (x.checks r) =
      (if !x.goesOn r && x.rollupIndicator.isSome then x.rollupChecks else []) ++
        if holds (eqNull (r.text .recordType) (some ['O'])) then x.totalChecks r else [] := by
  have hname : unnamed (if (x.mbrNo.isNone && (r.text .mbrNo).isSome) = true
      then [nameCheck r] else []) = [] := by
    split
    · rw [unnamed, List.filter_cons_of_neg (by rw [isName_nameCheck]; decide), List.filter_nil]
    · rfl
  have hended : unnamed (if x.rollupIndicator.isSome = true then x.rollupChecks else []) =
      if x.rollupIndicator.isSome = true then x.rollupChecks else [] := by
    split
    · exact unnamed_eq_self (isName_rollupChecks x)
    · rfl
  have hlast : unnamed (if holds (eqNull (r.text .recordType) (some ['O'])) = true
      then x.totalChecks r else []) =
      if holds (eqNull (r.text .recordType) (some ['O'])) = true then x.totalChecks r else [] := by
    split
    · exact unnamed_eq_self (isName_summarizedTotals x r)
    · rfl
  unfold Summarized.checks
  rw [unnamed_append, hlast]
  cases x.goesOn r with
  | true => rfl
  | false =>
    rw [if_neg Bool.false_ne_true, unnamed_append, hname, hended]
    rfl

/-- After a row that does not go on with the rollup the variables hold that row alone. -/
theorem next_of_not_goesOn {x : Summarized} {r : Row} (h : x.goesOn r = false) :
    x.next r = summed (r.text .mbrNo) [r] := by
  simp [Summarized.next, summed, h]

/-- A rollup without an indicator does not go on. -/
theorem not_goesOn_of_none {x : Summarized} {r : Row}
    (h : x.rollupIndicator = none ∨ r.text .rollupIndicator = none) : x.goesOn r = false := by
  rw [Bool.eq_false_iff, Ne, goesOn_iff]
  rintro ⟨hr, hsome⟩
  rcases h with h | h
  · rw [h] at hsome
    cases hsome
  · rw [← hr, h] at hsome
    cases hsome

/-- Rows outside of the rollups, without totals, report nothing but names. -/
theorem unnamed_pass_outside (x : Summarized) {rs : List Row} (hx : x.rollupIndicator = none)
    (h : ∀ r ∈ rs, r.text .recordType ≠ some ['O'] ∧ r.text .rollupIndicator = none) :
    unnamed (x.pass rs) = [] ∧ (rs.foldl Summarized.next x).rollupIndicator = none := by
  induction rs generalizing x with
  | nil => exact ⟨rfl, hx⟩
  | cons r rs ih =>
    rw [List.forall_mem_cons] at h
    obtain ⟨⟨htype, hr⟩, hrest⟩ := h
    have hnext := ih (x.next r) hr hrest
    have hO : ¬ holds (eqNull (r.text .recordType) (some ['O'])) = true := by
      rw [holds_eqNull_iff]
      exact htype
    refine ⟨?_, hnext.2⟩
    show unnamed (x.checks r ++ (x.next r).pass rs) = []
    rw [unnamed_append, hnext.1, unnamed_checks, hx, if_neg hO, List.append_nil]
    simp

/-! ## One member -/

/-- The pass as one that cannot fail and leaves the names out. -/
def groupStep (x : Summarized) (r : Row) : Except Empty (Summarized × List Check) :=
  .ok (x.next r, unnamed (x.checks r))

/-- The summarized view is a pass that groups rows. -/
theorem pass_groupStep (x : Summarized) (rs : List Row) :
    Runs.pass groupStep x rs = .ok (rs.foldl Summarized.next x, unnamed (x.pass rs)) := by
  induction rs generalizing x with
  | nil => rfl
  | cons r rs ih =>
    have hstep : groupStep x r = .ok (x.next r, unnamed (x.checks r)) := rfl
    rw [Runs.pass_cons_ok hstep, ih]
    show Except.ok _ = Except.ok (_, unnamed (x.checks r ++ (x.next r).pass rs))
    rw [unnamed_append]
    rfl

/-- The sums grow by the last row. -/
theorem summed_concat (mbrNo : Option Str) (run : List Row) (r : Row) :
    summed mbrNo (run ++ [r]) =
      ⟨mbrNo, r.text .rollupIndicator, (run.map fun r => r.dbl .empleeContrib).sum +
        r.dbl .empleeContrib, (run.map fun r => r.dbl .pastDueAmt).sum + r.dbl .pastDueAmt,
        issueAgeBand r⟩ := by
  simp [summed]

/-- Within a run the variables tell whether a row goes on with it. -/
theorem goesOn_summed (mbrNo : Option Str) (run : List Row) (before r : Row) :
    (summed mbrNo (run ++ [before])).goesOn r = decide (SameRollup before r) := by
  rw [Bool.eq_iff_iff, goesOn_iff, decide_eq_true_iff, summed_concat]
  rfl

/-- A benefit reports the run before it unless it goes on with it. -/
theorem unnamed_checks_benefit {x : Summarized} {r : Row}
    (h : r.text .recordType = some ['N']) :
    unnamed (x.checks r) =
      if !x.goesOn r && x.rollupIndicator.isSome then x.rollupChecks else [] := by
  have hO : ¬ holds (eqNull (r.text .recordType) (some ['O'])) = true := by
    rw [holds_eqNull_iff, h]
    decide
  rw [unnamed_checks, if_neg hO, List.append_nil]

/-- The benefits of a member are grouped by their indicators. -/
theorem groupStep_groups (mbrNo : Option Str) :
    Runs.Groups (fun before r => decide (SameRollup before r)) groupStep
      (fun r => r.text .recordType = some ['N'] ∧ r.text .mbrNo = mbrNo) (summed mbrNo)
      (runGroup mbrNo) fun _ => True where
  goes run x y hP hxy _ := by
    obtain ⟨htype, hno⟩ := hP y (by simp)
    have hgoes := (goesOn_summed mbrNo run x y).trans hxy
    have hnext : (summed mbrNo (run ++ [x])).next y = summed mbrNo (run ++ [x] ++ [y]) := by
      rw [summed_concat _ (run ++ [x]), Summarized.next, hgoes, hno]
      rfl
    rw [groupStep, unnamed_checks_benefit htype, hgoes, hnext]
    rfl
  overruns _ _ _ _ _ hfits := absurd trivial hfits
  breaks run x y hP hxy := by
    obtain ⟨htype, hno⟩ := hP y (by simp)
    have hgoes := (goesOn_summed mbrNo run x y).trans hxy
    rw [groupStep, unnamed_checks_benefit htype, hgoes, next_of_not_goesOn hgoes, hno]
    rfl
  closed _ _ := trivial
  single _ := trivial

/-- The totals of a member end the last run. -/
theorem groupStep_totals (b : RollupBlock) (run : List Row) (r : Row) :
    groupStep (summed b.mbrNo (run ++ [r])) b.totals =
      .ok (summed (b.totals.text .mbrNo) [b.totals],
        runGroup b.mbrNo (run ++ [r]) ++ (summed b.mbrNo []).totalChecks b.totals) := by
  have hgoes : (summed b.mbrNo (run ++ [r])).goesOn b.totals = false :=
    not_goesOn_of_none (.inr b.totals_shape.2)
  have hO : holds (eqNull (b.totals.text .recordType) (some ['O'])) = true := by
    rw [holds_eqNull_iff]
    exact b.totals_shape.1
  rw [groupStep, unnamed_checks, hgoes, next_of_not_goesOn hgoes, if_pos hO]
  rfl

/-- A member's rows report its groups. -/
theorem unnamed_pass_rows (x : Summarized) (b : RollupBlock) (hx : x.rollupIndicator = none) :
    unnamed (x.pass b.rows) = b.groups ∧
      (b.rows.foldl Summarized.next x).rollupIndicator = none := by
  -- up to the first benefit there is no run
  have hown : ∀ r ∈ b.memberRow.toList,
      r.text .recordType ≠ some ['O'] ∧ r.text .rollupIndicator = none := by
    intro r hr
    obtain ⟨htype, hr⟩ := b.memberRow_shape r (Option.mem_toList.mp hr)
    exact ⟨by rw [htype]; decide, hr⟩
  have hrow := unnamed_pass_outside x hx hown
  obtain ⟨htype, hno⟩ := b.benefit_shape b.first List.mem_cons_self
  generalize hy : b.memberRow.toList.foldl Summarized.next x = y at hrow
  have hgoes : y.goesOn b.first = false := not_goesOn_of_none (.inl hrow.2)
  have hfirst : groupStep y b.first = .ok (summed b.mbrNo [b.first], []) := by
    rw [groupStep, unnamed_checks_benefit htype, next_of_not_goesOn hgoes, hrow.2, hno]
    simp
  have hpass := (groupStep_groups b.mbrNo).pass_closed b.first b.more b.benefit_shape
    (fun _ _ => trivial) (groupStep_totals b)
  have hblock : Runs.pass groupStep y (b.first :: b.more ++ [b.totals]) =
      .ok (summed (b.totals.text .mbrNo) [b.totals], b.groups) := by
    rw [List.cons_append, Runs.pass_cons_ok hfirst, hpass]
    rfl
  rw [pass_groupStep] at hblock
  obtain ⟨hfinal, hchecks⟩ := Prod.mk.inj (Except.ok.inj hblock)
  rw [RollupBlock.rows, List.append_assoc, pass_append, unnamed_append, List.foldl_append, hy]
  refine ⟨?_, ?_⟩
  · rw [hrow.1, List.nil_append]
    exact hchecks
  · refine (congrArg Summarized.rollupIndicator hfinal).trans ?_
    exact b.totals_shape.2

/-! ## All members -/

/-- Members one after the other report their groups. -/
theorem unnamed_pass_blocks (x : Summarized) (bs : List RollupBlock)
    (hx : x.rollupIndicator = none) :
    unnamed (x.pass (bs.flatMap RollupBlock.rows)) = bs.flatMap RollupBlock.groups := by
  induction bs generalizing x with
  | nil => rfl
  | cons b bs ih =>
    obtain ⟨hgroups, hfinal⟩ := unnamed_pass_rows x b hx
    rw [List.flatMap_cons, List.flatMap_cons, pass_append, unnamed_append, hgroups, ih _ hfinal]

/-- No row of a member is null or ends the walk. -/
theorem RollupBlock.rows_type (b : RollupBlock) :
    ∀ r ∈ b.rows, (r.text .recordType).isSome = true ∧ r.text .recordType ≠ some ['P'] := by
  intro r hr
  rw [RollupBlock.rows, List.mem_append, List.mem_append, Option.mem_toList, List.mem_singleton]
    at hr
  rcases hr with (hr | hr) | rfl
  · rw [(b.memberRow_shape r hr).1]
    decide
  · rw [(b.benefit_shape r hr).1]
    decide
  · rw [b.totals_shape.1]
    decide

/-- With a typed header every member's groups are reported. -/
theorem grouped_of_typed (m : RollupRecords) (w : World) (before : List Row)
    (htyped : ∀ r ∈ m.header, (r.text .recordType).isSome = true) : m.Grouped w before := by
  have hpre : ∀ r ∈ m.header ++ m.blocks.flatMap RollupBlock.rows,
      (r.text .recordType).isSome = true ∧ r.text .recordType ≠ some ['P'] := by
    intro r hr
    rcases List.mem_append.mp hr with hr | hr
    · exact ⟨htyped r hr, (m.header_shape r hr).2.2.1⟩
    · obtain ⟨b, -, hb⟩ := List.mem_flatMap.mp hr
      exact b.rows_type r hb
  obtain ⟨hheader, hrollup⟩ := unnamed_pass_outside Summarized.start rfl fun r hr =>
    ⟨(m.header_shape r hr).2.1, (m.header_shape r hr).2.2.2⟩
  refine ⟨_, _, memberDetailSummarized_stops w m.rest before w.log hpre (.inr m.trailer_shape),
    rfl, ?_⟩
  rw [pass_append, unnamed_append, hheader, List.nil_append]
  exact unnamed_pass_blocks _ m.blocks hrollup

/-- A row of the header without a type ends the pass before the first member. -/
theorem memberDetailSummarized_untyped (m : RollupRecords) (w : World) (before : List Row)
    (huntyped : ¬ ∀ r ∈ m.header, (r.text .recordType).isSome = true) :
    ∃ w' cs, memberDetailSummarized { w with rs := some ⟨m.rows, before⟩ } = .ok ((), w') ∧
      w'.log = w.log ++ cs.map w.labelled ∧ unnamed cs = [] := by
  obtain ⟨pre, r, post, hheader, htyped, hr⟩ := exists_untyped huntyped
  have hshape : ∀ r ∈ pre, _ := fun r hr =>
    m.header_shape r (by rw [hheader]; exact List.mem_append_left _ hr)
  have hrows : m.rows =
      pre ++ r :: (post ++ m.blocks.flatMap RollupBlock.rows ++ m.trailer :: m.rest) := by
    rw [RollupRecords.rows, hheader]
    simp
  rw [hrows]
  refine ⟨_, _, memberDetailSummarized_stops w _ before w.log
    (fun r hr => ⟨htyped r hr, (hshape r hr).2.2.1⟩) (.inl hr), rfl, ?_⟩
  exact (unnamed_pass_outside Summarized.start rfl fun r hr =>
    ⟨(hshape r hr).2.1, (hshape r hr).2.2.2⟩).1

theorem RollupBlock.groups_ne_nil (b : RollupBlock) : b.groups ≠ [] :=
  List.append_ne_nil_of_right_ne_nil _ (List.cons_ne_nil _ _)

/-- The members are lost after such a row. -/
theorem not_grouped_of_untyped (m : RollupRecords) (w : World) (before : List Row)
    (hblocks : m.blocks ≠ [])
    (huntyped : ¬ ∀ r ∈ m.header, (r.text .recordType).isSome = true) :
    ¬ m.Grouped w before := by
  rintro ⟨w₂, ds, hrun', hlog', hgroups⟩
  obtain ⟨w₁, cs, hrun, hlog, hnone⟩ := memberDetailSummarized_untyped m w before huntyped
  obtain rfl : w₁ = w₂ := congrArg Prod.snd (Except.ok.inj (hrun.symm.trans hrun'))
  have hmap := List.append_cancel_left (hlog.symm.trans hlog')
  obtain rfl : cs = ds := List.map_injective_iff.mpr (labelled_injective w) hmap
  obtain ⟨b, bs, hb⟩ := List.exists_cons_of_ne_nil hblocks
  rw [hnone, hb, List.flatMap_cons] at hgroups
  exact b.groups_ne_nil (List.append_eq_nil_iff.mp hgroups.symm).1

/-- Every run and every totals row is reported once, in order, exactly when the header rows have
types, or there is nothing to report. -/
theorem groupedMembers_iff (m : RollupRecords) (w : World) (before : List Row) :
    m.Grouped w before ↔
      m.blocks = [] ∨ ∀ r ∈ m.header, (r.text .recordType).isSome = true := by
  by_cases htyped : ∀ r ∈ m.header, (r.text .recordType).isSome = true
  · exact iff_of_true (grouped_of_typed m w before htyped) (.inr htyped)
  · rw [or_iff_left htyped]
    constructor
    · intro hgrouped
      by_contra hblocks
      exact not_grouped_of_untyped m w before hblocks htyped hgrouped
    · intro hblocks
      obtain ⟨w₁, cs, hrun, hlog, hnone⟩ := memberDetailSummarized_untyped m w before htyped
      exact ⟨w₁, cs, hrun, hlog, by rw [hnone, hblocks]; rfl⟩

/-- One member with one benefit, after an empty row. -/
def emptyRowFirst : RollupRecords where
  header := [fun _ => none]
  blocks := [{
    mbrNo := some "101".toList
    memberRow := none
    first := sampleRow 'N' "101".toList "LIFE".toList
    more := []
    totals := Row.of [(.recordType, ⟨['O'], 0⟩), (.mbrNo, ⟨"101".toList, 0⟩)]
    memberRow_shape := by simp
    benefit_shape := fun r hr => by rw [List.mem_singleton.mp hr]; exact ⟨rfl, rfl⟩
    totals_shape := ⟨rfl, rfl⟩ }]
  trailer := typedRow 'P'
  rest := []
  header_shape := fun r hr => by rw [List.mem_singleton.mp hr]; decide
  trailer_shape := rfl

/-- The empty row ends the summarized pass. -/
theorem not_grouped_emptyRowFirst : ¬ emptyRowFirst.Grouped World.start [] :=
  not_grouped_of_untyped _ _ _ (List.cons_ne_nil _ _) fun h =>
    Bool.false_ne_true (h _ List.mem_cons_self)

end OaBills
