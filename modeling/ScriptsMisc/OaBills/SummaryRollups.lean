import ScriptsMisc.Lib.Runs
import ScriptsMisc.OaBills.PageTexts

/-! # The summarized view of the policy summary as a group-by

The second loop of `polSummDefault` sums benefits up while their `SUMM_ROLLUP_INDICATOR` stays the
same. It begins with the indicator of the second row and no sums, moves on before it reads, and
reports the last rollup at the `G` row. `CInt` is applied to the lives of a row and to the most
lives so far, where a row goes on with a rollup, and to the lives that the page shows, when a rollup
is reported.
-/

namespace OaBills.Strict

open Routine
open Vbs (shown)

/-! ## The shape of the rows -/

/-- A benefit: it has an indicator, and its lives are a whole number. -/
def IsBenefit (r : Row) : Prop :=
  r.text .recordType ≠ some ['G'] ∧ (r.text .summRollupIndicator).isSome = true ∧
    ∃ n : ℕ, (r .cvrdLvs).map Cell.number = some (n : ℚ)

/-- The rows `polSummDefault` goes over. -/
structure SummaryRecords where
  initial : Row
  first : Row
  more : List Row
  totals : Row
  rest : List Row
  initial_shape : initial.text .recordType ≠ some ['G']
  benefit_shape : ∀ r ∈ first :: more, IsBenefit r
  totals_shape : totals.text .recordType = some ['G'] ∧ totals.text .summRollupIndicator = none

def SummaryRecords.rows (m : SummaryRecords) : List Row :=
  m.initial :: m.first :: m.more ++ m.totals :: m.rest

/-! ## What is to be reported -/

/-- A run of benefits summed up, with the most lives. -/
def rollupOf (run : List Row) : Rollup where
  name := run.getLast?.bind fun r => r.text .summRollupIndicator
  totalEe := (run.map fun r => r.dbl .summEmpleeContrib).sum
  totalEm := (run.map fun r => r.dbl .summEmplrContrib).sum
  maxLvs := (run.map fun r => r.dbl .cvrdLvs).foldl max 0

/-- The rows have the same indicator. -/
def sameIndicator (before r : Row) : Bool :=
  decide (r.text .summRollupIndicator = before.text .summRollupIndicator)

/-- The maximal runs of benefits with the same indicator. -/
def SummaryRecords.runs (m : SummaryRecords) : List (List Row) :=
  (m.first :: m.more).splitBy sameIndicator

/-- The four checks of every run, in order. -/
def SummaryRecords.groups (m : SummaryRecords) : List Check :=
  m.runs.flatMap fun run => (rollupOf run).checks

/-- On the page the loop completes and reports the runs, and nothing else. -/
def SummaryRecords.Grouped (m : SummaryRecords) (page : Page) (w : World) (before : List Row) :
    Prop :=
  ∃ w', polSummSummarized page { w with rs := some ⟨m.rows, before⟩ } = .ok ((), w') ∧
    w'.log = w.log ++ m.groups.map w.labelled

/-- No row before the totals is without a type. -/
def SummaryRecords.Typed (m : SummaryRecords) : Prop :=
  ∀ r ∈ m.initial :: m.first :: m.more, (r.text .recordType).isSome = true

/-- The rows have types, and `CInt` takes the lives of the first benefit and those of all runs of
more than one. -/
def SummaryRecords.InRange (m : SummaryRecords) : Prop :=
  m.Typed ∧
    m.first.dbl .cvrdLvs ≤ 32767 ∧
    ∀ run ∈ m.runs, run.length ≤ 1 ∨ ∀ r ∈ run, r.dbl .cvrdLvs ≤ 32767

/-! ## One row -/

/-- What a row does to the variables and reports, where `takes` says which numbers `CInt` takes. -/
def summaryStep (takes : ℤ → Bool) (x : Rollup) (r : Row) : Except Error (Rollup × List Check) :=
  if holds (eqNull (r.text .summRollupIndicator) x.name) then
    if takes (OaBills.cInt (r.dbl .cvrdLvs)) && takes (OaBills.cInt x.maxLvs) then .ok (x.add r, [])
    else .error .overflow
  else .ok (Rollup.start r, x.checks)

theorem cInt_natCast (n : ℕ) : OaBills.cInt (n : ℚ) = n := by
  simp [OaBills.cInt]

/-- `CInt` takes what fits into 16 bits. -/
theorem cInt_run (x : ℚ) (w : World) :
    cInt x w = if fits16 (OaBills.cInt x) then .ok (OaBills.cInt x, w) else .error .overflow := by
  unfold cInt fits16
  by_cases h : -32768 ≤ OaBills.cInt x ∧ OaBills.cInt x ≤ 32767
  · rw [if_pos h, decide_eq_true h]
    rfl
  · rw [if_neg h, decide_eq_false h]
    rfl

/-- A row is added when its lives and the most lives so far fit. -/
theorem addRow_run (x : Rollup) (r : Row) (w : World) (hlives : (r .cvrdLvs).isSome = true) :
    addRow x r w =
      if fits16 (OaBills.cInt (r.dbl .cvrdLvs)) && fits16 (OaBills.cInt x.maxLvs) then
        .ok (x.add r, w)
      else .error .overflow := by
  obtain ⟨v, hv⟩ := Option.isSome_iff_exists.mp hlives
  have hdbl : r.dbl .cvrdLvs = v.number := by rw [Row.dbl, hv]; rfl
  have hfield : cIntField r .cvrdLvs = cInt v.number := by rw [cIntField, hv]
  unfold addRow
  rw [hfield, hdbl]
  cases hlvs : fits16 (OaBills.cInt v.number) with
  | false =>
    have herror : cInt v.number w = .error .overflow := by rw [cInt_run, hlvs]; rfl
    rw [bind_error herror]
    rfl
  | true =>
    have hok : cInt v.number w = .ok (OaBills.cInt v.number, w) := by rw [cInt_run, hlvs]; rfl
    rw [bind_run hok]
    cases hmax : fits16 (OaBills.cInt x.maxLvs) with
    | false =>
      have herror : cInt x.maxLvs w = .error .overflow := by rw [cInt_run, hmax]; rfl
      rw [bind_error herror]
      rfl
    | true =>
      have hok : cInt x.maxLvs w = .ok (OaBills.cInt x.maxLvs, w) := by rw [cInt_run, hmax]; rfl
      rw [bind_run hok, Rollup.add, hdbl]
      rfl

section Steps

variable {w : World} {rows rest : List Row} {log : List Check}

/-- A row whose lives are not null does what `summaryStep` says. -/
theorem summaryRow_run (x : Rollup) (c r : Row)
    (hlives : (r.text .summRollupIndicator).isSome = true → (r .cvrdLvs).isSome = true)
    (rest : List Row) (log : List Check) :
    summaryRow .readable x (w.reading rows (c :: r :: rest) log) =
      (summaryStep fits16 x r).map fun y =>
        (y.1, w.reading rows (r :: rest) (log ++ y.2.map w.labelled)) := by
  unfold summaryRow summaryStep
  rw [bind_run (moveNext_cons c), bind_run (current_cons r)]
  by_cases hsame : holds (eqNull (r.text .summRollupIndicator) x.name) = true
  · have hsome : (r.text .summRollupIndicator).isSome = true := by
      cases hr : r.text .summRollupIndicator with
      | none =>
        rw [hr] at hsame
        cases hsame
      | some s => rfl
    rw [if_pos hsame, if_pos hsame, addRow_run x r _ (hlives hsome)]
    split
    · show Except.ok _ = Except.ok (_, w.reading rows (r :: rest) (log ++ [].map w.labelled))
      rw [List.map_nil, List.append_nil]
    · rfl
  · rw [if_neg hsame, if_neg hsame, bind_run (validateElements_log _)]
    rfl

/-- The loop over the benefits. -/
def summaryLoop (fuel : ℕ) (x : Rollup) : Vb Rollup :=
  loop (.ado .stuck)
    (fun _ => rowHolds fun r => notNull (eqNull (r.text .recordType) (some ['G'])))
    (summaryRow .readable) fuel x

/-- The loop ends at the totals. -/
theorem summaryLoop_stop {stop : Row}
    (hstop : stop.text .recordType = none ∨ stop.text .recordType = some ['G']) (fuel : ℕ)
    (x : Rollup) (log : List Check) :
    summaryLoop (fuel + 1) x (w.reading rows (stop :: rest) log) =
      .ok (x, w.reading rows (stop :: rest) log) := by
  have hguard : rowHolds (fun r => notNull (eqNull (r.text .recordType) (some ['G'])))
      (w.reading rows (stop :: rest) log) = .ok (false, w.reading rows (stop :: rest) log) := by
    rw [rowHolds_cons]
    rcases hstop with h | h <;> rw [h] <;> rfl
  rw [summaryLoop, loop, bind_run hguard]
  rfl

/-- Any other row makes a round. -/
theorem summaryLoop_round {c r : Row}
    (hgo : (c.text .recordType).isSome = true ∧ c.text .recordType ≠ some ['G'])
    (hlives : (r.text .summRollupIndicator).isSome = true → (r .cvrdLvs).isSome = true)
    (fuel : ℕ) (x : Rollup) (log : List Check) :
    summaryLoop (fuel + 1) x (w.reading rows (c :: r :: rest) log) =
      (summaryStep fits16 x r).bind fun y =>
        summaryLoop fuel y.1 (w.reading rows (r :: rest) (log ++ y.2.map w.labelled)) := by
  have hguard : rowHolds (fun r => notNull (eqNull (r.text .recordType) (some ['G'])))
      (w.reading rows (c :: r :: rest) log) = .ok (true, w.reading rows (c :: r :: rest) log) := by
    rw [rowHolds_cons, (holds_notNull_eqNull_iff _ _).mpr hgo]
  have hrow : summaryRow .readable x (w.reading rows (c :: r :: rest) log) = _ :=
    summaryRow_run x c r hlives rest log
  rw [summaryLoop, loop, bind_run hguard]
  cases hstep : summaryStep fits16 x r with
  | error e =>
    rw [hstep] at hrow
    exact bind_error hrow _
  | ok y =>
    rw [hstep] at hrow
    exact bind_run hrow _

/-- From a row `c` on the loop takes the rows up to one at which it stops. -/
theorem summaryLoop_run (body : List Row) (c stop : Row) (x : Rollup) (log : List Check)
    (hgo : ∀ r ∈ c :: body, (r.text .recordType).isSome = true ∧ r.text .recordType ≠ some ['G'])
    (hstop : stop.text .recordType = none ∨ stop.text .recordType = some ['G'])
    (hlives : ∀ r ∈ body ++ [stop],
      (r.text .summRollupIndicator).isSome = true → (r .cvrdLvs).isSome = true)
    (fuel : ℕ) (hfuel : (body ++ [stop]).length < fuel) :
    summaryLoop fuel x (w.reading rows (c :: (body ++ stop :: rest)) log) =
      (Runs.pass (summaryStep fits16) x (body ++ [stop])).map fun y =>
        (y.1, w.reading rows (stop :: rest) (log ++ y.2.map w.labelled)) := by
  obtain ⟨fuel, rfl⟩ : ∃ k, fuel = k + 1 := ⟨fuel - 1, by omega⟩
  induction body generalizing c x log fuel with
  | nil =>
    obtain ⟨k, rfl⟩ : ∃ k, fuel = k + 1 := ⟨fuel - 1, by simp at hfuel; omega⟩
    refine (summaryLoop_round (hgo c (by simp)) (hlives stop (by simp)) (k + 1) x log).trans ?_
    rw [List.nil_append]
    cases hstep : summaryStep fits16 x stop with
    | error e =>
      rw [Runs.pass_cons_error hstep]
      rfl
    | ok y =>
      rw [Runs.pass_cons_ok hstep]
      show summaryLoop (k + 1) y.1 _ = Except.ok (y.1, w.reading rows _ (log ++ (y.2 ++ []).map _))
      rw [summaryLoop_stop hstop, List.append_nil]
  | cons b bs ih =>
    obtain ⟨k, rfl⟩ : ∃ k, fuel = k + 1 := ⟨fuel - 1, by simp at hfuel; omega⟩
    refine (summaryLoop_round (hgo c (by simp)) (hlives b (by simp)) (k + 1) x log).trans ?_
    rw [List.cons_append]
    cases hstep : summaryStep fits16 x b with
    | error e =>
      rw [Runs.pass_cons_error hstep]
      rfl
    | ok y =>
      rw [Runs.pass_cons_ok hstep]
      refine (ih b y.1 (log ++ y.2.map w.labelled) (fun r hr => hgo r (List.mem_cons_of_mem _ hr))
        (fun r hr => hlives r (List.mem_cons_of_mem _ hr)) k (by simp at hfuel ⊢; omega)).trans ?_
      cases Runs.pass (summaryStep fits16) y.1 (bs ++ [stop]) with
      | error e => rfl
      | ok z => simp [Except.map]

end Steps

/-! ## Runs of benefits -/

/-- The lives of a benefit are a natural number. -/
theorem IsBenefit.exists_lives {r : Row} (h : IsBenefit r) : ∃ n : ℕ, r.dbl .cvrdLvs = n := by
  obtain ⟨-, -, n, hn⟩ := h
  exact ⟨n, by rw [Row.dbl, hn]; rfl⟩

/-- A rollup grows by its last row. -/
theorem rollupOf_concat (run : List Row) (r : Row) :
    rollupOf (run ++ [r]) =
      ⟨r.text .summRollupIndicator, (rollupOf run).totalEe + r.dbl .summEmpleeContrib,
        (rollupOf run).totalEm + r.dbl .summEmplrContrib,
        max (rollupOf run).maxLvs (r.dbl .cvrdLvs)⟩ := by
  simp [rollupOf]

/-- The most lives of benefits are a whole number. -/
theorem exists_maxLvs {run : List Row} (h : ∀ r ∈ run, IsBenefit r) :
    ∃ n : ℕ, (rollupOf run).maxLvs = n := by
  induction run using List.reverseRecOn with
  | nil => exact ⟨0, by simp [rollupOf]⟩
  | append_singleton run r ih =>
    obtain ⟨m, hm⟩ := ih fun r hr => h r (List.mem_append_left _ hr)
    obtain ⟨n, hn⟩ := (h r (by simp)).exists_lives
    exact ⟨max m n, by rw [rollupOf_concat, hm, hn, Nat.cast_max]⟩

/-- No row has more lives than its rollup. -/
theorem le_maxLvs {run : List Row} {r : Row} (hr : r ∈ run) :
    r.dbl .cvrdLvs ≤ (rollupOf run).maxLvs := by
  induction run using List.reverseRecOn with
  | nil => cases hr
  | append_singleton run r' ih =>
    rw [rollupOf_concat]
    rcases List.mem_append.mp hr with hr | hr
    · exact (ih hr).trans (le_max_left _ _)
    · rw [List.mem_singleton.mp hr]
      exact le_max_right _ _

/-- They are the lives of one of the benefits. -/
theorem exists_eq_maxLvs {run : List Row} (hne : run ≠ []) (h : ∀ r ∈ run, IsBenefit r) :
    ∃ r ∈ run, (rollupOf run).maxLvs = r.dbl .cvrdLvs := by
  induction run using List.reverseRecOn with
  | nil => exact absurd rfl hne
  | append_singleton run r ih =>
    obtain ⟨n, hn⟩ := (h r (by simp)).exists_lives
    rw [rollupOf_concat]
    rcases List.eq_nil_or_concat run with hrun | ⟨run', r', hrun⟩
    · refine ⟨r, by simp, ?_⟩
      rw [hrun, hn]
      simp [rollupOf]
    · obtain ⟨r'', hr'', hmax⟩ := ih (by simp [hrun]) fun r hr => h r (List.mem_append_left _ hr)
      rcases le_total (rollupOf run).maxLvs (r.dbl .cvrdLvs) with hle | hle
      · exact ⟨r, by simp, max_eq_right hle⟩
      · exact ⟨r'', List.mem_append_left _ hr'', (max_eq_left hle).trans hmax⟩

/-- Of whole numbers of lives the larger one is kept. -/
theorem rollup_add_eq {x : Rollup} {r : Row} {m n : ℕ} (hm : x.maxLvs = m)
    (hn : r.dbl .cvrdLvs = n) :
    x.add r =
      ⟨x.name, x.totalEe + r.dbl .summEmpleeContrib, x.totalEm + r.dbl .summEmplrContrib,
        max x.maxLvs (r.dbl .cvrdLvs)⟩ := by
  rw [OaBills.Rollup.add, hm, hn, cInt_natCast, cInt_natCast]
  congr 1
  split
  · next hlt =>
    have hle : (m : ℚ) ≤ n := by exact_mod_cast hlt.le
    rw [max_eq_right hle]
    rfl
  · next hle =>
    have hle' : (n : ℚ) ≤ m := by exact_mod_cast not_lt.mp hle
    rw [max_eq_left hle']

/-- Adding a row of the same name gives the longer rollup. -/
theorem rollupOf_add {run : List Row} {r : Row} (h : ∀ r' ∈ run ++ [r], IsBenefit r')
    (hname : (rollupOf run).name = r.text .summRollupIndicator) :
    (rollupOf run).add r = rollupOf (run ++ [r]) := by
  obtain ⟨m, hm⟩ := exists_maxLvs fun r hr => h r (List.mem_append_left _ hr)
  obtain ⟨n, hn⟩ := (h r (by simp)).exists_lives
  rw [rollupOf_concat, rollup_add_eq hm hn, hname]

/-- A rollup starts with one row. -/
theorem start_eq_rollupOf {r : Row} (h : IsBenefit r) : Rollup.start r = rollupOf [r] := by
  obtain ⟨n, hn⟩ := h.exists_lives
  simp [Rollup.start, rollupOf, hn]

/-- `CInt` takes the lives of a run that is summed up. -/
def RunFits (takes : ℤ → Bool) (run : List Row) : Prop :=
  run.length ≤ 1 ∨ ∀ r ∈ run, takes (OaBills.cInt (r.dbl .cvrdLvs)) = true

/-- Within a run the variables tell whether a row goes on with it. -/
theorem holds_rollupOf {run : List Row} {before r : Row} (h : IsBenefit before) :
    holds (eqNull (r.text .summRollupIndicator) (rollupOf (run ++ [before])).name) =
      sameIndicator before r := by
  obtain ⟨s, hs⟩ := Option.isSome_iff_exists.mp h.2.1
  rw [rollupOf_concat, sameIndicator, hs, Bool.eq_iff_iff, holds_eqNull_iff, decide_eq_true_iff]

/-- The benefits are grouped by their indicators. -/
theorem summaryStep_groups {takes : ℤ → Bool}
    (hmono : ∀ m n : ℕ, m ≤ n → takes n = true → takes m = true) :
    Runs.Groups sameIndicator (summaryStep takes) IsBenefit rollupOf
      (fun run => (rollupOf run).checks) (RunFits takes) where
  goes run x y hP hxy hfits := by
    have hall := hfits.resolve_left (by simp)
    have hbefore : ∀ r ∈ run ++ [x], IsBenefit r := fun r hr => hP r (List.mem_append_left _ hr)
    obtain ⟨r, hr, hmax⟩ := exists_eq_maxLvs (by simp) hbefore
    have hname : (rollupOf (run ++ [x])).name = y.text .summRollupIndicator := by
      rw [rollupOf_concat]
      exact (decide_eq_true_iff.mp hxy).symm
    rw [summaryStep, holds_rollupOf (hP x (by simp)), hxy, hmax, hall y (by simp),
      hall r (List.mem_append_left _ hr), rollupOf_add hP hname]
    rfl
  overruns run x y hP hxy hfits := by
    refine ⟨.overflow, ?_⟩
    have hboth : (takes (OaBills.cInt (y.dbl .cvrdLvs)) &&
        takes (OaBills.cInt (rollupOf (run ++ [x])).maxLvs)) = false := by
      rw [Bool.eq_false_iff]
      intro h
      obtain ⟨hy, hmax⟩ := Bool.and_eq_true_iff.mp h
      refine hfits (.inr fun r hr => ?_)
      rcases List.mem_append.mp hr with hr | hr
      · -- no lives before exceed the most
        obtain ⟨m, hm⟩ := exists_maxLvs fun r hr => hP r (List.mem_append_left _ hr)
        obtain ⟨n, hn⟩ := (hP r (List.mem_append_left _ hr)).exists_lives
        have hle := le_maxLvs hr
        rw [hm, hn] at hle
        rw [hm, cInt_natCast] at hmax
        rw [hn, cInt_natCast]
        exact hmono n m (by exact_mod_cast hle) hmax
      · rw [List.mem_singleton.mp hr]
        exact hy
    rw [summaryStep, holds_rollupOf (hP x (by simp)), hxy, hboth]
    rfl
  breaks run x y hP hxy := by
    rw [summaryStep, holds_rollupOf (hP x (by simp)), hxy, start_eq_rollupOf (hP y (by simp))]
    rfl
  closed hsub hfits := by
    rcases hfits with hfits | hfits
    · exact .inl (hsub.length_le.trans hfits)
    · exact .inr fun r hr => hfits r (hsub.subset hr)
  single _ := .inl (Nat.le_refl 1)

/-! ## The whole loop -/

/-- The variables before the first benefit. -/
def SummaryRecords.start (m : SummaryRecords) : Rollup :=
  ⟨m.first.text .summRollupIndicator, 0, 0, 0⟩

theorem SummaryRecords.first_benefit (m : SummaryRecords) : IsBenefit m.first :=
  m.benefit_shape m.first List.mem_cons_self

/-- The first benefit goes on with the variables set up for it. -/
theorem summaryStep_first (m : SummaryRecords) (takes : ℤ → Bool) (hzero : takes 0 = true) :
    summaryStep takes m.start m.first =
      if takes (OaBills.cInt (m.first.dbl .cvrdLvs)) then .ok (rollupOf [m.first], [])
      else .error .overflow := by
  obtain ⟨s, hs⟩ := Option.isSome_iff_exists.mp m.first_benefit.2.1
  have hsame : holds (eqNull (m.first.text .summRollupIndicator) m.start.name) = true := by
    rw [SummaryRecords.start, hs, holds_eqNull_iff]
  have hmax : OaBills.cInt m.start.maxLvs = 0 := cInt_natCast 0
  have hadd : m.start.add m.first = rollupOf [m.first] := by
    obtain ⟨n, hn⟩ := m.first_benefit.exists_lives
    have hmax : m.start.maxLvs = (0 : ℕ) := Nat.cast_zero.symm
    rw [rollup_add_eq hmax hn]
    simp [rollupOf, SummaryRecords.start]
  rw [summaryStep, hsame, hmax, hzero, Bool.and_true, hadd]
  rfl

/-- The totals end the last run. -/
theorem summaryStep_totals (m : SummaryRecords) (takes : ℤ → Bool) (x : Rollup) :
    summaryStep takes x m.totals = .ok (Rollup.start m.totals, x.checks) := by
  rw [summaryStep, m.totals_shape.2]
  rfl

/-- A pass over all benefits that fit reports the runs. -/
theorem pass_groups (m : SummaryRecords) {takes : ℤ → Bool} (hzero : takes 0 = true)
    (hmono : ∀ m n : ℕ, m ≤ n → takes n = true → takes m = true)
    (hfirst : takes (OaBills.cInt (m.first.dbl .cvrdLvs)) = true)
    (hruns : ∀ run ∈ m.runs, RunFits takes run) :
    Runs.pass (summaryStep takes) m.start (m.first :: m.more ++ [m.totals]) =
      .ok (Rollup.start m.totals, m.groups) := by
  have hstep := summaryStep_first m takes hzero
  rw [hfirst, if_pos rfl] at hstep
  have hclose : ∀ run r, summaryStep takes (rollupOf (run ++ [r])) m.totals =
      .ok (Rollup.start m.totals, (rollupOf (run ++ [r])).checks ++ []) := fun run r => by
    rw [summaryStep_totals, List.append_nil]
  rw [List.cons_append, Runs.pass_cons_ok hstep,
    (summaryStep_groups hmono).pass_closed m.first m.more m.benefit_shape hruns hclose,
    List.append_nil]
  rfl

/-- A pass fails on runs that do not fit. -/
theorem pass_error (m : SummaryRecords) {takes : ℤ → Bool} (hzero : takes 0 = true)
    (hmono : ∀ m n : ℕ, m ≤ n → takes n = true → takes m = true)
    (h : ¬ (takes (OaBills.cInt (m.first.dbl .cvrdLvs)) = true ∧
      ∀ run ∈ m.runs, RunFits takes run)) :
    ∃ e, Runs.pass (summaryStep takes) m.start (m.first :: m.more ++ [m.totals]) = .error e := by
  have hstep := summaryStep_first m takes hzero
  cases hfirst : takes (OaBills.cInt (m.first.dbl .cvrdLvs)) with
  | false =>
    rw [hfirst] at hstep
    exact ⟨.overflow, Runs.pass_cons_error hstep _⟩
  | true =>
    rw [hfirst] at hstep
    obtain ⟨e, he⟩ := (summaryStep_groups hmono).pass_error [] m.first m.more (by simp)
      m.benefit_shape (.inl (Nat.le_refl 1)) fun hruns => h ⟨hfirst, hruns⟩
    refine ⟨e, ?_⟩
    rw [List.cons_append, Runs.pass_cons_ok hstep, Runs.pass_append]
    rw [List.nil_append] at he
    rw [he]
    rfl

/-- Lives fit up to 32767. -/
theorem fits16_iff {r : Row} (h : IsBenefit r) :
    fits16 (OaBills.cInt (r.dbl .cvrdLvs)) = true ↔ r.dbl .cvrdLvs ≤ 32767 := by
  obtain ⟨n, hn⟩ := h.exists_lives
  rw [hn, cInt_natCast, fits16, decide_eq_true_iff]
  constructor
  · rintro ⟨-, h⟩
    exact_mod_cast h
  · intro h
    exact ⟨by omega, by exact_mod_cast h⟩

/-- Fewer lives fit when more do. -/
theorem fits16_mono (m n : ℕ) (hle : m ≤ n) (h : fits16 n = true) : fits16 m = true := by
  rw [fits16, decide_eq_true_iff] at h ⊢
  omega

/-- The lives are in range when `CInt` takes them. -/
theorem inRange_iff (m : SummaryRecords) :
    m.InRange ↔ m.Typed ∧
      fits16 (OaBills.cInt (m.first.dbl .cvrdLvs)) = true ∧
        ∀ run ∈ m.runs, RunFits fits16 run := by
  have hrun : ∀ run ∈ m.runs, (RunFits fits16 run ↔
      (run.length ≤ 1 ∨ ∀ r ∈ run, r.dbl .cvrdLvs ≤ 32767)) := by
    intro run hrun
    have hmem : ∀ r ∈ run, IsBenefit r := fun r hr => by
      refine m.benefit_shape r ?_
      rw [← List.flatten_splitBy sameIndicator (m.first :: m.more)]
      exact List.mem_flatten.mpr ⟨run, hrun, hr⟩
    exact or_congr_right (forall₂_congr fun r hr => fits16_iff (hmem r hr))
  rw [SummaryRecords.InRange, fits16_iff m.first_benefit]
  refine and_congr_right fun _ => and_congr_right fun _ => ?_
  exact forall₂_congr fun run h => (hrun run h).symm

theorem rollup_checks_ne_nil (x : Rollup) : x.checks ≠ [] := List.cons_ne_nil _ _

theorem groups_ne_nil (m : SummaryRecords) : m.groups ≠ [] := by
  have hruns : m.runs ≠ [] := List.splitBy_ne_nil.mpr (List.cons_ne_nil _ _)
  obtain ⟨run, runs, hcons⟩ := List.exists_cons_of_ne_nil hruns
  rw [SummaryRecords.groups, hcons, List.flatMap_cons]
  exact List.append_ne_nil_of_left_ne_nil (rollup_checks_ne_nil _) _

/-- Where `CInt` takes the numbers it does not matter which ones it takes. -/
theorem pass_of_takes {takes : ℤ → Bool} {x : Rollup} {rs : List Row} {q : Rollup × List Check}
    (h : Runs.pass (summaryStep takes) x rs = .ok q) :
    Runs.pass (summaryStep fun _ => true) x rs = .ok q := by
  induction rs generalizing x q with
  | nil => exact h
  | cons r rs ih =>
    cases hstep : summaryStep takes x r with
    | error e =>
      rw [Runs.pass_cons_error hstep] at h
      cases h
    | ok y =>
      have hall : summaryStep (fun _ => true) x r = .ok y := by
        unfold summaryStep at hstep ⊢
        split at hstep
        · next hsame =>
          rw [if_pos hsame]
          split at hstep
          · exact hstep
          · cases hstep
        · next hdiff =>
          rw [if_neg hdiff]
          exact hstep
      rw [Runs.pass_cons_ok hstep] at h
      rw [Runs.pass_cons_ok hall]
      cases hpass : Runs.pass (summaryStep takes) y.1 rs with
      | error e =>
        rw [hpass] at h
        cases h
      | ok z =>
        rw [hpass] at h
        rw [ih hpass]
        exact h

/-- A pass that stops before the totals has not reported all runs. -/
theorem pass_ne_groups (m : SummaryRecords) {pre post : List Row} {r : Row}
    (hrows : m.first :: m.more = pre ++ r :: post) {y : Rollup} {out : List Check}
    (h : Runs.pass (summaryStep fits16) m.start (pre ++ [r]) = .ok (y, out)) : out ≠ m.groups := by
  intro hout
  have hgroups : Runs.pass (summaryStep fun _ => true) m.start _ = _ :=
    pass_groups m rfl (fun _ _ _ _ => rfl) rfl fun _ _ => .inr fun _ _ => rfl
  have hlist : m.first :: m.more ++ [m.totals] = (pre ++ [r]) ++ (post ++ [m.totals]) := by
    rw [hrows]
    simp
  rw [hlist, Runs.pass_append, pass_of_takes h, ← hout] at hgroups
  replace hgroups : (Runs.pass (summaryStep fun _ => true) y (post ++ [m.totals])).map
      (fun q => (q.1, out ++ q.2)) = .ok (Rollup.start m.totals, out) := hgroups
  rw [Runs.pass_append] at hgroups
  cases hpost : Runs.pass (summaryStep fun _ => true) y post with
  | error e =>
    rw [hpost] at hgroups
    cases hgroups
  | ok z =>
    -- the totals report at least one run more
    rw [hpost] at hgroups
    replace hgroups : ((Runs.pass (summaryStep fun _ => true) z.1 [m.totals]).map
        (fun q => (q.1, z.2 ++ q.2))).map (fun q => (q.1, out ++ q.2)) = .ok (_, out) := hgroups
    rw [Runs.pass_cons_ok (summaryStep_totals m _ z.1)] at hgroups
    have hnil := List.append_right_eq_self.mp (congrArg Prod.snd (Except.ok.inj hgroups))
    have hchecks : z.1.checks ++ [] = [] := (List.append_eq_nil_iff.mp hnil).2
    rw [List.append_nil] at hchecks
    exact rollup_checks_ne_nil _ hchecks

/-! ## The routine -/

section Summarized

variable {w : World} {log : List Check}

/-- The rollups are one loop over the rows. -/
theorem polSummSummarized_eq (m : SummaryRecords) (before : List Row) :
    polSummSummarized .readable (w.reading m.rows before log) =
      (summaryLoop (m.rows.length + 1) m.start (w.reading m.rows m.rows log)).map
        fun y => ((), y.2) := by
  let rest := m.first :: (m.more ++ m.totals :: m.rest)
  have hfirst : ∀ rest, moveFirst (w.reading m.rows rest log) =
      .ok ((), w.reading m.rows m.rows log) := fun _ => moveFirst_cons m.initial
  have hnext : moveNext (w.reading m.rows m.rows log) = .ok ((), w.reading m.rows rest log) :=
    moveNext_cons m.initial
  have hrow : current (w.reading m.rows rest log) = .ok (m.first, w.reading m.rows rest log) :=
    current_cons m.first
  unfold polSummSummarized
  rw [bind_run (hfirst before), bind_run hnext, bind_run hrow, bind_run (hfirst rest)]
  have hwhile : whileRow (fun r => notNull (eqNull (r.text .recordType) (some ['G']))) m.start
      (summaryRow .readable) (w.reading m.rows m.rows log) =
      summaryLoop (m.rows.length + 1) m.start (w.reading m.rows m.rows log) := rfl
  cases hloop : summaryLoop (m.rows.length + 1) m.start (w.reading m.rows m.rows log) with
  | error e => exact bind_error (hwhile.trans hloop) _
  | ok y => exact bind_run (hwhile.trans hloop) _

/-- Every row with a name has lives. -/
theorem summaryRecords_lives (m : SummaryRecords) : ∀ r ∈ m.first :: m.more ++ [m.totals],
    (r.text .summRollupIndicator).isSome = true → (r .cvrdLvs).isSome = true := by
  intro r hr hsome
  rcases List.mem_append.mp hr with hr | hr
  · obtain ⟨-, -, n, hn⟩ := m.benefit_shape r hr
    rw [Option.isSome_iff_ne_none]
    intro hnone
    rw [hnone] at hn
    cases hn
  · rw [List.mem_singleton.mp hr, m.totals_shape.2] at hsome
    cases hsome

/-- With typed rows the routine is a pass over all benefits. -/
theorem polSummSummarized_typed (m : SummaryRecords) (w : World) (before : List Row)
    (log : List Check)
    (htyped : m.Typed) :
    polSummSummarized .readable (w.reading m.rows before log) =
      (Runs.pass (summaryStep fits16) m.start (m.first :: m.more ++ [m.totals])).map fun y =>
        ((), w.reading m.rows (m.totals :: m.rest) (log ++ y.2.map w.labelled)) := by
  have hgo : ∀ r ∈ m.initial :: m.first :: m.more,
      (r.text .recordType).isSome = true ∧ r.text .recordType ≠ some ['G'] := by
    intro r hr
    refine ⟨htyped r hr, ?_⟩
    rcases List.mem_cons.mp hr with rfl | hr
    · exact m.initial_shape
    · exact (m.benefit_shape r hr).1
  rw [polSummSummarized_eq, SummaryRecords.rows]
  refine (congrArg _ (summaryLoop_run (m.first :: m.more) m.initial m.totals m.start log hgo
    (.inr m.totals_shape.1) (summaryRecords_lives m) _ ?_)).trans ?_
  · simp only [List.length_append, List.length_cons, List.length_nil]
    omega
  · cases Runs.pass (summaryStep fits16) m.start (m.first :: m.more ++ [m.totals]) <;> rfl

/-- Without a type on some row it does not report all runs. -/
theorem not_grouped_of_untyped (m : SummaryRecords) (w : World) (before : List Row)
    (huntyped : ¬ m.Typed) :
    ¬ m.Grouped .readable w before := by
  rintro ⟨w', hrun, hlog⟩
  have hstart : polSummSummarized .readable (w.reading m.rows before w.log) = .ok ((), w') := hrun
  rw [polSummSummarized_eq] at hstart
  by_cases hinitial : m.initial.text .recordType = none
  · -- the loop is not entered
    have hstop : summaryLoop (m.rows.length + 1) m.start (w.reading m.rows m.rows w.log) =
        .ok (m.start, w.reading m.rows m.rows w.log) :=
      summaryLoop_stop (.inl hinitial) _ _ _
    rw [hstop] at hstart
    cases hstart
    exact groups_ne_nil m (List.map_eq_nil_iff.mp (List.append_right_eq_self.mp hlog.symm))
  · have hsome : ∃ r ∈ m.first :: m.more, r.text .recordType = none := by
      by_contra hnone
      refine huntyped fun r hr => Option.isSome_iff_ne_none.mpr fun hr' => ?_
      rcases List.mem_cons.mp hr with rfl | hr
      · exact hinitial hr'
      · exact hnone ⟨r, hr, hr'⟩
    obtain ⟨pre, r, post, hrows, hpre, hr⟩ := exists_first hsome
    have hall : m.rows = m.initial :: (pre ++ r :: (post ++ m.totals :: m.rest)) := by
      rw [SummaryRecords.rows, List.cons_append, hrows]
      simp
    have hgo : ∀ r ∈ m.initial :: pre,
        (r.text .recordType).isSome = true ∧ r.text .recordType ≠ some ['G'] := by
      intro r hr
      rcases List.mem_cons.mp hr with rfl | hr
      · exact ⟨Option.isSome_iff_ne_none.mpr hinitial, m.initial_shape⟩
      · refine ⟨Option.isSome_iff_ne_none.mpr (hpre r hr), (m.benefit_shape r ?_).1⟩
        rw [hrows]
        exact List.mem_append_left _ hr
    have hlives : ∀ r' ∈ pre ++ [r],
        (r'.text .summRollupIndicator).isSome = true → (r' .cvrdLvs).isSome = true := by
      intro r' hr'
      refine summaryRecords_lives m r' (List.mem_append_left _ ?_)
      rw [hrows, List.append_cons]
      exact List.mem_append_left _ hr'
    have hlength : (pre ++ [r]).length < m.rows.length + 1 := by
      rw [hall]
      simp only [List.length_append, List.length_cons, List.length_nil]
      omega
    have hloop : summaryLoop (m.rows.length + 1) m.start (w.reading m.rows
        (m.initial :: (pre ++ r :: (post ++ m.totals :: m.rest))) w.log) = _ :=
      summaryLoop_run pre m.initial r m.start w.log hgo (.inl hr) hlives _ hlength
    rw [← hall] at hloop
    rw [hloop] at hstart
    cases hpass : Runs.pass (summaryStep fits16) m.start (pre ++ [r]) with
    | error e =>
      rw [hpass] at hstart
      cases hstart
    | ok y =>
      rw [hpass] at hstart
      cases hstart
      have hmap : y.2.map w.labelled = m.groups.map w.labelled := List.append_cancel_left hlog
      exact pass_ne_groups m hrows hpass
        (List.map_injective_iff.mpr (labelled_injective w) hmap)

/-- Out of range the routine fails. -/
theorem not_grouped_of_error (m : SummaryRecords) (w : World) (before : List Row)
    (htyped : m.Typed)
    (h : ¬ (fits16 (OaBills.cInt (m.first.dbl .cvrdLvs)) = true ∧
      ∀ run ∈ m.runs, RunFits fits16 run)) : ¬ m.Grouped .readable w before := by
  rintro ⟨w', hrun, -⟩
  obtain ⟨e, he⟩ := pass_error m rfl fits16_mono h
  have hstart : polSummSummarized .readable (w.reading m.rows before w.log) = .ok ((), w') := hrun
  rw [polSummSummarized_typed m w before w.log htyped, he] at hstart
  cases hstart

/-- On a page whose texts are converted the loop does what it is to do in range. -/
theorem grouped_readable_iff (m : SummaryRecords) (w : World) (before : List Row) :
    m.Grouped .readable w before ↔ m.InRange := by
  rw [inRange_iff]
  constructor
  · intro hgrouped
    have htyped := by_contra fun h => not_grouped_of_untyped m w before h hgrouped
    exact ⟨htyped, by_contra fun h => not_grouped_of_error m w before htyped h hgrouped⟩
  · rintro ⟨htyped, hfirst, hruns⟩
    have hrun := polSummSummarized_typed m w before w.log htyped
    rw [pass_groups m rfl fits16_mono hfirst hruns] at hrun
    exact ⟨_, hrun, rfl⟩

/-- On any other page its checks must read the page as well. -/
theorem grouped_iff (m : SummaryRecords) (page : Page) (w : World) (before : List Row) :
    m.Grouped page w before ↔ m.InRange ∧ page.ReadBy w.log.length m.groups := by
  rw [← grouped_readable_iff m w before]
  have hlog : ∀ w' : World, w'.log = w.log ++ m.groups.map w.labelled →
      (page.guards.Pass { w with rs := some ⟨m.rows, before⟩ } w' ↔
        page.ReadBy w.log.length m.groups) := fun w' h =>
    pass_of_log (w := { w with rs := some ⟨m.rows, before⟩ }) h
  constructor
  · rintro ⟨w', hrun, hw'⟩
    obtain ⟨hreadable, hpass⟩ := (polSummSummarized_guarded.run_iff _ _).mp hrun
    exact ⟨⟨w', hreadable, hw'⟩, (hlog w' hw').mp hpass⟩
  · rintro ⟨⟨w', hrun, hw'⟩, hread⟩
    exact ⟨w', (polSummSummarized_guarded.run_iff _ _).mpr ⟨hrun, (hlog w' hw').mpr hread⟩, hw'⟩

/-! ## The page that is expected -/

/-- Under the ids of the checks, which come after `n` others, the page has elements with the
numbers that are expected. -/
def Page.Shows (page : Page) (n : ℕ) (cs : List Check) : Prop :=
  ∀ i c, cs[i]? = some c → ∃ found, page.shows (n + i) c.htmlId = some found ∧
    ∀ x, c.expected = .number x → found.number = some x

/-- Of the checks of a rollup only that of the lives may fail on a page that shows what they
expect. -/
theorem readBy_checks_iff {page : Page} {n : ℕ} {cs : List Check} (hshows : page.Shows n cs)
    (hcs : ∀ c ∈ cs, ∃ x : Rollup, c ∈ x.checks) :
    page.ReadBy n cs ↔ ∀ c ∈ cs, c.typ = .int → ∀ x, c.expected = .number x →
      fits16 (OaBills.cInt x) = true := by
  constructor
  · intro hread c hc hint x hx
    obtain ⟨i, hi⟩ := List.mem_iff_getElem?.mp hc
    obtain ⟨found, hfound, hnumber⟩ := hshows i c hi
    have hreads := hread i c hi
    rw [Page.reads, hfound, Option.any_some, hint, Found.converts, hnumber x hx] at hreads
    exact hreads
  · intro hfits i c hi
    obtain ⟨found, hfound, hnumber⟩ := hshows i c hi
    obtain ⟨x, hx⟩ := hcs c (List.mem_of_getElem? hi)
    have hlives := hfits c (List.mem_of_getElem? hi)
    rw [Page.reads, hfound, Option.any_some]
    simp only [Rollup.checks, List.mem_cons, List.not_mem_nil, or_false] at hx
    rcases hx with rfl | rfl | rfl | rfl
    · rfl
    · rw [numberCheck, Found.converts, hnumber _ rfl]
      exact hlives rfl _ rfl
    · rw [numberCheck, Found.converts, hnumber _ rfl]
      rfl
    · rw [numberCheck, Found.converts, hnumber _ rfl]
      rfl

/-- `CInt` takes the most lives of a run when it takes those of every row. -/
theorem fits16_maxLvs_iff {run : List Row} (hne : run ≠ []) (h : ∀ r ∈ run, IsBenefit r) :
    fits16 (OaBills.cInt (rollupOf run).maxLvs) = true ↔ ∀ r ∈ run, r.dbl .cvrdLvs ≤ 32767 := by
  obtain ⟨r, hr, hmax⟩ := exists_eq_maxLvs hne h
  rw [hmax, fits16_iff (h r hr), ← hmax]
  exact ⟨fun hle r hr => (le_maxLvs hr).trans hle, fun hall => hmax ▸ hall r hr⟩

/-- The runs are made of the benefits. -/
theorem mem_runs_iff (m : SummaryRecords) (r : Row) :
    (∃ run ∈ m.runs, r ∈ run) ↔ r ∈ m.first :: m.more := by
  rw [← List.mem_flatten, SummaryRecords.runs, List.flatten_splitBy]

/-- On a page that shows what the checks expect they read it when no row has too many lives. -/
theorem readBy_groups_iff (m : SummaryRecords) {page : Page} {n : ℕ}
    (hshows : page.Shows n m.groups) :
    page.ReadBy n m.groups ↔ ∀ r ∈ m.first :: m.more, r.dbl .cvrdLvs ≤ 32767 := by
  have hbenefit : ∀ run ∈ m.runs, ∀ r ∈ run, IsBenefit r := fun run hrun r hr =>
    m.benefit_shape r ((mem_runs_iff m r).mp ⟨run, hrun, hr⟩)
  have hmem : ∀ c ∈ m.groups, ∃ x : Rollup, c ∈ x.checks := fun c hc => by
    obtain ⟨run, -, hc⟩ := List.mem_flatMap.mp hc
    exact ⟨_, hc⟩
  rw [readBy_checks_iff hshows hmem]
  constructor
  · intro h r hr
    obtain ⟨run, hrun, hr⟩ := (mem_runs_iff m r).mpr hr
    refine (fits16_maxLvs_iff (List.ne_nil_of_mem hr) (hbenefit run hrun)).mp ?_ r hr
    refine h (numberCheck (shown (rollupOf run).name) " Lives" (rollupOf run).maxLvs .int) ?_ rfl _
      rfl
    exact List.mem_flatMap.mpr ⟨run, hrun, by simp [Rollup.checks]⟩
  · intro h c hc hint x hx
    obtain ⟨run, hrun, hc⟩ := List.mem_flatMap.mp hc
    have hne : run ≠ [] := List.ne_nil_of_mem_splitBy hrun
    have hfits := (fits16_maxLvs_iff hne (hbenefit run hrun)).mpr fun r hr =>
      h r ((mem_runs_iff m r).mp ⟨run, hrun, hr⟩)
    simp only [Rollup.checks, List.mem_cons, List.not_mem_nil, or_false] at hc
    rcases hc with rfl | rfl | rfl | rfl
    · cases hint
    · cases hx
      exact hfits
    · cases hint
    · cases hint

/-- A page that shows the numbers the checks expect, when there are no others before them. -/
def Page.expected (cs : List Check) : Page where
  shows n _ := cs[n]?.map fun c =>
    ⟨match c.expected with
      | .number x => some x
      | .text _ => none, true⟩

/-- A page that shows what is expected shows it to every check. -/
theorem shows_expected (cs : List Check) : (Page.expected cs).Shows 0 cs := by
  intro i c hc
  refine ⟨⟨match c.expected with
      | .number x => some x
      | .text _ => none, true⟩, ?_, fun x hx => ?_⟩
  · simp only [Page.expected, Nat.zero_add, hc, Option.map_some]
  · rw [hx]

/-- A benefit of this coverage with so many lives. -/
def benefitRow (name : String) (lives : ℕ) : Row :=
  Row.of [(.recordType, ⟨['F'], 0⟩), (.summRollupIndicator, ⟨name.toList, 0⟩),
    (.cvrdLvs, ⟨Nat.toDigits 10 lives, lives⟩)]

/-- A row with a name and lives is a benefit. -/
theorem isBenefit_benefitRow (name : String) (lives : ℕ) : IsBenefit (benefitRow name lives) :=
  ⟨by simp [benefitRow, Row.of, Row.text], rfl, lives, rfl⟩

/-- Ten lives under `LIFE`, and 40000 in a single row under `DEN`. -/
def twoRollups : SummaryRecords where
  initial := typedRow 'D'
  first := benefitRow "LIFE" 10
  more := [benefitRow "DEN" 40000]
  totals := typedRow 'G'
  rest := []
  initial_shape := by decide
  benefit_shape := by simp [isBenefit_benefitRow]
  totals_shape := ⟨rfl, rfl⟩

/-- One benefit with 40000 lives. -/
def manyLives : SummaryRecords where
  initial := typedRow 'D'
  first := benefitRow "LIFE" 40000
  more := []
  totals := typedRow 'G'
  rest := []
  initial_shape := by decide
  benefit_shape := by simp [isBenefit_benefitRow]
  totals_shape := ⟨rfl, rfl⟩

end Summarized

end OaBills.Strict
