import Mathlib.Data.List.TakeWhile
import ScriptsMisc.OaBills.Validation

/-! # The two passes over the members

`validateMemberDetails` goes over the member rows twice: block by block in the detailed view, and
row by row in `memberDetailSummarized`, which takes a row for a member's first one when the row
before it has no member number. Both check the name of every member on the page.
-/

namespace OaBills

open Routine

/-! ## The shape of the member rows -/

/-- The rows of one member: maybe a row before them without the number, benefits, totals. -/
structure MemberBlock where
  mbrNo : Str
  memberRow : Option Row
  first : Row
  more : List Row
  totals : Row
  memberRow_shape : ∀ r ∈ memberRow, r.text .recordType = some ['M'] ∧ r.text .mbrNo = none
  benefit_shape : ∀ r ∈ first :: more, r.text .recordType = some ['N'] ∧ r.text .mbrNo = some mbrNo
  totals_shape : totals.text .recordType = some ['O'] ∧ totals.text .mbrNo = some mbrNo

/-- The rows from the first benefit on. -/
def MemberBlock.numbered (b : MemberBlock) : List Row := b.first :: b.more ++ [b.totals]

def MemberBlock.rows (b : MemberBlock) : List Row := b.memberRow.toList ++ b.numbered

/-- The rows `validateMemberDetails` walks over. -/
structure MemberRecords where
  header : List Row
  blocks : List MemberBlock
  trailer : Row
  rest : List Row
  header_shape : ∀ r ∈ header, r.text .mbrNo = none ∧ r.text .recordType ≠ some ['N'] ∧
    r.text .recordType ≠ some ['P']
  blocks_ne : blocks ≠ []
  distinct : (blocks.map MemberBlock.mbrNo).Nodup
  trailer_shape : trailer.text .recordType = some ['P']

/-- The rows from the trailer on. -/
def MemberRecords.after (m : MemberRecords) : List Row := m.trailer :: m.rest

def MemberRecords.rows (m : MemberRecords) : List Row :=
  m.header ++ m.blocks.flatMap MemberBlock.rows ++ m.after

/-- The block without the row that has no number. -/
def MemberBlock.bare (b : MemberBlock) : MemberBlock :=
  { b with memberRow := none, memberRow_shape := by simp }

/-- The rows with numbers are benefits and totals of the member. -/
theorem MemberBlock.numbered_shape (b : MemberBlock) :
    ∀ r ∈ b.numbered, (r.text .recordType = some ['N'] ∨ r.text .recordType = some ['O']) ∧
      r.text .mbrNo = some b.mbrNo := by
  intro r hr
  rcases List.mem_append.mp hr with hr | hr
  · exact ⟨.inl (b.benefit_shape r hr).1, (b.benefit_shape r hr).2⟩
  · rw [List.mem_singleton.mp hr]
    exact ⟨.inr b.totals_shape.1, b.totals_shape.2⟩

/-- Every row of a block has a type, and is no trailer. -/
theorem MemberBlock.rows_type (b : MemberBlock) :
    ∀ r ∈ b.rows, (r.text .recordType).isSome = true ∧ r.text .recordType ≠ some ['P'] := by
  intro r hr
  rcases List.mem_append.mp hr with hr | hr
  · rw [(b.memberRow_shape r (Option.mem_toList.mp hr)).1]
    decide
  · rcases (b.numbered_shape r hr).1 with h | h <;> rw [h] <;> decide

/-! ## The detailed pass -/

/-- The checks of a block in the detailed view. -/
def MemberBlock.detailChecks (w : World) (b : MemberBlock) : List Check :=
  nameCheck b.first :: (b.first :: b.more).flatMap (benefitChecks w) ++ totalChecks w b.totals

section Detailed

variable {w : World} {rows rest : List Row} {log : List Check}

/-- The benefits of a member are checked up to its totals. -/
theorem validateMemberDetailBenefits_run (b : MemberBlock) :
    validateMemberDetailBenefits (w.reading rows (b.first :: b.more ++ b.totals :: rest) log) =
      .ok ((), w.reading rows (b.totals :: rest)
        (log ++ ((b.first :: b.more).flatMap (benefitChecks w)).map w.labelled)) := by
  unfold validateMemberDetailBenefits
  rw [← scanned_unit]
  apply whileRow_scan (fun _ _ => ()) fun _ => benefitChecks w
  · intro _ r rest log
    rw [get_bind_run, bind_run (current_cons r), bind_run (validateElements_log _)]
    exact moveNext_cons r
  · intro r hr
    rw [orNull_false, holds_notNull_eqNull_iff, (b.benefit_shape r hr).1]
    decide
  · intro r hr
    obtain rfl : b.totals = r := by simpa using hr
    rw [b.totals_shape.1]
    rfl

/-- A round from the first benefit of a member on. -/
theorem memberRound_numbered (b : MemberBlock) :
    (do
      let r ← current
      validateElements [nameCheck r]
      validateMemberDetailBenefits
      validateMemberDetailTotals
      moveNext) (w.reading rows (b.numbered ++ rest) log) =
      .ok ((), w.reading rows rest (log ++ (b.detailChecks w).map w.labelled)) := by
  have hrows : b.numbered ++ rest = b.first :: (b.more ++ b.totals :: rest) := by
    simp [MemberBlock.numbered]
  rw [hrows, bind_run (current_cons _), bind_run (validateElements_log _), ← List.cons_append,
    bind_run (validateMemberDetailBenefits_run b)]
  unfold validateMemberDetailTotals
  rw [bind_run ((get_bind_run _ _).trans ((bind_run (current_cons _) _).trans
    (validateElements_log _)))]
  refine (moveNext_cons _).trans ?_
  simp only [MemberBlock.detailChecks, List.map_append, List.map_cons, List.map_nil,
    List.append_assoc, List.cons_append, List.nil_append]
  rfl

/-- A round checks the rows of one member. -/
theorem memberRound_run (b : MemberBlock) :
    memberRound (w.reading rows (b.rows ++ rest) log) =
      .ok ((), w.reading rows rest (log ++ (b.detailChecks w).map w.labelled)) := by
  unfold memberRound MemberBlock.rows
  cases hrow : b.memberRow with
  | none =>
    have hfirst := (b.benefit_shape b.first List.mem_cons_self).1
    show (current >>= _) (w.reading rows (b.first :: (b.more ++ [b.totals] ++ rest)) log) = _
    rw [bind_run (current_cons _), hfirst]
    exact memberRound_numbered b
  | some r =>
    have hr := (b.memberRow_shape r hrow).1
    show (current >>= _) (w.reading rows (r :: (b.numbered ++ rest)) log) = _
    rw [bind_run (current_cons _), hr]
    exact (bind_run (moveNext_cons r) _).trans (memberRound_numbered b)

theorem length_le_flatMap_rows (bs : List MemberBlock) :
    bs.length ≤ (bs.flatMap MemberBlock.rows).length := by
  induction bs with
  | nil => exact Nat.le_refl 0
  | cons b bs ih =>
    simp only [List.flatMap_cons, List.length_append, List.length_cons, MemberBlock.rows,
      MemberBlock.numbered]
    omega

/-- The loop condition over the members at the first row of a block. -/
theorem rowHolds_rows (b : MemberBlock) :
    rowHolds (fun r => notNull (orNull (some false) (eqNull (r.text .recordType) (some ['P']))))
        (w.reading rows (b.rows ++ rest) log) =
      .ok (true, w.reading rows (b.rows ++ rest) log) := by
  obtain ⟨r, rs, hrows⟩ : ∃ r rs, b.rows = r :: rs := by
    cases hrow : b.memberRow <;> simp [MemberBlock.rows, MemberBlock.numbered, hrow]
  have hr := b.rows_type r (by rw [hrows]; exact List.mem_cons_self)
  rw [← holds_notNull_eqNull_iff, ← orNull_false (eqNull _ _)] at hr
  rw [hrows]
  exact (rowHolds_run_cons rfl rfl _).trans (by rw [hr])

/-- The loop over the members makes a round for each block. -/
theorem members_runs (m : MemberRecords) (bs : List MemberBlock) (log : List Check) :
    LoopRuns
      (fun _ => rowHolds fun r =>
        notNull (orNull (some false) (eqNull (r.text .recordType) (some ['P']))))
      (fun _ => memberRound) bs.length ()
      (w.reading rows (bs.flatMap MemberBlock.rows ++ m.after) log) ()
      (w.reading rows m.after
        (log ++ (bs.flatMap (MemberBlock.detailChecks w)).map w.labelled)) := by
  induction bs generalizing log with
  | nil =>
    rw [List.flatMap_nil, List.flatMap_nil, List.map_nil, List.append_nil, List.nil_append]
    apply LoopRuns.stop
    refine (rowHolds_run_cons rfl rfl _).trans ?_
    rw [m.trailer_shape]
    rfl
  | cons b bs ih =>
    have hrest := ih (log ++ (b.detailChecks w).map w.labelled)
    rw [List.append_assoc, ← List.map_append, ← List.flatMap_cons] at hrest
    rw [List.flatMap_cons, List.append_assoc]
    exact LoopRuns.round (rowHolds_rows b) (memberRound_run b) hrest

/-- The first loop skips rows that have a type other than `N`. -/
theorem skip_run {pre : List Row}
    (hpre : ∀ r ∈ pre, (r.text .recordType).isSome = true ∧ r.text .recordType ≠ some ['N'])
    (hrest : ∀ r ∈ rest.head?, r.text .recordType = none ∨ r.text .recordType = some ['N']) :
    whileRow (fun r => neNull (r.text .recordType) (some ['N'])) () (fun _ => moveNext)
        (w.reading rows (pre ++ rest) log) = .ok ((), w.reading rows rest log) := by
  have hlog : log = log ++ (scanned (fun _ _ => ()) (fun _ _ => []) () pre).map w.labelled := by
    rw [scanned_unit fun _ => []]
    simp
  conv_rhs => rw [hlog]
  apply whileRow_scan (fun _ _ => ()) fun _ _ => []
  · intro _ r rest log
    rw [List.map_nil, List.append_nil]
    exact moveNext_cons r
  · exact fun r hr => (holds_notNull_eqNull_iff _ _).mpr (hpre r hr)
  · intro r hr
    rw [Bool.eq_false_iff]
    intro hcond
    have hne := (holds_notNull_eqNull_iff _ _).mp hcond
    rcases hrest r hr with h | h <;> rw [h] at hne <;> simp at hne

/-- With a typed header the detailed pass reports on every block. -/
theorem memberDetailLoops_run (m : MemberRecords)
    (htyped : ∀ r ∈ m.header, (r.text .recordType).isSome = true) :
    memberDetailLoops (w.reading rows m.rows log) =
      .ok ((), w.reading rows m.after
        (log ++ (m.blocks.flatMap (MemberBlock.detailChecks w)).map w.labelled)) := by
  obtain ⟨b, bs, hblocks⟩ := List.exists_cons_of_ne_nil m.blocks_ne
  have hrows : m.rows = (m.header ++ b.memberRow.toList) ++
      ((b.bare :: bs).flatMap MemberBlock.rows ++ m.after) := by
    simp [MemberRecords.rows, MemberBlock.rows, MemberBlock.bare, MemberBlock.numbered, hblocks]
  unfold memberDetailLoops
  rw [hrows, hblocks]
  refine (bind_run (skip_run (fun r hr => ?_) fun r hr => ?_) _).trans ?_
  · rcases List.mem_append.mp hr with hr | hr
    · exact ⟨htyped r hr, (m.header_shape r hr).2.1⟩
    · rw [(b.memberRow_shape r (Option.mem_toList.mp hr)).1]
      decide
  · obtain rfl : b.first = r := by
      simpa [MemberBlock.rows, MemberBlock.bare, MemberBlock.numbered] using hr
    exact .inr (b.benefit_shape b.first List.mem_cons_self).1
  · have hlength := length_le_flatMap_rows (b.bare :: bs)
    refine whileRow_run (members_runs m (b.bare :: bs) log) ?_
    rw [List.length_append]
    omega

/-- Rows that are not all typed, up to the first one without a type. -/
theorem exists_untyped {rs : List Row} (h : ¬ ∀ r ∈ rs, (r.text .recordType).isSome = true) :
    ∃ pre r post, rs = pre ++ r :: post ∧ (∀ r ∈ pre, (r.text .recordType).isSome = true) ∧
      r.text .recordType = none := by
  have hsome : ∃ r ∈ rs, r.text .recordType = none := by simpa using h
  obtain ⟨pre, r, post, hrs, hpre, hr⟩ := exists_first hsome
  exact ⟨pre, r, post, hrs, fun r hr => Option.isSome_iff_ne_none.mpr (hpre r hr), hr⟩

/-- The detailed pass reports nothing when a row of the header has no type. -/
theorem memberDetailLoops_untyped (m : MemberRecords)
    (huntyped : ¬ ∀ r ∈ m.header, (r.text .recordType).isSome = true) :
    ∃ rest, memberDetailLoops (w.reading rows m.rows log) = .ok ((), w.reading rows rest log) := by
  obtain ⟨pre, r, post, hheader, htyped, hr⟩ := exists_untyped huntyped
  have hrows : m.rows =
      pre ++ (r :: (post ++ m.blocks.flatMap MemberBlock.rows ++ m.after)) := by
    rw [MemberRecords.rows, hheader]
    simp
  unfold memberDetailLoops
  rw [hrows]
  refine ⟨r :: (post ++ m.blocks.flatMap MemberBlock.rows ++ m.after), ?_⟩
  refine (bind_run (skip_run (fun r hr => ?_) fun r' hr' => ?_) _).trans ?_
  · refine ⟨htyped r hr, (m.header_shape r ?_).2.1⟩
    rw [hheader]
    exact List.mem_append_left _ hr
  · obtain rfl : r = r' := by simpa using hr'
    exact .inl hr
  · refine whileRow_run (LoopRuns.stop ?_) (Nat.zero_le _)
    refine (rowHolds_run_cons rfl rfl _).trans ?_
    rw [hr]
    rfl

end Detailed

/-! ## The summarized pass -/

/-- What the summarized view reports over rows, with the variables at their first. -/
def Summarized.pass : Summarized → List Row → List Check :=
  scanned Summarized.next Summarized.checks

/-- The variables before the first row. -/
def Summarized.start : Summarized := ⟨none, none, 0, 0, none⟩

/-- The summarized pass goes to the first row that is a trailer or has no type. -/
theorem memberDetailSummarized_stops {pre : List Row} {stop : Row} (w : World)
    (rest before : List Row) (log : List Check)
    (hpre : ∀ r ∈ pre, (r.text .recordType).isSome = true ∧ r.text .recordType ≠ some ['P'])
    (hstop : stop.text .recordType = none ∨ stop.text .recordType = some ['P']) :
    memberDetailSummarized (w.reading (pre ++ stop :: rest) before log) =
      .ok ((), w.reading (pre ++ stop :: rest) (stop :: rest)
        (log ++ (Summarized.start.pass pre).map w.labelled)) := by
  have hfirst : moveFirst (w.reading (pre ++ stop :: rest) before log) =
      .ok ((), w.reading (pre ++ stop :: rest) (pre ++ stop :: rest) log) :=
    moveFirst_run (c := ⟨pre ++ stop :: rest, before⟩) rfl
  unfold memberDetailSummarized
  rw [bind_run hfirst]
  refine (bind_run (whileRow_scan Summarized.next Summarized.checks (fun x r rest log => ?_)
    Summarized.start _ (fun r hr => ?_) (fun r hr => ?_) log) _).trans rfl
  · rw [bind_run (current_cons r), bind_run (validateElements_log _), bind_run (moveNext_cons r)]
    rfl
  · exact (holds_notNull_eqNull_iff _ _).mpr (hpre r hr)
  · obtain rfl : stop = r := by simpa using hr
    rcases hstop with h | h <;> rw [h] <;> rfl

/-- The summarized view makes the checks of a pass over all rows. -/
theorem memberDetailSummarized_run (m : MemberRecords) (w : World) (rest : List Row)
    (log : List Check) (htyped : ∀ r ∈ m.header, (r.text .recordType).isSome = true) :
    memberDetailSummarized (w.reading m.rows rest log) =
      .ok ((), w.reading m.rows m.after (log ++
        (Summarized.start.pass (m.header ++ m.blocks.flatMap MemberBlock.rows)).map
          w.labelled)) := by
  refine memberDetailSummarized_stops w m.rest rest log (fun r hr => ?_) (.inr m.trailer_shape)
  rcases List.mem_append.mp hr with hr | hr
  · exact ⟨htyped r hr, (m.header_shape r hr).2.2⟩
  · obtain ⟨b, -, hb⟩ := List.mem_flatMap.mp hr
    exact b.rows_type r hb

/-! ## Names -/

/-- A check of some `<MBR_NO> Name`. -/
def Check.isName (c : Check) : Bool := " Name".toList.isSuffixOf c.htmlId

/-- Whether a text ends in a short one is seen at its end. -/
theorem suffix_append_iff {α : Type} {s id what : List α} (h : s.length ≤ what.length) :
    s <:+ id ++ what ↔ s <:+ what := by
  constructor
  · exact fun hs => List.suffix_of_suffix_length_le hs (List.suffix_append id what) h
  · exact fun hs => hs.trans (List.suffix_append id what)

/-- Whether a check is of a name depends on the fixed part of its id. -/
theorem isName_of_htmlId {c : Check} {id what : Str} (h : c.htmlId = id ++ what)
    (hlength : 5 ≤ what.length) : c.isName = " Name".toList.isSuffixOf what := by
  rw [Check.isName, h, Bool.eq_iff_iff, List.isSuffixOf_iff_suffix, List.isSuffixOf_iff_suffix]
  exact suffix_append_iff hlength

/-- A label tells whether a check is one of a name. -/
theorem isName_textCheck (id : Str) {what : String} (s : Option Str) (typ : Typ)
    (h : 5 ≤ what.toList.length) :
    (textCheck id what s typ).isName = " Name".toList.isSuffixOf what.toList :=
  isName_of_htmlId rfl h

theorem isName_numberCheck (id : Str) {what : String} (x : ℚ) (typ : Typ)
    (h : 5 ≤ what.toList.length) :
    (numberCheck id what x typ).isName = " Name".toList.isSuffixOf what.toList :=
  isName_of_htmlId rfl h

/-- The check of a name is one. -/
theorem isName_nameCheck (r : Row) : (nameCheck r).isName = true :=
  (isName_textCheck _ _ _ (by decide)).trans (by decide)

/-- Those of a benefit are not. -/
theorem isName_benefitChecks (w : World) (r : Row) : ∀ c ∈ benefitChecks w r, c.isName = false := by
  unfold benefitChecks
  split_ifs <;> simp (disch := decide) [isName_textCheck, isName_numberCheck] <;> decide

theorem isName_totalChecks (w : World) (r : Row) : ∀ c ∈ totalChecks w r, c.isName = false := by
  unfold totalChecks
  split_ifs <;> simp (disch := decide) [isName_textCheck, isName_numberCheck] <;> decide

theorem isName_rollupChecks (x : Summarized) : ∀ c ∈ x.rollupChecks, c.isName = false := by
  unfold Summarized.rollupChecks
  simp (disch := decide) [isName_textCheck, isName_numberCheck]
  decide

theorem isName_summarizedTotals (x : Summarized) (r : Row) :
    ∀ c ∈ x.totalChecks r, c.isName = false := by
  unfold Summarized.totalChecks
  simp (disch := decide) [isName_textCheck, isName_numberCheck]
  decide

/-- The checks of names among some checks. -/
def namesOf (cs : List Check) : List Check := cs.filter Check.isName

theorem namesOf_append (cs ds : List Check) : namesOf (cs ++ ds) = namesOf cs ++ namesOf ds :=
  List.filter_append cs ds

/-- Checks of other things have no names among them. -/
theorem namesOf_eq_nil {cs : List Check} (h : ∀ c ∈ cs, c.isName = false) : namesOf cs = [] :=
  List.filter_eq_nil_iff.mpr fun c hc => by rw [h c hc]; exact Bool.false_ne_true

/-- A label does not make a name. -/
theorem namesOf_labelled (w : World) (cs : List Check) :
    namesOf (cs.map w.labelled) = (namesOf cs).map w.labelled := List.filter_map

/-- The detailed view checks the name of a member once. -/
theorem namesOf_detailChecks (w : World) (b : MemberBlock) :
    namesOf (b.detailChecks w) = [nameCheck b.first] := by
  have hbenefits : ∀ c ∈ (b.first :: b.more).flatMap (benefitChecks w), c.isName = false := by
    intro c hc
    obtain ⟨r, -, hr⟩ := List.mem_flatMap.mp hc
    exact isName_benefitChecks w r c hr
  have hname : namesOf [nameCheck b.first] = [nameCheck b.first] := by
    rw [namesOf, List.filter_cons_of_pos (isName_nameCheck _), List.filter_nil]
  rw [MemberBlock.detailChecks, ← List.singleton_append, namesOf_append, namesOf_append, hname,
    namesOf_eq_nil hbenefits, namesOf_eq_nil (isName_totalChecks w _)]
  rfl

/-- The detailed view checks the name of each member once. -/
theorem namesOf_details (w : World) (bs : List MemberBlock) :
    namesOf (bs.flatMap (MemberBlock.detailChecks w)) = bs.map fun b => nameCheck b.first := by
  induction bs with
  | nil => rfl
  | cons b bs ih =>
    rw [List.flatMap_cons, namesOf_append, namesOf_detailChecks, ih]
    rfl

/-! ## Where the summarized view sees a member begin -/

/-- The row is the first with a number and does not go on with a rollup. -/
def Summarized.announces (x : Summarized) (r : Row) : Bool :=
  !x.goesOn r && (x.mbrNo.isNone && (r.text .mbrNo).isSome)

/-- The summarized view checks a name where it announces it. -/
theorem namesOf_checks (x : Summarized) (r : Row) :
    namesOf (x.checks r) = if x.announces r then [nameCheck r] else [] := by
  have hended : namesOf (if x.rollupIndicator.isSome = true then x.rollupChecks else []) = [] := by
    split
    · exact namesOf_eq_nil (isName_rollupChecks x)
    · rfl
  have hlast : namesOf (if holds (eqNull (r.text .recordType) (some ['O'])) = true
      then x.totalChecks r else []) = [] := by
    split
    · exact namesOf_eq_nil (isName_summarizedTotals x r)
    · rfl
  unfold Summarized.checks Summarized.announces
  rw [namesOf_append, hlast, List.append_nil]
  cases x.goesOn r with
  | true => rfl
  | false =>
    rw [if_neg Bool.false_ne_true, namesOf_append, hended, List.append_nil, Bool.not_false,
      Bool.true_and]
    split
    · rw [namesOf, List.filter_cons_of_pos (isName_nameCheck _), List.filter_nil]
    · rfl

/-- The names of a pass, row by row. -/
theorem namesOf_pass_cons (x : Summarized) (r : Row) (rs : List Row) :
    namesOf (x.pass (r :: rs)) =
      (if x.announces r then [nameCheck r] else []) ++ namesOf ((x.next r).pass rs) := by
  rw [← namesOf_checks, ← namesOf_append]
  rfl

/-- A pass over two lists goes on with what the first one has left. -/
theorem pass_append (x : Summarized) (rs ss : List Row) :
    x.pass (rs ++ ss) = x.pass rs ++ (rs.foldl Summarized.next x).pass ss :=
  scanned_append _ _ x rs ss

/-- No name is checked at rows without a number. -/
theorem namesOf_pass_unnumbered (x : Summarized) {rs : List Row}
    (h : ∀ r ∈ rs, r.text .mbrNo = none) : namesOf (x.pass rs) = [] := by
  induction rs generalizing x with
  | nil => rfl
  | cons r rs ih =>
    rw [List.forall_mem_cons] at h
    rw [namesOf_pass_cons, ih _ h.2, Summarized.announces, h.1]
    simp

/-- No name is checked at rows with a number after another one. -/
theorem namesOf_pass_numbered {x : Summarized} {rs : List Row} (hx : x.mbrNo.isSome = true)
    (h : ∀ r ∈ rs, (r.text .mbrNo).isSome = true) : namesOf (x.pass rs) = [] := by
  induction rs generalizing x with
  | nil => rfl
  | cons r rs ih =>
    rw [List.forall_mem_cons] at h
    have hnone : x.mbrNo.isNone = false := by rw [← Option.not_isSome, hx, Bool.not_true]
    rw [namesOf_pass_cons, ih h.1 h.2, Summarized.announces, hnone]
    simp

/-- The variables at the first numbered row of a block. -/
def Summarized.upTo (x : Summarized) (b : MemberBlock) : Summarized :=
  b.memberRow.toList.foldl Summarized.next x

/-- A block has its name checked when the row before its first benefit announces it. -/
theorem namesOf_pass_rows (x : Summarized) (b : MemberBlock) :
    namesOf (x.pass b.rows) =
      if (x.upTo b).announces b.first then [nameCheck b.first] else [] := by
  have hrow : namesOf (x.pass b.memberRow.toList) = [] :=
    namesOf_pass_unnumbered x fun r hr => (b.memberRow_shape r (Option.mem_toList.mp hr)).2
  have hfirst := (b.benefit_shape b.first List.mem_cons_self).2
  have hnumbered : namesOf (((x.upTo b).next b.first).pass (b.more ++ [b.totals])) = [] := by
    apply namesOf_pass_numbered
    · exact Option.isSome_iff_exists.mpr ⟨_, hfirst⟩
    · intro r hr
      exact Option.isSome_iff_exists.mpr
        ⟨_, (b.numbered_shape r (List.mem_cons_of_mem _ hr)).2⟩
  rw [MemberBlock.rows, pass_append, namesOf_append, hrow, List.nil_append]
  show namesOf ((x.upTo b).pass (b.first :: (b.more ++ [b.totals]))) = _
  rw [namesOf_pass_cons, hnumbered, List.append_nil]

/-- After a block the variables hold its number. -/
theorem mbrNo_foldl_rows (x : Summarized) (b : MemberBlock) :
    (b.rows.foldl Summarized.next x).mbrNo = some b.mbrNo := by
  have hrows : b.rows = (b.memberRow.toList ++ b.first :: b.more) ++ [b.totals] := by
    simp [MemberBlock.rows, MemberBlock.numbered]
  rw [hrows, List.foldl_concat]
  exact b.totals_shape.2

/-- The row goes on with the rollup of the row before it. -/
def SameRollup (before r : Row) : Prop :=
  r.text .rollupIndicator = before.text .rollupIndicator ∧
    (before.text .rollupIndicator).isSome = true

instance (before r : Row) : Decidable (SameRollup before r) := by
  unfold SameRollup
  infer_instance

/-- A rollup goes on when the row has its indicator. -/
theorem goesOn_iff (x : Summarized) (r : Row) :
    x.goesOn r = true ↔
      r.text .rollupIndicator = x.rollupIndicator ∧ x.rollupIndicator.isSome = true := by
  unfold Summarized.goesOn
  cases hx : x.rollupIndicator with
  | none => cases r.text .rollupIndicator <;> simp [eqNull, holds]
  | some s => simp [holds_eqNull_iff]

/-- After a row without a number the next one is announced unless it goes on with a rollup. -/
theorem announces_iff {x : Summarized} {r : Row} (hx : x.mbrNo = none)
    (hr : (r.text .mbrNo).isSome = true) :
    x.announces r = true ↔
      ¬ (r.text .rollupIndicator = x.rollupIndicator ∧ x.rollupIndicator.isSome = true) := by
  rw [← goesOn_iff, Summarized.announces, hx, hr]
  simp

/-- A block with a row of its own before the first benefit. -/
theorem announces_of_memberRow (x : Summarized) {b : MemberBlock} {r : Row}
    (hrow : b.memberRow = some r) :
    (x.upTo b).announces b.first = true ↔ ¬ SameRollup r b.first := by
  have hfirst := (b.benefit_shape b.first List.mem_cons_self).2
  have hupTo : x.upTo b = x.next r := by rw [Summarized.upTo, hrow]; rfl
  rw [hupTo]
  exact announces_iff (b.memberRow_shape r hrow).2 (Option.isSome_iff_exists.mpr ⟨_, hfirst⟩)

/-- A block that follows another one directly is not announced. -/
theorem not_announces_of_numbered {x : Summarized} {b : MemberBlock} (hrow : b.memberRow = none)
    (hx : x.mbrNo.isSome = true) : ¬ (x.upTo b).announces b.first = true := by
  have hupTo : x.upTo b = x := by rw [Summarized.upTo, hrow]; rfl
  have hnone : x.mbrNo.isNone = false := by rw [← Option.not_isSome, hx, Bool.not_true]
  rw [hupTo, Summarized.announces, hnone]
  simp

/-- A first entry that may be missing is there when the lengths agree. -/
theorem ite_append_eq_cons_iff {α : Type} {c : Prop} [Decidable c] {a : α} {ys zs : List α}
    (h : ys.length ≤ zs.length) :
    (if c then [a] else []) ++ ys = a :: zs ↔ c ∧ ys = zs := by
  by_cases hc : c
  · rw [if_pos hc, List.singleton_append, List.cons_eq_cons]
    simp [hc]
  · rw [if_neg hc, List.nil_append]
    refine ⟨fun heq => ?_, fun h => absurd h.1 hc⟩
    rw [heq, List.length_cons] at h
    omega

/-- The names of a pass, member by member. -/
theorem namesOf_pass_blocks_cons (x : Summarized) (b : MemberBlock) (bs : List MemberBlock) :
    namesOf (x.pass ((b :: bs).flatMap MemberBlock.rows)) =
      (if (x.upTo b).announces b.first then [nameCheck b.first] else []) ++
        namesOf ((b.rows.foldl Summarized.next x).pass (bs.flatMap MemberBlock.rows)) := by
  rw [List.flatMap_cons, pass_append, namesOf_append, namesOf_pass_rows]

/-- The summarized view checks at most one name for each block. -/
theorem length_namesOf_pass_blocks (x : Summarized) (bs : List MemberBlock) :
    (namesOf (x.pass (bs.flatMap MemberBlock.rows))).length ≤ bs.length := by
  induction bs generalizing x with
  | nil => exact Nat.le_refl 0
  | cons b bs ih =>
    have hrest := ih (b.rows.foldl Summarized.next x)
    rw [namesOf_pass_blocks_cons, List.length_append, List.length_cons]
    split <;> simp <;> omega

/-- All blocks are checked when the first one is announced and so are the others. -/
theorem namesOf_pass_blocks_cons_iff (x : Summarized) (b : MemberBlock) (bs : List MemberBlock) :
    namesOf (x.pass ((b :: bs).flatMap MemberBlock.rows)) =
        (b :: bs).map (fun b => nameCheck b.first) ↔
      (x.upTo b).announces b.first = true ∧
        namesOf ((b.rows.foldl Summarized.next x).pass (bs.flatMap MemberBlock.rows)) =
          bs.map fun b => nameCheck b.first := by
  rw [namesOf_pass_blocks_cons, List.map_cons]
  apply ite_append_eq_cons_iff
  rw [List.length_map]
  exact length_namesOf_pass_blocks _ bs

/-- Blocks that come after another one. -/
theorem namesOf_pass_later_iff {x : Summarized} (hx : x.mbrNo.isSome = true)
    (bs : List MemberBlock) :
    namesOf (x.pass (bs.flatMap MemberBlock.rows)) = bs.map (fun b => nameCheck b.first) ↔
      ∀ b ∈ bs, b.memberRow.isSome = true ∧ ∀ r ∈ b.memberRow, ¬ SameRollup r b.first := by
  induction bs generalizing x with
  | nil => simp [Summarized.pass, scanned, namesOf]
  | cons b bs ih =>
    have hx' := Option.isSome_iff_exists.mpr ⟨_, mbrNo_foldl_rows x b⟩
    rw [namesOf_pass_blocks_cons_iff, ih hx', List.forall_mem_cons]
    apply and_congr_left'
    cases hrow : b.memberRow with
    | none => simpa using not_announces_of_numbered hrow hx
    | some r => simpa using announces_of_memberRow x hrow

/-- The rollup and the number of the last row are in the variables. -/
theorem foldl_header (m : MemberRecords) :
    (m.header.foldl Summarized.next Summarized.start).mbrNo = none ∧
      (m.header.foldl Summarized.next Summarized.start).rollupIndicator =
        m.header.getLast?.bind fun r => r.text .rollupIndicator := by
  have hshape := m.header_shape
  rcases List.eq_nil_or_concat m.header with h | ⟨rs, r, h⟩
  · rw [h]
    exact ⟨rfl, rfl⟩
  · rw [h] at hshape ⊢
    rw [List.concat_eq_append, List.foldl_concat, List.getLast?_concat]
    exact ⟨(hshape r (by simp)).1, rfl⟩

/-- The first block is announced by its own row or by the last one of the header. -/
theorem announces_first_iff (m : MemberRecords) (b : MemberBlock) :
    ((m.header.foldl Summarized.next Summarized.start).upTo b).announces b.first = true ↔
      ∀ r ∈ b.memberRow.or m.header.getLast?, ¬ SameRollup r b.first := by
  obtain ⟨hmbrNo, hrollup⟩ := foldl_header m
  cases hrow : b.memberRow with
  | some r => simpa using announces_of_memberRow _ hrow
  | none =>
    have hfirst := (b.benefit_shape b.first List.mem_cons_self).2
    have hupTo : ∀ x : Summarized, x.upTo b = x := fun x => by rw [Summarized.upTo, hrow]; rfl
    rw [hupTo, announces_iff hmbrNo (Option.isSome_iff_exists.mpr ⟨_, hfirst⟩), hrollup,
      Option.none_or]
    cases m.header.getLast? <;> simp [SameRollup]

/-! ## Both passes -/

/-- The checks of names that were logged on the way from one world to another. -/
def newNames (w w' : World) : List Check := namesOf (w'.log.drop w.log.length)

/-- One check of a name for each member. -/
def MemberRecords.names (m : MemberRecords) (w : World) : List Check :=
  m.blocks.map fun b => w.labelled (nameCheck b.first)

/-- Both passes check the names of the same members, each member's once. -/
def MemberRecords.NamesAgree (m : MemberRecords) (w : World) : Prop :=
  ∃ w₁ w₂, memberDetailLoops { w with rs := some ⟨m.rows, m.rows⟩ } = .ok ((), w₁) ∧
    memberDetailSummarized w₁ = .ok ((), w₂) ∧
    newNames w₁ w₂ = newNames w w₁ ∧ newNames w w₁ = m.names w

/-- Every row of the header has a type, every member after the first has a row of its own before
the benefits, and no first benefit goes on with the rollup of the row before. -/
def MemberRecords.Separated (m : MemberRecords) : Prop :=
  (∀ r ∈ m.header, (r.text .recordType).isSome = true) ∧
    (∀ b ∈ m.blocks.tail, b.memberRow.isSome = true) ∧
    ∀ b ∈ m.blocks, ∀ r ∈ b.memberRow.or m.header.getLast?, ¬ SameRollup r b.first

/-- The names that are added to a log. -/
theorem newNames_reading {w : World} {rows rows' rest rest' : List Row} {log cs : List Check} :
    newNames (w.reading rows rest log)
        (w.reading rows' rest' (log ++ cs.map w.labelled)) = (namesOf cs).map w.labelled := by
  unfold newNames
  rw [← namesOf_labelled]
  exact congrArg namesOf List.drop_left

/-- The summarized pass checks every name once when the blocks are told apart. -/
theorem namesOf_summarized_iff (m : MemberRecords) :
    namesOf (Summarized.start.pass (m.header ++ m.blocks.flatMap MemberBlock.rows)) =
        m.blocks.map (fun b => nameCheck b.first) ↔
      (∀ b ∈ m.blocks.tail, b.memberRow.isSome = true) ∧
        ∀ b ∈ m.blocks, ∀ r ∈ b.memberRow.or m.header.getLast?, ¬ SameRollup r b.first := by
  obtain ⟨b, bs, hblocks⟩ := List.exists_cons_of_ne_nil m.blocks_ne
  have hheader : namesOf (Summarized.start.pass m.header) = [] :=
    namesOf_pass_unnumbered _ fun r hr => (m.header_shape r hr).1
  have hlater := Option.isSome_iff_exists.mpr
    ⟨_, mbrNo_foldl_rows (m.header.foldl Summarized.next Summarized.start) b⟩
  rw [pass_append, namesOf_append, hheader, List.nil_append, hblocks,
    namesOf_pass_blocks_cons_iff, announces_first_iff, namesOf_pass_later_iff hlater,
    List.tail_cons, List.forall_mem_cons]
  -- a row of its own comes before the last one of the header
  have hown : ∀ b' ∈ bs, b'.memberRow.isSome = true →
      b'.memberRow.or m.header.getLast? = b'.memberRow := by
    intro b' _ hrow
    obtain ⟨r, hr⟩ := Option.isSome_iff_exists.mp hrow
    rw [hr]
    rfl
  constructor
  · rintro ⟨hfirst, hrest⟩
    refine ⟨fun b' hb' => (hrest b' hb').1, hfirst, fun b' hb' => ?_⟩
    rw [hown b' hb' (hrest b' hb').1]
    exact (hrest b' hb').2
  · rintro ⟨hrow, hfirst, hrest⟩
    refine ⟨hfirst, fun b' hb' => ⟨hrow b' hb', ?_⟩⟩
    rw [← hown b' hb' (hrow b' hb')]
    exact hrest b' hb'

/-- The recordset stands on its first row when it is opened. -/
theorem start_reading (m : MemberRecords) (w : World) :
    { w with rs := some ⟨m.rows, m.rows⟩ } = w.reading m.rows m.rows w.log := rfl

/-- With a typed header the passes agree when the summarized one checks every name once. -/
theorem namesAgree_of_typed (m : MemberRecords) (w : World)
    (htyped : ∀ r ∈ m.header, (r.text .recordType).isSome = true) :
    m.NamesAgree w ↔
      namesOf (Summarized.start.pass (m.header ++ m.blocks.flatMap MemberBlock.rows)) =
        m.blocks.map fun b => nameCheck b.first := by
  let log := w.log ++ (m.blocks.flatMap (MemberBlock.detailChecks w)).map w.labelled
  have hdetailed : memberDetailLoops (w.reading m.rows m.rows w.log) =
      .ok ((), w.reading m.rows m.after log) := memberDetailLoops_run m htyped
  have hsummarized := memberDetailSummarized_run m w m.after log htyped
  have hmap : m.names w = (m.blocks.map fun b => nameCheck b.first).map w.labelled := by
    rw [List.map_map]
    rfl
  have hnames : newNames w (w.reading m.rows m.after log) = m.names w := by
    have hnew : newNames (w.reading m.rows m.rows w.log) (w.reading m.rows m.after log) = _ :=
      newNames_reading
    rw [namesOf_details, ← hmap] at hnew
    exact hnew
  rw [← (List.map_injective_iff.mpr (labelled_injective w)).eq_iff, ← hmap]
  constructor
  · rintro ⟨w₁, w₂, h₁, h₂, hsame, hmembers⟩
    rw [start_reading, hdetailed] at h₁
    obtain rfl : _ = w₁ := congrArg Prod.snd (Except.ok.inj h₁)
    rw [hsummarized] at h₂
    obtain rfl : _ = w₂ := congrArg Prod.snd (Except.ok.inj h₂)
    rw [hmembers, newNames_reading] at hsame
    exact hsame
  · intro h
    refine ⟨_, _, hdetailed, hsummarized, ?_, hnames⟩
    rw [newNames_reading, h, hnames]

/-- A header row without a type ends the detailed pass before the first member. -/
theorem not_namesAgree_of_untyped (m : MemberRecords) (w : World)
    (huntyped : ¬ ∀ r ∈ m.header, (r.text .recordType).isSome = true) : ¬ m.NamesAgree w := by
  rintro ⟨w₁, -, h₁, -, -, hmembers⟩
  obtain ⟨rest, hdetailed⟩ : ∃ rest, memberDetailLoops (w.reading m.rows m.rows w.log) =
      .ok ((), w.reading m.rows rest w.log) := memberDetailLoops_untyped m huntyped
  rw [start_reading, hdetailed] at h₁
  obtain rfl : _ = w₁ := congrArg Prod.snd (Except.ok.inj h₁)
  have hnil : m.names w = [] := by
    rw [← hmembers]
    show namesOf (w.log.drop w.log.length) = []
    rw [List.drop_length]
    rfl
  exact m.blocks_ne (List.map_eq_nil_iff.mp hnil)

/-- The summarized pass checks the names of the same members as the detailed one, each member's
once, exactly when the members are separated. -/
theorem namesAgree_iff (m : MemberRecords) (w : World) : m.NamesAgree w ↔ m.Separated := by
  by_cases htyped : ∀ r ∈ m.header, (r.text .recordType).isSome = true
  · rw [namesAgree_of_typed m w htyped, namesOf_summarized_iff]
    exact (and_iff_right htyped).symm
  · exact iff_of_false (not_namesAgree_of_untyped m w htyped) fun h => htyped h.1

/-- A member row of this type. -/
def sampleRow (recordType : Char) (mbrNo rollup : Str) : Row :=
  Row.of [(.recordType, ⟨[recordType], 0⟩), (.mbrNo, ⟨mbrNo, 0⟩), (.rollupIndicator, ⟨rollup, 0⟩)]

/-- The block of a member with one benefit. -/
def sampleBlock (mbrNo : Str) : MemberBlock where
  mbrNo := mbrNo
  memberRow := none
  first := sampleRow 'N' mbrNo "LIFE".toList
  more := []
  totals := sampleRow 'O' mbrNo []
  memberRow_shape := by simp
  benefit_shape := fun r hr => by rw [List.mem_singleton.mp hr]; exact ⟨rfl, rfl⟩
  totals_shape := ⟨rfl, rfl⟩

/-- Two members one after the other. -/
def twoMembers : MemberRecords where
  header := []
  blocks := [sampleBlock "101".toList, sampleBlock "102".toList]
  trailer := sampleRow 'P' [] []
  rest := []
  header_shape := by simp
  blocks_ne := by simp
  distinct := by decide
  trailer_shape := rfl

/-- The summarized pass leaves out the second member. -/
theorem not_namesAgree_twoMembers : ¬ twoMembers.NamesAgree World.start := by
  rw [namesAgree_of_typed _ _ (by simp [twoMembers])]
  decide

end OaBills
