import ScriptsMisc.Lib.Footprint
import ScriptsMisc.OaBills.AdjustmentLookup
import ScriptsMisc.OaBills.Lifecycle

/-! # The ids of one member

`fixMbrDetlIDs` is the script of `fixMbrAdjustmentIDs` with another column that names the benefits
and other rows taken for totals. Whatever the table is like, and wherever the script stops, an id
starts with the number of the member in whose rows it is given.
-/

namespace OaBills

open CamelCase (jsSpace)
open Routine
open Vbs (shown)

/-! ## The script -/

/-- The loop stands in `oa-bills-member-details.js` too. -/
def detailScript : IdScript where
  benefits := 2
  isTotals label := label = "Total".toList || label = "Subtotal Current".toList

/-- The ids of the member details. -/
def fixMbrDetlIDs (t : AdjustmentsTable) : List (Element × Str) := detailScript.run t

/-- `document.getElementById` after `fixMbrDetlIDs`. -/
def AdjustmentsTable.detailById (t : AdjustmentsTable) (x : Str) : Option Element :=
  Elements.byId t.elements (fixMbrDetlIDs t) x

/-! ## Whose rows -/

/-- The number in force after a row. -/
def nextNumber (headers : List Str) (number : Str) (row : PageRow) : Str :=
  if row.cells.length = headers.length ∧ row.innerText ≠ [] then
    match row.subtableCells with
    | cell :: _ => firstWord cell.innerText
    | [] => number
  else number

/-- The number of the last member up to a row. -/
def AdjustmentsTable.memberAt (t : AdjustmentsTable) (i : ℕ) : Str :=
  ((t.rows.take (i + 1)).drop 2).foldl (nextNumber t.headers) []

/-- The id starts with the number in force at the row of the element. -/
def Own (number : ℕ → Str) (last : ℕ) (q : Element × Str) : Prop :=
  2 ≤ q.1.row ∧ q.1.row < last ∧ ∃ y, q.2 = number q.1.row ++ ' ' :: y

/-- All ids given so far do. -/
def AllOwn (number : ℕ → Str) (last : ℕ) (s : Script) : Prop := ∀ q ∈ s.ids, Own number last q

/-- So they do, and this number is in force. -/
def InForce (number : ℕ → Str) (last : ℕ) (memberNo : Str) (s : Script) : Prop :=
  AllOwn number last s ∧ s.memberNo = memberNo

section Rows

variable {number : ℕ → Str} {last : ℕ} {memberNo : Str} {headers : List Str} {i : ℕ} {row : PageRow}

/-- The script stops at a member of `undefined`. -/
theorem undefined_leaves {α : Type} {P E : Script → Prop} {Q : α → Script → Prop}
    (hE : ∀ s, P s → E s) : Leaves P (undefined : Js α) Q E := by
  refine fun s hs => ⟨fun a s' h => ?_, fun e h => ?_⟩
  · cases h
  · cases h
    exact hE s hs

/-- An entry is read, or the script stops. -/
theorem item_leaves {α : Type} {P E : Script → Prop} (hE : ∀ s, P s → E s) (xs : List α) (n : ℕ) :
    Leaves P (item xs n) (fun x s => P s ∧ xs[n]? = some x) E := by
  unfold item
  cases xs[n]? with
  | none => exact undefined_leaves hE
  | some x => exact Leaves.pure _ fun s hs => ⟨hs, rfl⟩

/-- An id that starts with the number in force is one of its own row. -/
theorem setId_leaves {e : Element} {y : Str} (hlow : 2 ≤ e.row) (hlast : e.row < last)
    (hnumber : number e.row = memberNo) :
    Leaves (InForce number last memberNo) (setId e (memberNo ++ ' ' :: y))
      (fun _ => InForce number last memberNo) (AllOwn number last) := by
  refine Leaves.modify fun s hs => ⟨?_, hs.2⟩
  exact List.forall_mem_cons.mpr ⟨⟨hlow, hlast, y, by rw [hnumber]⟩, hs.1⟩

/-- What an inner line or a cell with a total gets. -/
theorem setLineId_leaves {e : Element} {benefit header : Str} (hlow : 2 ≤ e.row)
    (hlast : e.row < last) (hnumber : number e.row = memberNo) :
    Leaves (InForce number last memberNo) (setId e (lineId memberNo benefit header))
      (fun _ => InForce number last memberNo) (AllOwn number last) := by
  rw [lineId_eq_append]
  exact setId_leaves hlow hlast hnumber

variable (c : IdScript)

/-- The row of a member puts its number in force. -/
theorem fixMember_leaves (hlow : 2 ≤ i) (hlast : i < last)
    (hnumber : ∀ cell, row.subtableCells[0]? = some cell → firstWord cell.innerText = number i) :
    Leaves (AllOwn number last) (c.fixMember headers i row)
      (fun _ => InForce number last (number i)) (AllOwn number last) := by
  have hstop : ∀ s, InForce number last (number i) s → AllOwn number last s := fun _ h => h.1
  unfold IdScript.fixMember
  refine Leaves.bind (item_leaves (fun _ h => h) row.cells 2) fun shown => ?_
  refine Leaves.bind (R := fun _ => AllOwn number last) (Leaves.modify fun s hs => hs.1) fun _ => ?_
  refine Leaves.bind (item_leaves (fun _ h => h) row.subtableCells 0) fun cell => ?_
  refine Leaves.bind (R := fun _ => InForce number last (number i))
    (Leaves.modify fun s hs => ⟨hs.1, hnumber cell hs.2⟩) fun _ => ?_
  refine Leaves.bind (item_leaves hstop row.cells c.benefits) fun first => ?_
  refine Leaves.mono (P := InForce number last (number i)) ?_ fun s hs => hs.1
  refine Leaves.get_bind fun s hs => ?_
  rw [hs.2]
  refine Leaves.bind (item_leaves hstop first.tables s.tableIndex) fun benefits => ?_
  refine Leaves.mono (P := InForce number last (number i)) ?_ fun s hs => hs.1
  have hids : Leaves (InForce number last (number i)) (do
      setId (.link i) (number i ++ " Name".toList)
      benefits.lines.zipIdx.forM fun benefit =>
        ((row.cells.zip headers).zipIdx.drop 1).forM fun column => do
          let table ← item column.1.1.tables s.tableIndex
          let _ ← item table.lines benefit.2
          setId (.line i column.2 s.tableIndex benefit.2)
            (lineId (number i) benefit.1 column.1.2))
      (fun _ => InForce number last (number i)) (AllOwn number last) := by
    refine Leaves.bind (setId_leaves hlow hlast rfl) fun _ => ?_
    refine Leaves.forM fun benefit _ => Leaves.forM fun column _ => ?_
    refine Leaves.bind (item_leaves hstop column.1.1.tables s.tableIndex) fun table => ?_
    refine Leaves.bind (item_leaves (fun s hs => hs.1.1) table.lines benefit.2) fun _ => ?_
    exact Leaves.mono (setLineId_leaves hlow hlast rfl) fun s hs => hs.1.1
  split
  · exact Leaves.bind (undefined_leaves (Q := fun _ => InForce number last (number i)) hstop)
      fun _ => hids
  · exact hids

/-- A row with totals keeps it. -/
theorem fixTotals_leaves (hlow : 2 ≤ i) (hlast : i < last) (hnumber : number i = memberNo) :
    Leaves (InForce number last memberNo) (c.fixTotals headers i row)
      (fun _ => InForce number last memberNo) (AllOwn number last) := by
  have hstop : ∀ s, InForce number last memberNo s → AllOwn number last s := fun _ h => h.1
  unfold IdScript.fixTotals
  split
  · exact Leaves.pure _ fun _ hs => hs
  · next first cells hcells =>
    split
    · split
      · exact Leaves.pure _ fun _ hs => hs
      · next colspan hspan =>
        refine Leaves.forM fun l _ => ?_
        refine Leaves.bind (item_leaves hstop row.cells (l + 1)) fun _ => ?_
        refine Leaves.bind (item_leaves (fun s hs => hs.1.1) headers (colspan + l)) fun header => ?_
        refine Leaves.mono (P := InForce number last memberNo) ?_ fun s hs => hs.1.1
        refine Leaves.get_bind fun s hs => ?_
        rw [hs.2]
        exact setLineId_leaves hlow hlast hnumber
    · exact Leaves.pure _ fun _ hs => hs

/-- Any row puts the number in force that it should. -/
theorem fixRow_leaves (hlow : 2 ≤ i) (hlast : i < last)
    (hnumber : number i = nextNumber headers memberNo row) :
    Leaves (InForce number last memberNo) (c.fixRow headers i row)
      (fun _ => InForce number last (number i)) (AllOwn number last) := by
  have htotals : Leaves (InForce number last (number i)) (c.fixTotals headers i row)
      (fun _ => InForce number last (number i)) (AllOwn number last) :=
    fixTotals_leaves c hlow hlast rfl
  unfold IdScript.fixRow
  split
  · next hmember =>
    rw [nextNumber, if_pos hmember] at hnumber
    refine Leaves.bind (Leaves.mono (fixMember_leaves c hlow hlast ?_) fun s hs => hs.1)
      fun _ => htotals
    intro cell hcell
    rw [hnumber]
    cases hcells : row.subtableCells with
    | nil =>
      rw [hcells] at hcell
      cases hcell
    | cons first cells =>
      rw [hcells] at hcell
      cases hcell
      rfl
  · next hmember =>
    rw [nextNumber, if_neg hmember] at hnumber
    rw [hnumber] at htotals ⊢
    exact htotals

/-- So do the rows one after the other. -/
theorem rows_leaves (rows : List PageRow) (hlow : 2 ≤ i) (hlast : i + rows.length ≤ last)
    (hnumber : ∀ k < rows.length,
      number (i + k) = (rows.take (k + 1)).foldl (nextNumber headers) memberNo) :
    Leaves (InForce number last memberNo)
      ((rows.zipIdx i).forM fun row => c.fixRow headers row.2 row.1)
      (fun _ => AllOwn number last) (AllOwn number last) := by
  induction rows generalizing i memberNo with
  | nil => exact Leaves.pure _ fun _ hs => hs.1
  | cons row rows ih =>
    rw [List.length_cons] at hlast hnumber
    have hrow : number i = nextNumber headers memberNo row := hnumber 0 (by omega)
    refine Leaves.bind (fixRow_leaves c hlow (by omega) hrow) fun _ => ?_
    refine ih (by omega) (by omega) fun k hk => ?_
    have hstep : i + 1 + k = i + (k + 1) := by omega
    rw [hstep, hnumber (k + 1) (by omega), List.take_succ_cons, List.foldl_cons, hrow]

end Rows

/-! ## Whose ids -/

/-- Every id of a run is given in the rows of the member it names. -/
theorem own_of_mem_run (c : IdScript) (t : AdjustmentsTable) {q : Element × Str}
    (hq : q ∈ c.run t) : Own t.memberAt (t.rows.length - 2) q := by
  let rows := (t.rows.drop 2).take (t.rows.length - 4)
  have hlength : rows.length = t.rows.length - 4 := by
    simp only [rows, List.length_take, List.length_drop]
    omega
  by_cases hshort : t.rows.length < 4
  · -- nothing is walked
    have hnil : t.walked = [] := by
      have hzero : t.rows.length - 4 = 0 := by omega
      rw [AdjustmentsTable.walked, hzero]
      rfl
    rw [IdScript.run, hnil] at hq
    exact absurd hq List.not_mem_nil
  have hnumber : ∀ k < rows.length,
      t.memberAt (2 + k) = (rows.take (k + 1)).foldl (nextNumber t.headers) [] := by
    intro k hk
    have htake : (t.rows.take (2 + k + 1)).drop 2 = rows.take (k + 1) := by
      have hsub : 2 + k + 1 - 2 = k + 1 := by omega
      rw [List.drop_take, hsub, List.take_take, Nat.min_eq_left (by omega)]
    rw [AdjustmentsTable.memberAt, htake]
  have hlast : 2 + rows.length ≤ t.rows.length - 2 := by omega
  have hleaves := rows_leaves c rows (Nat.le_refl 2) hlast hnumber ⟨[], 0, []⟩
    ⟨List.forall_mem_nil _, rfl⟩
  rw [IdScript.run] at hq
  cases hrun : (t.walked.forM fun row => c.fixRow t.headers row.2 row.1) ⟨[], 0, []⟩ with
  | ok r =>
    rw [hrun] at hq
    exact hleaves.1 r.1 r.2 hrun q hq
  | error s =>
    rw [hrun] at hq
    exact hleaves.2 s hrun q hq

/-- A blank ends the first word. -/
theorem firstWord_blank (s y : Str) : firstWord (s ++ ' ' :: y) = firstWord s :=
  firstWord_append blank_head

/-- The first word is one word. -/
theorem firstWord_firstWord (s : Str) : firstWord (firstWord s) = firstWord s :=
  (firstWord_eq_self_iff _).mpr fun c hc => by simpa using List.mem_takeWhile_imp hc

/-- A number in force is one word. -/
theorem firstWord_memberAt (t : AdjustmentsTable) (i : ℕ) :
    firstWord (t.memberAt i) = t.memberAt i := by
  have hfold : ∀ (rows : List PageRow) (n : Str), firstWord n = n →
      firstWord (rows.foldl (nextNumber t.headers) n) = rows.foldl (nextNumber t.headers) n := by
    intro rows
    induction rows with
    | nil => exact fun _ h => h
    | cons row rows ih =>
      intro n hn
      refine ih _ ?_
      unfold nextNumber
      split
      · split
        · exact firstWord_firstWord _
        · exact hn
      · exact hn
  exact hfold _ [] rfl

/-- An element is found under an id only in the rows of the member the id names. -/
theorem row_of_byId {c : IdScript} {t : AdjustmentsTable} {m y : Str} {e : Element}
    (h : Elements.byId t.elements (c.run t) (m ++ ' ' :: y) = some e) :
    2 ≤ e.row ∧ e.row + 2 < t.rows.length ∧ t.memberAt e.row = firstWord m := by
  obtain ⟨hlow, hlast, z, hz⟩ :=
    own_of_mem_run c t (Elements.mem_of_idOf (Elements.idOf_of_byId h))
  have hlast' : e.row < t.rows.length - 2 := hlast
  have hword := congrArg firstWord hz
  rw [firstWord_blank, firstWord_blank, firstWord_memberAt] at hword
  exact ⟨hlow, by omega, hword.symm⟩

/-! ## Whose checks -/

/-- The check looks for an id of this member. -/
def Names (m : Str) (c : Check) : Prop := ∃ y, c.htmlId = m ++ ' ' :: y

/-- What is looked up for a benefit starts with the number of the member. -/
theorem names_text (m benShrtNm : Str) (what : String) (s : Option Str) (typ : Typ) :
    Names m (textCheck (m ++ ' ' :: benShrtNm) what s typ) :=
  ⟨benShrtNm ++ what.toList, List.append_assoc m _ _⟩

theorem names_number (m benShrtNm : Str) (what : String) (x : ℚ) (typ : Typ) :
    Names m (numberCheck (m ++ ' ' :: benShrtNm) what x typ) :=
  ⟨benShrtNm ++ what.toList, List.append_assoc m _ _⟩

/-- A label that starts with a blank comes after the number itself. -/
theorem names_text_total (m : Str) {what : String} (h : what.toList.head? = some ' ')
    (s : Option Str) (typ : Typ) : Names m (textCheck m what s typ) := by
  obtain ⟨y, hy⟩ := List.head?_eq_some_iff.mp h
  exact ⟨y, congrArg (m ++ ·) hy⟩

theorem names_number_total (m : Str) {what : String} (h : what.toList.head? = some ' ')
    (x : ℚ) (typ : Typ) : Names m (numberCheck m what x typ) := by
  obtain ⟨y, hy⟩ := List.head?_eq_some_iff.mp h
  exact ⟨y, congrArg (m ++ ·) hy⟩

/-- The check of a name looks for the member of its row. -/
theorem names_nameCheck (r : Row) : Names (shown (r.text .mbrNo)) (nameCheck r) :=
  names_text_total _ rfl _ _

/-- So do those of a benefit. -/
theorem names_benefitChecks (w : World) (r : Row) :
    ∀ c ∈ benefitChecks w r, Names (shown (r.text .mbrNo)) c := by
  unfold benefitChecks
  dsimp only
  split_ifs <;> simp [names_text, names_number]

theorem names_totalChecks (w : World) (r : Row) :
    ∀ c ∈ totalChecks w r, Names (shown (r.text .mbrNo)) c := by
  unfold totalChecks
  dsimp only
  split
  · simp only [List.forall_mem_cons]
    exact ⟨names_text_total _ rfl _ _, names_text_total _ rfl _ _, names_number_total _ rfl _ _,
      List.forall_mem_nil _⟩
  · split
    · simp only [List.forall_mem_append, List.forall_mem_cons]
      refine ⟨?_, names_text_total _ rfl _ _, names_number_total _ rfl _ _, List.forall_mem_nil _⟩
      split
      · exact List.forall_mem_singleton.mpr (names_text_total _ rfl _ _)
      · exact List.forall_mem_nil _
    · exact List.forall_mem_nil _

/-- Those of the summarized view look for the member of this row or of the row before. -/
theorem names_summarized (x : Summarized) (r : Row) :
    ∀ c ∈ x.checks r, Names (shown (r.text .mbrNo)) c ∨ Names (shown x.mbrNo) c := by
  have hrollup : ∀ c ∈ x.rollupChecks, Names (shown x.mbrNo) c := by
    simp [Summarized.rollupChecks, names_text, names_number]
  have htotal : ∀ c ∈ x.totalChecks r, Names (shown x.mbrNo) c := by
    simp only [Summarized.totalChecks, List.forall_mem_cons]
    exact ⟨names_text_total _ rfl _ _, names_text_total _ rfl _ _, names_number_total _ rfl _ _,
      List.forall_mem_nil _⟩
  intro c hc
  unfold Summarized.checks at hc
  rcases List.mem_append.mp hc with hc | hc
  · split at hc
    · exact absurd hc List.not_mem_nil
    · rcases List.mem_append.mp hc with hc | hc
      · split at hc
        · rw [List.mem_singleton.mp hc]
          exact .inl (names_nameCheck r)
        · exact absurd hc List.not_mem_nil
      · split at hc
        · exact .inr (hrollup c hc)
        · exact absurd hc List.not_mem_nil
  · split at hc
    · exact .inr (htotal c hc)
    · exact absurd hc List.not_mem_nil

/-- Those of an adjustment look for the member of the row. -/
theorem names_adjustmentChecks (r : Row) :
    ∀ c ∈ adjustmentChecks r, Names (shown (r.text .mbrNo)) c := by
  unfold adjustmentChecks
  dsimp only
  split
  · simp [names_nameCheck, names_text]
  · split
    · simp only [List.forall_mem_cons]
      exact ⟨names_text_total _ rfl _ _, names_text_total _ rfl _ _, names_text_total _ rfl _ _,
        List.forall_mem_nil _⟩
    · exact List.forall_mem_nil _

/-! ## The checks of a run -/

/-- A row of the recordset, or one past its end, which has no number. -/
def Reads (rows : List Row) (r : Row) : Prop := r ∈ rows ∨ shown (r.text .mbrNo) = []

/-- The check looks for an id of the member of a row. -/
def NamesMember (rows : List Row) (c : Check) : Prop :=
  ∃ r, Reads rows r ∧ Names (shown (r.text .mbrNo)) c

/-- The walk is on these rows, and all results since the log `old` are of their members. -/
structure Walking (rows : List Row) (old : List Check) (w : World) : Prop where
  cursor : ∀ c ∈ w.rs, (∀ r ∈ c.rows, r ∈ rows) ∧ ∀ r ∈ c.rest, r ∈ rows
  log : ∃ cs, w.log = old ++ cs ∧ ∀ c ∈ cs, NamesMember rows c

section Walk

variable {rows : List Row} {old : List Check}

/-- The program keeps to the walk if it returns. -/
abbrev Walks {α : Type} (rows : List Row) (old : List Check) (m : Vb α) : Prop :=
  Leaves (Walking rows old) m (fun _ => Walking rows old) fun _ => True

/-- Asking for the recordset leaves it on the rows. -/
theorem cursor_leaves :
    Leaves (Walking rows old) cursor (fun c w => w.rs = some c ∧ Walking rows old w)
      fun _ => True := by
  intro w hw
  refine ⟨fun c w' h => ?_, fun _ _ => trivial⟩
  cases hrs : w.rs with
  | none =>
    rw [cursor_closed hrs] at h
    cases h
  | some c =>
    rw [cursor_run hrs] at h
    cases h
    exact ⟨hrs, hw⟩

/-- The current row is one of the rows, or there is none. -/
theorem current_leaves :
    Leaves (Walking rows old) current (fun r w => Reads rows r ∧ Walking rows old w)
      fun _ => True := by
  refine Leaves.bind cursor_leaves fun c => Leaves.pure _ fun w hw => ⟨?_, hw.2⟩
  have hrest := (hw.2.cursor c hw.1).2
  cases hc : c.rest with
  | nil => exact .inr rfl
  | cons r rest =>
    rw [hc] at hrest
    exact .inl (hrest r List.mem_cons_self)

/-- Moving on stays on the rows. -/
theorem moveNext_walks : Walks rows old moveNext := by
  refine Leaves.bind cursor_leaves fun c => Leaves.modify fun w hw => ⟨?_, hw.2.log⟩
  have hc := hw.2.cursor c hw.1
  rintro _ ⟨⟩
  exact ⟨hc.1, fun r hr => hc.2 r (List.mem_of_mem_tail hr)⟩

theorem moveFirst_walks : Walks rows old moveFirst := by
  refine Leaves.bind cursor_leaves fun c => Leaves.modify fun w hw => ⟨?_, hw.2.log⟩
  have hc := hw.2.cursor c hw.1
  rintro _ ⟨⟩
  exact ⟨hc.1, hc.1⟩

theorem rsClose_walks : Walks rows old rsClose :=
  Leaves.bind cursor_leaves fun _ => Leaves.modify fun w hw => ⟨by simp, hw.2.log⟩

/-- A recordset of these rows is opened on them. -/
theorem rsOpen_walks {rs : List Row} (h : ∀ r ∈ rs, r ∈ rows) : Walks rows old (rsOpen rs) := by
  have hopen : Walks rows old (modify fun w => { w with rs := some ⟨rs, rs⟩ }) := by
    refine Leaves.modify fun w hw => ⟨?_, hw.log⟩
    rintro _ ⟨⟩
    exact ⟨h, h⟩
  refine Leaves.get_bind fun w _ => ?_
  split
  · refine Leaves.bind (R := fun _ => Walking rows old) (fun s hs => ⟨fun a s' h => ?_, ?_⟩)
      fun _ => hopen
    · cases h
    · exact fun _ _ => trivial
  · exact hopen

/-- Checks that name members of the rows are such results. -/
theorem validateElements_walks {cs : List Check} (h : ∀ c ∈ cs, NamesMember rows c) :
    Walks rows old (validateElements cs) := by
  intro w hw
  refine ⟨fun a w' hrun => ?_, fun _ _ => trivial⟩
  rw [validateElements_run] at hrun
  cases hrun
  obtain ⟨ds, hlog, hds⟩ := hw.log
  refine ⟨hw.cursor, ds ++ cs.map w.labelled, ?_, ?_⟩
  · show w.log ++ cs.map w.labelled = _
    rw [hlog, List.append_assoc]
  · intro c hc
    rcases List.mem_append.mp hc with hc | hc
    · exact hds c hc
    · -- the label leaves the id alone
      obtain ⟨d, hd, rfl⟩ := List.mem_map.mp hc
      exact h d hd

/-- A loop keeps to the walk when its rounds do, with what its locals are. -/
theorem whileRow_leaves {τ : Type} {J : τ → Prop} {cond : Row → Option Bool} {body : τ → Vb τ}
    (hbody : ∀ x, J x →
      Leaves (Walking rows old) (body x) (fun y w => J y ∧ Walking rows old w) fun _ => True)
    {x : τ} (hx : J x) :
    Leaves (Walking rows old) (whileRow cond x body) (fun y w => J y ∧ Walking rows old w)
      fun _ => True := by
  refine Leaves.bind cursor_leaves fun c => ?_
  refine Leaves.mono (P := Walking rows old) ?_ fun w hw => hw.2
  refine Leaves.loop trivial (fun _ => ?_) hbody _ hx
  refine Leaves.bind cursor_leaves fun c => ?_
  split
  · exact Leaves.pure _ fun _ hw => hw.2
  · exact Leaves.pure _ fun _ hw => hw.2

/-- So does one without locals. -/
theorem whileRow_walks {cond : Row → Option Bool} {body : Unit → Vb Unit}
    (hbody : Walks rows old (body ())) : Walks rows old (whileRow cond () body) := by
  intro w hw
  have hround : ∀ x : Unit, True → Leaves (Walking rows old) (body x)
      (fun _ w => True ∧ Walking rows old w) fun _ => True := fun _ _ s hs =>
    ⟨fun a s' h => ⟨trivial, (hbody s hs).1 a s' h⟩, fun _ _ => trivial⟩
  have hloop : Leaves (Walking rows old) (whileRow cond () body)
      (fun _ w => True ∧ Walking rows old w) (fun _ => True) := whileRow_leaves hround trivial
  exact ⟨fun a s' h => ((hloop w hw).1 a s' h).2, (hloop w hw).2⟩

/-- Checks for the member of a row are such results. -/
theorem checks_walks {r : Row} (hr : Reads rows r) {cs : List Check}
    (h : ∀ c ∈ cs, Names (shown (r.text .mbrNo)) c) : Walks rows old (validateElements cs) :=
  validateElements_walks fun c hc => ⟨r, hr, h c hc⟩

/-- The routines keep to the walk, one after the other. -/
theorem validateMemberDetailBenefits_walks : Walks rows old validateMemberDetailBenefits := by
  refine whileRow_walks (Leaves.get_bind fun w _ => ?_)
  refine Leaves.bind current_leaves fun r => Leaves.of_and fun hr => ?_
  exact Leaves.bind (checks_walks hr (names_benefitChecks w r)) fun _ => moveNext_walks

theorem validateMemberDetailTotals_walks : Walks rows old validateMemberDetailTotals := by
  refine Leaves.get_bind fun w _ => ?_
  refine Leaves.bind current_leaves fun r => Leaves.of_and fun hr => ?_
  exact checks_walks hr (names_totalChecks w r)

theorem memberRound_walks : Walks rows old memberRound := by
  refine Leaves.bind current_leaves fun r => Leaves.of_and fun _ => ?_
  have hmember : Walks rows old (do
      let r ← current
      validateElements [nameCheck r]
      validateMemberDetailBenefits
      validateMemberDetailTotals
      moveNext) := by
    refine Leaves.bind current_leaves fun r => Leaves.of_and fun hr => ?_
    have hname := List.forall_mem_singleton.mpr (names_nameCheck r)
    refine Leaves.bind (checks_walks hr hname) fun _ => ?_
    refine Leaves.bind validateMemberDetailBenefits_walks fun _ => ?_
    exact Leaves.bind validateMemberDetailTotals_walks fun _ => moveNext_walks
  split
  · exact Leaves.bind moveNext_walks fun _ => hmember
  · exact hmember

theorem memberDetailLoops_walks : Walks rows old memberDetailLoops :=
  Leaves.bind (whileRow_walks moveNext_walks) fun _ => whileRow_walks memberRound_walks

/-- The number kept from the row before is that of a row, too. -/
theorem memberDetailSummarized_walks : Walks rows old memberDetailSummarized := by
  refine Leaves.bind moveFirst_walks fun _ => ?_
  let J : Summarized → Prop := fun x => ∃ r, Reads rows r ∧ x.mbrNo = r.text .mbrNo
  have hfirst : J ⟨none, none, 0, 0, none⟩ := ⟨fun _ => none, .inr rfl, rfl⟩
  refine Leaves.bind (whileRow_leaves (J := J) (fun x hx => ?_) hfirst) fun _ =>
    Leaves.pure _ fun _ hw => hw.2
  obtain ⟨r', hr', hx⟩ := hx
  refine Leaves.bind current_leaves fun r => Leaves.of_and fun hr => ?_
  have hchecks : ∀ c ∈ x.checks r, NamesMember rows c := by
    intro c hc
    rcases names_summarized x r c hc with hname | hname
    · exact ⟨r, hr, hname⟩
    · exact ⟨r', hr', hx ▸ hname⟩
  refine Leaves.bind (validateElements_walks hchecks) fun _ => ?_
  exact Leaves.bind moveNext_walks fun _ => Leaves.pure _ fun _ hw => ⟨⟨r, hr, rfl⟩, hw⟩

/-- Both views of the members keep to the walk. -/
theorem validateMemberDetails_walks (b : BillData) :
    Walks (b.members ++ b.onlineMembers) old (validateMemberDetails b) := by
  refine Leaves.get_bind fun w _ => ?_
  have hclose : Walks (b.members ++ b.onlineMembers) old (do
      memberDetailLoops
      rsClose) := Leaves.bind memberDetailLoops_walks fun _ => rsClose_walks
  have hsummarized : Walks (b.members ++ b.onlineMembers) old (do
      memberDetailLoops
      memberDetailSummarized
      rsClose) :=
    Leaves.bind memberDetailLoops_walks fun _ =>
      Leaves.bind memberDetailSummarized_walks fun _ => rsClose_walks
  split
  · exact Leaves.bind (rsOpen_walks fun r hr => List.mem_append_right _ hr) fun _ => hsummarized
  · split
    · exact Leaves.bind (rsOpen_walks fun r hr => List.mem_append_left _ hr) fun _ => hclose
    · exact hclose

end Walk

/-- The element is in the rows that the script takes for those of the member. -/
def AdjustmentsTable.InRowsOf (t : AdjustmentsTable) (m : Str) (e : Element) : Prop :=
  2 ≤ e.row ∧ e.row + 2 < t.rows.length ∧ t.memberAt e.row = firstWord m

/-- Whatever the page is like, every check of the member details is made for the member of a record
and never looks at the rows of another member; nor does a check of the member adjustments. -/
theorem checks_in_own_rows (b : BillData) (w w' : World) (hclosed : w.rs = none) :
    (validateMemberDetails b w = .ok ((), w') →
      ∃ cs, w'.log = w.log ++ cs ∧ ∀ c ∈ cs, ∃ r, Reads (b.members ++ b.onlineMembers) r ∧
        Names (shown (r.text .mbrNo)) c ∧
        ∀ (t : AdjustmentsTable) (e : Element),
          t.detailById c.htmlId = some e → t.InRowsOf (shown (r.text .mbrNo)) e) ∧
    (validateMemberAdjustments b w = .ok ((), w') →
      ∃ cs, w'.log = w.log ++ cs ∧ ∀ c ∈ cs, ∃ r, Reads b.adjustments r ∧
        Names (shown (r.text .mbrNo)) c ∧
        ∀ (t : AdjustmentsTable) (e : Element),
          t.getElementById c.htmlId = some e → t.InRowsOf (shown (r.text .mbrNo)) e) := by
  have hfound : ∀ (script : IdScript) (r : Row) (c : Check), Names (shown (r.text .mbrNo)) c →
      ∀ (t : AdjustmentsTable) (e : Element),
        Elements.byId t.elements (script.run t) c.htmlId = some e →
          t.InRowsOf (shown (r.text .mbrNo)) e := by
    rintro script r c ⟨y, hy⟩ t e h
    rw [hy] at h
    exact row_of_byId h
  refine ⟨fun hrun => ?_, fun hrun => ?_⟩
  · have hstart : Walking (b.members ++ b.onlineMembers) w.log w :=
      ⟨by simp [hclosed], [], by simp, List.forall_mem_nil _⟩
    obtain ⟨cs, hlog, hcs⟩ := ((validateMemberDetails_walks b w hstart).1 () w' hrun).log
    refine ⟨cs, hlog, fun c hc => ?_⟩
    obtain ⟨r, hr, hname⟩ := hcs c hc
    exact ⟨r, hr, hname, hfound detailScript r c hname⟩
  · rw [validateMemberAdjustments_run b hclosed] at hrun
    cases hrun
    refine ⟨_, rfl, fun c hc => ?_⟩
    obtain ⟨d, hd, rfl⟩ := List.mem_map.mp hc
    obtain ⟨r, hr, hd⟩ := List.mem_flatMap.mp hd
    have hname : Names (shown (r.text .mbrNo)) (w.labelled d) := names_adjustmentChecks r d hd
    exact ⟨r, .inl hr, hname, hfound adjustmentScript r _ hname⟩

/-- A bill of format 04 with one member. -/
def BillData.memberSeven : BillData :=
  { BillData.withFormats ['4'] ['0', '4'] with
    members :=
      [Row.of [(.recordType, ⟨['N'], 0⟩), (.mbrNo, ⟨['7'], 7⟩), (.benShrtNm, ⟨['A'], 0⟩)],
        Row.of [(.recordType, ⟨['O'], 0⟩), (.mbrNo, ⟨['7'], 7⟩)],
        typedRow 'P'] }

/-- The run of this bill and the rows of its member. -/
theorem checks_in_own_rows_memberSeven :
    ∃ w', validateMemberDetails BillData.memberSeven
        { World.start with con := true, billFormat := some ['0', '4'] } = .ok ((), w') ∧
      ∃ cs, w'.log = [] ++ cs ∧ ∀ c ∈ cs,
        ∃ r, Reads (BillData.memberSeven.members ++ BillData.memberSeven.onlineMembers) r ∧
          Names (shown (r.text .mbrNo)) c ∧
          ∀ (t : AdjustmentsTable) (e : Element),
            t.detailById c.htmlId = some e → t.InRowsOf (shown (r.text .mbrNo)) e := by
  obtain ⟨_, w', hrun, -⟩ := validateMemberDetails_keeps BillData.memberSeven
    (f := (none, some ['0', '4'])) (.inr (.inr rfl))
    { World.start with con := true, billFormat := some ['0', '4'] } ⟨rfl, rfl, rfl⟩
  exact ⟨w', hrun, (checks_in_own_rows BillData.memberSeven _ w' rfl).1 hrun⟩

end OaBills
