import ScriptsMisc.OaBills.AdjustmentIds

/-! # Looking up the member adjustments

`validateMemberAdjustments` finds the line of each record by the id it builds from the record. The
first element of the document that has an id is the one found, so the ids resolve when the ids of a
member tell its lines apart.
-/

namespace OaBills

open CamelCase (jsSpace)
open Vbs (shown)

/-! ## Document order -/

/-- The row an element is in. -/
def Element.row : Element → ℕ
  | .link i => i
  | .line i _ _ _ => i
  | .cell i _ => i

/-- The elements of a row are in it. -/
theorem row_of_mem_rowElements {i : ℕ} {row : PageRow} {e : Element}
    (h : e ∈ rowElements i row) : e.row = i := by
  rcases List.mem_cons.mp h with rfl | h
  · rfl
  · obtain ⟨c, -, h⟩ := List.mem_flatMap.mp h
    rcases List.mem_cons.mp h with rfl | h
    · rfl
    · obtain ⟨t, -, h⟩ := List.mem_flatMap.mp h
      obtain ⟨line, -, rfl⟩ := List.mem_map.mp h
      rfl

/-- The elements of earlier rows come before those of a row. -/
theorem elements_split {t : AdjustmentsTable} {i : ℕ} {row : PageRow}
    (h : t.rows[i]? = some row) :
    ∃ before after, t.elements = before ++ (rowElements i row ++ after) ∧
      ∀ e ∈ before, e.row < i := by
  obtain ⟨hi, rfl⟩ := List.getElem?_eq_some_iff.mp h
  have hlength : (t.rows.take i).length = i := by rw [List.length_take]; omega
  have hrows : t.rows.zipIdx = (t.rows.take i).zipIdx ++
      (t.rows[i], i) :: (t.rows.drop (i + 1)).zipIdx (i + 1) := by
    conv_lhs => rw [← List.take_append_drop i t.rows]
    rw [List.zipIdx_append, hlength, List.drop_eq_getElem_cons hi, Nat.zero_add, List.zipIdx_cons]
  refine ⟨(t.rows.take i).zipIdx.flatMap fun row => rowElements row.2 row.1,
    ((t.rows.drop (i + 1)).zipIdx (i + 1)).flatMap fun row => rowElements row.2 row.1, ?_, ?_⟩
  · rw [AdjustmentsTable.elements, hrows, List.flatMap_append, List.flatMap_cons]
  · intro e he
    obtain ⟨row, hrow, he⟩ := List.mem_flatMap.mp he
    have hlt := List.snd_lt_of_mem_zipIdx hrow
    rw [row_of_mem_rowElements he]
    omega

/-- A line of a table in a cell is an element of the row. -/
theorem line_mem_rowElements {i k n j : ℕ} {row : PageRow} {cell : PageCell} {t : SubTable}
    (hcell : row.cells[k]? = some cell) (ht : cell.tables[n]? = some t) (hj : j < t.lines.length) :
    .line i k n j ∈ rowElements i row := by
  refine List.mem_cons_of_mem _ (List.mem_flatMap.mpr ⟨(cell, k), ?_, ?_⟩)
  · exact List.mem_zipIdx_iff_getElem?.mpr hcell
  · refine List.mem_cons_of_mem _ (List.mem_flatMap.mpr ⟨(t, n), ?_, ?_⟩)
    · exact List.mem_zipIdx_iff_getElem?.mpr ht
    · exact List.mem_map.mpr ⟨(t.lines[j], j),
        List.mem_zipIdx_iff_getElem?.mpr (List.getElem?_eq_getElem hj), rfl⟩

/-! ## Which id an element has -/

/-- The ids of a member: that of its name, and one for each line below each header. -/
theorem AdjustedMember.mem_memberIds_iff {headers : List Str} {m : AdjustedMember headers} {i : ℕ}
    {q : Element × Str} :
    q ∈ m.memberIds i ↔ q = (.link i, firstWord m.mbrNo ++ " Name".toList) ∨
      ∃ j k benefit header, m.benefitTexts[j]? = some benefit ∧ headers.tail[k]? = some header ∧
        q = (.line i (k + 1) m.table j, lineId (firstWord m.mbrNo) benefit header) := by
  rw [memberIds, List.mem_cons]
  apply or_congr_right
  constructor
  · intro h
    obtain ⟨⟨benefit, j⟩, hbenefit, h⟩ := List.mem_flatMap.mp h
    obtain ⟨⟨⟨cell, header⟩, n⟩, hcolumn, rfl⟩ := List.mem_map.mp h
    obtain ⟨k, rfl, -, hheader⟩ := mem_columns_iff.mp hcolumn
    rw [← List.getElem?_tail] at hheader
    exact ⟨j, k, benefit, header, List.mem_zipIdx_iff_getElem?.mp hbenefit, hheader, rfl⟩
  · rintro ⟨j, k, benefit, header, hbenefit, hheader, rfl⟩
    rw [List.getElem?_tail] at hheader
    obtain ⟨cell, hcell⟩ : ∃ cell, m.row.cells[k + 1]? = some cell := by
      have hlt := (List.getElem?_eq_some_iff.mp hheader).1
      exact ⟨_, List.getElem?_eq_getElem (m.cells_length ▸ hlt)⟩
    refine List.mem_flatMap.mpr ⟨(benefit, j), List.mem_zipIdx_iff_getElem?.mpr hbenefit, ?_⟩
    exact List.mem_map.mpr ⟨((cell, header), k + 1),
      mem_columns_iff.mpr ⟨k, rfl, hcell, hheader⟩, rfl⟩

/-- Every id starts with the number of the member and a blank. -/
theorem AdjustedMember.Gives.spec {headers : List Str} {m : AdjustedMember headers} {i : ℕ}
    {q : Element × Str} (h : m.Gives i q) :
    (∃ y, q.2 = firstWord m.mbrNo ++ ' ' :: y) ∧ i ≤ q.1.row ∧ q.1.row < i + m.rows.length ∧
      (q.1.row = i → q ∈ m.memberIds i) := by
  have hpos : 0 < m.rows.length := Nat.succ_pos _
  rcases h with h | ⟨k, l, y, hlt, hlt', rfl⟩
  · refine ⟨?_, ?_⟩
    · rcases mem_memberIds_iff.mp h with rfl | ⟨j, k, benefit, header, -, -, rfl⟩
      · exact ⟨_, rfl⟩
      · exact ⟨benefit ++ ' ' :: header, by simp [lineId]⟩
    · have hrow : q.1.row = i := by
        rcases mem_memberIds_iff.mp h with rfl | ⟨j, k, benefit, header, -, -, rfl⟩ <;> rfl
      exact ⟨hrow.ge, by omega, fun _ => h⟩
  · have hrow : (Element.cell k l).row = k := rfl
    refine ⟨⟨y, rfl⟩, ?_, ?_, fun heq => ?_⟩
    · show i ≤ k
      omega
    · exact hlt'
    · exact absurd (hrow.symm.trans heq) (by omega)

/-! ## Ids in parts -/

/-- A text without white space is its own first word. -/
theorem firstWord_eq_self_iff (s : Str) : firstWord s = s ↔ ∀ c ∈ s, jsSpace c = false := by
  rw [firstWord, List.takeWhile_eq_self_iff]
  simp

theorem blank_head {y : Str} : ∀ c ∈ (' ' :: y).head?, jsSpace c = true := by
  intro c hc
  rw [← Option.some.inj hc]
  decide

/-- Below headers that are told apart an id has one benefit and one header. -/
theorem append_header_inj {s s' h h' : Str} (hapart : ¬ (' ' :: h) <:+ h')
    (hapart' : ¬ (' ' :: h') <:+ h) (heq : s ++ ' ' :: h = s' ++ ' ' :: h') : s = s' ∧ h = h' := by
  have hcons : ' ' :: h = ' ' :: h' := by
    have hsuffix := List.suffix_append s (' ' :: h)
    rw [heq] at hsuffix
    rcases List.suffix_or_suffix_of_suffix hsuffix (List.suffix_append s' (' ' :: h')) with h₁ | h₁
    · exact (List.suffix_cons_iff.mp h₁).resolve_right hapart
    · exact ((List.suffix_cons_iff.mp h₁).resolve_right hapart').symm
  rw [hcons, List.append_cancel_right_eq] at heq
  exact ⟨heq, List.tail_eq_of_cons_eq hcons⟩

/-- The id of a line, after the number of its member. -/
theorem lineId_eq_append (memberNo benefit header : Str) :
    lineId memberNo benefit header = memberNo ++ ' ' :: (benefit ++ ' ' :: header) := by
  simp [lineId]

/-- The id of a name is none of a line. -/
theorem lineId_ne_name (memberNo benefit header : Str) :
    lineId memberNo benefit header ≠ memberNo ++ " Name".toList := by
  intro h
  have hname : " Name".toList = ' ' :: "Name".toList := rfl
  rw [lineId_eq_append, hname, List.append_cancel_left_eq, List.cons_eq_cons] at h
  have hmem : ' ' ∈ "Name".toList := by
    rw [← h.2]
    simp
  exact absurd hmem (by decide)

/-! ## When every id resolves -/

namespace AdjustmentsPage

variable (p : AdjustmentsPage)

/-- Every id under which a value of a record of type `I` is looked up resolves to what shows the
record: the link of its member, and its own line below the header. -/
def Resolves : Prop :=
  ∀ m ∈ p.placed, ∀ j r, m.2.records[j]? = some r →
    p.table.getElementById (shown (r.text .mbrNo) ++ " Name".toList) = some (.link m.1) ∧
    ∀ header ∈ adjustmentFields, ∀ k, p.headers.tail[k]? = some header →
      p.table.getElementById (lineId (shown (r.text .mbrNo)) (shown (r.text .benShrtNm)) header) =
        some (.line m.1 (k + 1) m.2.table j)

/-- No member number has white space, and no member has two records of one benefit. -/
def OneLineEach : Prop :=
  ∀ m ∈ p.members, (∀ c ∈ m.mbrNo, jsSpace c = false) ∧ m.benefitTexts.Nodup

theorem mem_members {m : ℕ × AdjustedMember p.headers} (hm : m ∈ p.placed) : m.2 ∈ p.members := by
  rw [← positions_map_snd 2 p.members]
  exact List.mem_map_of_mem hm

/-- What is given to an element of a member's row is given by the member. -/
theorem mem_memberIds_of_row {m : ℕ × AdjustedMember p.headers} (hm : m ∈ p.placed) {e : Element}
    {x : Str} (hrow : e.row = m.1) (hx : (e, x) ∈ fixMbrAdjustmentIDs p.table) :
    (e, x) ∈ m.2.memberIds m.1 := by
  obtain ⟨m', hm', hgives⟩ := p.ids_spec.1 _ hx
  obtain ⟨-, hle, hlt, hin⟩ := hgives.spec
  dsimp only at hle hlt hin
  have hpos : 0 < m.2.rows.length := Nat.succ_pos _
  have hsame : m' = m := p.placed_eq hm' hm (by omega) (by omega)
  rw [hsame] at hin
  exact hin hrow

/-- Ids that start with the number of a member are found in its rows at the earliest. -/
theorem getElementById_of_unique (hone : p.OneLineEach) {m : ℕ × AdjustedMember p.headers}
    (hm : m ∈ p.placed) {e : Element} {y : Str} (he : e ∈ rowElements m.1 m.2.row)
    (hid : (e, m.2.mbrNo ++ ' ' :: y) ∈ m.2.memberIds m.1)
    (honly : ∀ x, (e, x) ∈ m.2.memberIds m.1 → x = m.2.mbrNo ++ ' ' :: y)
    (hunique : ∀ d, (d, m.2.mbrNo ++ ' ' :: y) ∈ m.2.memberIds m.1 → d = e) :
    p.table.getElementById (m.2.mbrNo ++ ' ' :: y) = some e := by
  obtain ⟨hgives, hall⟩ := p.ids_spec
  obtain ⟨before, after, helements, hbefore⟩ := elements_split (p.getElem?_rows hm)
  have hword : ∀ m' ∈ p.placed, firstWord m'.2.mbrNo = m'.2.mbrNo := fun m' hm' =>
    (firstWord_eq_self_iff _).mpr (hone m'.2 (p.mem_members hm')).1
  unfold AdjustmentsTable.getElementById
  rw [helements]
  apply Elements.byId_append
  · intro d hd hx
    obtain ⟨m', hm', hm'gives⟩ := hgives _ (Elements.mem_of_idOf hx)
    obtain ⟨⟨y', hy'⟩, hle, -, -⟩ := hm'gives.spec
    have hnumber := congrArg firstWord hy'
    rw [hword m' hm', firstWord_append blank_head, firstWord_append blank_head, hword m hm,
      hword m' hm'] at hnumber
    have hsame := p.placed_eq_of_mbrNo hm' hm hnumber.symm
    have hlt := hbefore d hd
    rw [hsame] at hle
    exact absurd hle (Nat.not_le.mpr hlt)
  · exact he
  · apply Elements.idOf_of_unique (hall m hm _ hid)
    exact fun x hx => honly x (p.mem_memberIds_of_row hm (row_of_mem_rowElements he) hx)
  · intro d hd hx
    apply hunique
    exact p.mem_memberIds_of_row hm (row_of_mem_rowElements hd) (Elements.mem_of_idOf hx)

/-- The link of a member is found under the id of its name. -/
theorem getElementById_name (hone : p.OneLineEach) {m : ℕ × AdjustedMember p.headers}
    (hm : m ∈ p.placed) (hword : firstWord m.2.mbrNo = m.2.mbrNo) :
    p.table.getElementById (m.2.mbrNo ++ " Name".toList) = some (.link m.1) := by
  apply p.getElementById_of_unique hone hm List.mem_cons_self
  · exact AdjustedMember.mem_memberIds_iff.mpr (.inl (by rw [hword]; rfl))
  · intro x hx
    rcases AdjustedMember.mem_memberIds_iff.mp hx with heq | ⟨j, k, benefit, header, -, -, heq⟩
    · rw [hword] at heq
      exact congrArg Prod.snd heq
    · exact absurd (congrArg Prod.fst heq) (by simp)
  · intro d hd
    rcases AdjustedMember.mem_memberIds_iff.mp hd with heq | ⟨j, k, benefit, header, -, -, heq⟩
    · exact congrArg Prod.fst heq
    · rw [hword] at heq
      exact absurd (congrArg Prod.snd heq).symm (lineId_ne_name _ _ _)

/-- A line of a member is found below every field when the benefits of the member differ. -/
theorem getElementById_line (hone : p.OneLineEach) {m : ℕ × AdjustedMember p.headers}
    (hm : m ∈ p.placed) (hword : firstWord m.2.mbrNo = m.2.mbrNo)
    (hnodup : m.2.benefitTexts.Nodup) {j k : ℕ} {benefit header : Str}
    (hbenefit : m.2.benefitTexts[j]? = some benefit) (hfield : header ∈ adjustmentFields)
    (hheader : p.headers.tail[k]? = some header) :
    p.table.getElementById (lineId m.2.mbrNo benefit header) =
      some (.line m.1 (k + 1) m.2.table j) := by
  rw [lineId_eq_append]
  apply p.getElementById_of_unique hone hm
  · obtain ⟨cell, hcell⟩ : ∃ cell, m.2.row.cells[k + 1]? = some cell := by
      rw [List.getElem?_tail] at hheader
      have hlt := (List.getElem?_eq_some_iff.mp hheader).1
      exact ⟨_, List.getElem?_eq_getElem (m.2.cells_length ▸ hlt)⟩
    obtain ⟨t, ht, hlength⟩ := m.2.lines k cell hcell
    have hj := (List.getElem?_eq_some_iff.mp hbenefit).1
    rw [AdjustedMember.benefitTexts, List.length_map] at hj
    exact line_mem_rowElements hcell ht (hlength ▸ hj)
  · rw [AdjustedMember.mem_memberIds_iff, ← lineId_eq_append]
    refine .inr ⟨j, k, benefit, header, hbenefit, hheader, ?_⟩
    rw [hword]
  · intro x hx
    rcases AdjustedMember.mem_memberIds_iff.mp hx with
      heq | ⟨j', k', benefit', header', hbenefit', hheader', heq⟩
    · exact absurd (congrArg Prod.fst heq) (by simp)
    · rw [Prod.mk.injEq, Element.line.injEq, Nat.add_right_cancel_iff] at heq
      obtain ⟨⟨-, rfl, -, rfl⟩, rfl⟩ := heq
      rw [hbenefit] at hbenefit'
      rw [hheader] at hheader'
      rw [hword, Option.some.inj hbenefit', Option.some.inj hheader', lineId_eq_append]
  · intro d hd
    rcases AdjustedMember.mem_memberIds_iff.mp hd with
      heq | ⟨j', k', benefit', header', hbenefit', hheader', heq⟩
    · rw [hword, ← lineId_eq_append] at heq
      exact absurd (congrArg Prod.snd heq) (lineId_ne_name _ _ _)
    · rw [hword, lineId_eq_append, Prod.mk.injEq, List.append_cancel_left_eq,
        List.cons_eq_cons] at heq
      obtain ⟨hapart, hapart'⟩ :=
        p.headers_apart _ hfield _ (List.mem_of_getElem? hheader')
      obtain ⟨rfl, rfl⟩ := append_header_inj hapart hapart' heq.2.2
      have hj := (List.getElem?_inj (List.getElem?_eq_some_iff.mp hbenefit).1 hnodup).mp
        (hbenefit.trans hbenefit'.symm)
      have hk := (List.getElem?_inj (List.getElem?_eq_some_iff.mp hheader).1 p.headers_nodup).mp
        (hheader.trans hheader'.symm)
      rw [heq.1, hj, hk]

/-- The members of the page are those that are placed on it. -/
theorem exists_placed {m : AdjustedMember p.headers} (hm : m ∈ p.members) :
    ∃ i, (i, m) ∈ p.placed := by
  rw [← positions_map_snd 2 p.members] at hm
  obtain ⟨q, hq, rfl⟩ := List.mem_map.mp hm
  exact ⟨q.1, hq⟩

/-- The records of type `I` are those of the members. -/
theorem exists_record {r : Row} (hr : r ∈ p.recordset) (htype : r.text .recordType = some ['I']) :
    ∃ m ∈ p.placed, ∃ j : ℕ, m.2.records[j]? = some r := by
  obtain ⟨m, hm, hmem⟩ := List.mem_flatMap.mp hr
  obtain ⟨i, hplaced⟩ := p.exists_placed hm
  have hrecord := (List.mem_append.mp hmem).resolve_right fun h => m.others_shape r h htype
  exact ⟨(i, m), hplaced, List.getElem?_of_mem hrecord⟩

/-- Where the link is found under the id of the name, the number is the first word of the cell. -/
theorem firstWord_of_name {m : ℕ × AdjustedMember p.headers} (hm : m ∈ p.placed)
    (h : p.table.getElementById (m.2.mbrNo ++ " Name".toList) = some (.link m.1)) :
    firstWord m.2.mbrNo = m.2.mbrNo := by
  have hin := p.mem_memberIds_of_row hm rfl (Elements.mem_of_idOf (Elements.idOf_of_byId h))
  rcases AdjustedMember.mem_memberIds_iff.mp hin with heq | ⟨j, k, b, c, -, -, heq⟩
  · have hname := congrArg Prod.snd heq
    rw [List.append_cancel_right_eq] at hname
    exact hname.symm
  · exact absurd (congrArg Prod.fst heq) (by simp)

/-- Two records of one benefit have the same line found. -/
theorem benefits_nodup {m : ℕ × AdjustedMember p.headers} (hm : m ∈ p.placed) (h : p.Resolves) :
    m.2.benefitTexts.Nodup := by
  have hfield : "Benefit".toList ∈ adjustmentFields := List.mem_cons_self
  obtain ⟨k, hk⟩ := List.getElem?_of_mem (p.fields_mem _ hfield)
  have hline : ∀ j r, m.2.records[j]? = some r →
      p.table.getElementById
          (lineId m.2.mbrNo (shown (r.text .benShrtNm)) "Benefit".toList) =
        some (.line m.1 (k + 1) m.2.table j) := by
    intro j r hr
    rw [← (m.2.records_shape r (List.mem_of_getElem? hr)).2]
    exact (h m hm j r hr).2 _ hfield k hk
  rw [List.nodup_iff_getElem?_ne_getElem?]
  intro j j' hlt hj' heq
  rw [AdjustedMember.benefitTexts, List.length_map] at hj'
  have hr := List.getElem?_eq_getElem (hlt.trans hj')
  have hr' := List.getElem?_eq_getElem hj'
  have hsame := hline j _ hr
  rw [AdjustedMember.benefitTexts, List.getElem?_map, List.getElem?_map, hr, hr',
    Option.map_some, Option.map_some, Option.some_inj] at heq
  rw [heq, hline j' _ hr', Option.some_inj, Element.line.injEq] at hsame
  omega

/-- Every id of a type `I` record resolves to what shows the record exactly when no member number
has white space and no member has two records of one benefit. -/
theorem resolves_iff : p.Resolves ↔ p.OneLineEach := by
  constructor
  · intro h m hm
    obtain ⟨i, hplaced⟩ := p.exists_placed hm
    obtain ⟨r, rs, hrecords⟩ := List.exists_cons_of_ne_nil m.records_ne
    have hr : m.records[0]? = some r := by rw [hrecords]; rfl
    have hname := (h (i, m) hplaced 0 r hr).1
    rw [(m.records_shape r (List.mem_of_getElem? hr)).2] at hname
    exact ⟨(firstWord_eq_self_iff _).mp (p.firstWord_of_name hplaced hname),
      p.benefits_nodup hplaced h⟩
  · intro hone m hm j r hr
    obtain ⟨hspace, hnodup⟩ := hone m.2 (p.mem_members hm)
    have hword := (firstWord_eq_self_iff _).mpr hspace
    rw [(m.2.records_shape r (List.mem_of_getElem? hr)).2]
    refine ⟨p.getElementById_name hone hm hword, fun header hfield k hheader => ?_⟩
    apply p.getElementById_line hone hm hword hnodup _ hfield hheader
    rw [AdjustedMember.benefitTexts, List.getElem?_map, hr]
    rfl

end AdjustmentsPage

/-- The headers of the table with a column for every field. -/
def sampleHeaders : List Str := "Member".toList :: adjustmentFields

/-- An adjustment of the dental benefit of member 101. -/
def dentalRecord : Row :=
  Row.of [(.recordType, ⟨['I'], 0⟩), (.mbrNo, ⟨"101".toList, 0⟩),
    (.benShrtNm, ⟨"DENTAL".toList, 0⟩)]

/-- A cell with a line for each of two records. -/
def sampleCell (line line' : String) : PageCell :=
  ⟨[], none, [⟨true, [line.toList, line'.toList]⟩]⟩

/-- A member with two adjustments of one benefit. -/
def sampleMember : AdjustedMember sampleHeaders where
  mbrNo := "101".toList
  records := [dentalRecord, dentalRecord]
  others := []
  row :=
    { innerText := "101 Last, First".toList
      cells := [⟨"101 Last, First".toList, none, []⟩, sampleCell "DENTAL" "DENTAL",
        sampleCell "Enrolled" "Cancelled", sampleCell "5.00" "-5.00", sampleCell "9.00" "-9.00"]
      subtableCells := [⟨"101 Last, First".toList, 1⟩] }
  totals := []
  table := 0
  records_ne := List.cons_ne_nil _ _
  records_shape := fun r hr => by
    obtain rfl : r = dentalRecord := by simpa using hr
    exact ⟨rfl, rfl⟩
  others_shape := List.forall_mem_nil _
  innerText_ne := by decide
  cells_length := rfl
  no_colspan := fun cell hcell => by rw [← Option.some.inj hcell]
  number := ⟨_, [], " Last, First".toList, rfl, Nat.one_ne_zero, rfl, blank_head⟩
  displayed := ⟨_, [], _, [], rfl, rfl, rfl, rfl, List.forall_mem_nil _⟩
  lines := fun k cell hcell => by
    match k, hcell with
    | 0, hcell => rw [← Option.some.inj hcell]; exact ⟨_, rfl, rfl⟩
    | 1, hcell => rw [← Option.some.inj hcell]; exact ⟨_, rfl, rfl⟩
    | 2, hcell => rw [← Option.some.inj hcell]; exact ⟨_, rfl, rfl⟩
    | 3, hcell => rw [← Option.some.inj hcell]; exact ⟨_, rfl, rfl⟩
  benefits := ⟨_, _, rfl, rfl, rfl⟩
  totals_shape := List.forall_mem_nil _

def samplePage : AdjustmentsPage where
  headers := sampleHeaders
  members := [sampleMember]
  top := [⟨[], [], []⟩, ⟨[], [], []⟩]
  bottom := [⟨[], [], []⟩, ⟨[], [], []⟩]
  fields_mem := fun _ h => h
  headers_nodup := by decide
  headers_apart := by decide
  distinct := by decide
  top_length := rfl
  bottom_length := rfl

/-- The second adjustment is checked against the line of the first. -/
theorem not_resolves_samplePage : ¬ samplePage.Resolves := by
  intro h
  have hplaced : (2, sampleMember) ∈ samplePage.placed := List.mem_cons_self
  exact absurd (samplePage.benefits_nodup hplaced h) (by decide)

end OaBills
