import ScriptsMisc.Vdr.CompareHtmlXls

/-! # The lookup of a column

`lookup` of the HTML/XLS comparator runs over all headers and keeps every one that contains the
label, so that the last of them is the column it returns. A header that is the label itself is
found when no header behind it contains the label.
-/

namespace CompareHtmlXls

open Vbs Vdr

/-- Of the columns 3 to `width` of the sheet only column `m` has the label as its header. -/
structure OnlyHeader (xls : Sheet) (width : ℕ) (label : Str) (m : ℕ) : Prop where
  first : 3 ≤ m
  last : m ≤ width
  header : eq (xls.cell 5 m) (.string label) = some true
  unique : ∀ c, 3 ≤ c → c ≤ width → eq (xls.cell 5 c) (.string label) = some true → c = m

/-- The label is not empty, the loop reaches column `m`, it meets no error value, and no header
behind column `m` contains the label. -/
structure Prevails (host : Host) (xls : Sheet) (label : Str) (m : ℕ) : Prop where
  ne_nil : label ≠ []
  used : m ≤ xls.usedColumns
  no_error : ∀ c code, 3 ≤ c → c ≤ xls.usedColumns → xls.cell 5 c ≠ .error code
  later : ∀ c, m < c → c ≤ xls.usedColumns → ¬HasLabel host xls label c

/-- Only an error value has no text. -/
theorem text_eq_none_iff {host : Host} {v : Variant} :
    (¬∃ text, host.text v = some text) ↔ ∃ code, v = .error code := by
  cases v <;> simp [Host.text]

variable {host : Host} {xls : Sheet} {width : ℕ} {label : Str} {m : ℕ}

/-- The text of the header is the label, which contains itself unless it is empty. -/
theorem OnlyHeader.hasLabel_iff (h : OnlyHeader xls width label m) :
    HasLabel host xls label m ↔ label ≠ [] := by
  have htext := text_of_eq_string host h.header
  constructor
  · rintro ⟨-, header, hheader, hin⟩
    obtain rfl := Option.some.inj (htext.symm.trans hheader)
    exact (inStr_ne_zero_iff.mp hin).1
  · exact fun hne => ⟨h.first, label, htext, inStr_ne_zero_iff.mpr ⟨hne, List.infix_rfl⟩⟩

/-- A header that prevails is found. -/
theorem Prevails.lookup_eq (hprevails : Prevails host xls label m)
    (honly : OnlyHeader xls width label m) : lookup host xls label = some m := by
  have hfirst := honly.first
  refine (lookup_eq_some_iff (by omega)).mpr
    ⟨fun c hfirst hlast => ?_, honly.hasLabel_iff.mpr hprevails.ne_nil, hprevails.used,
      hprevails.later⟩
  by_contra hnone
  obtain ⟨code, herror⟩ := text_eq_none_iff.mp hnone
  exact hprevails.no_error c code hfirst hlast herror

/-- The lookup of a label that stands in one column returns this column exactly when it prevails
over the other headers. -/
theorem lookup_eq_onlyHeader_iff (h : OnlyHeader xls width label m) :
    lookup host xls label = some m ↔ Prevails host xls label m := by
  refine ⟨fun hlookup => ?_, fun hprevails => hprevails.lookup_eq h⟩
  have hfirst := h.first
  obtain ⟨hread, hhas, hused, hlater⟩ := (lookup_eq_some_iff (by omega)).mp hlookup
  refine ⟨h.hasLabel_iff.mp hhas, hused, fun c code hfirst hlast herror => ?_, hlater⟩
  exact text_eq_none_iff.mpr ⟨code, herror⟩ (hread c hfirst hlast)

/-- An export in which a longer header of another coverage comes before the label. -/
def longerHeaderBefore : Sheet :=
  ⟨[[], [], [], [.string "Export".toList],
    [.string "First Name".toList, .string "Last Name".toList,
      .string "Prior Employee Dental Monthly Cost".toList,
      .string "Employee Dental Monthly Cost".toList, .string "Employee PPD Monthly Cost".toList],
    [.string "Ann".toList, .string "Lee".toList, .string "12.00".toList, .string "10.00".toList]]⟩

/-- The label is the header of one column. -/
theorem onlyHeader_longerHeaderBefore :
    OnlyHeader longerHeaderBefore 256 "Employee Dental Monthly Cost".toList 4 := by
  have hunique : ∀ c ≤ 256, 3 ≤ c →
      eq (longerHeaderBefore.cell 5 c) (.string "Employee Dental Monthly Cost".toList) =
        some true → c = 4 := by
    decide +kernel
  exact ⟨by omega, by omega, by decide, fun c hfirst hlast => hunique c hlast hfirst⟩

/-- The last hit is the label itself. -/
theorem lookup_longerHeaderBefore :
    lookup digitHost longerHeaderBefore "Employee Dental Monthly Cost".toList = some 4 := by
  have hused : longerHeaderBefore.usedColumns = 5 := by decide
  refine (lookup_eq_onlyHeader_iff onlyHeader_longerHeaderBefore).mpr
    ⟨by decide, by omega, fun c code hfirst hlast herror => ?_, fun c hlt hlast => ?_⟩
  · rw [hused] at hlast
    interval_cases c <;> exact Variant.noConfusion herror
  · obtain rfl : c = 5 := by omega
    rintro ⟨-, header, hheader, hin⟩
    obtain rfl := Option.some.inj hheader
    exact hin (by decide)

/-- A header behind the label contains it. -/
def longerHeader : Sheet :=
  ⟨[[], [], [], [.string "Export".toList],
    [.string "First Name".toList, .string "Last Name".toList,
      .string "Employee Dental Monthly Cost".toList,
      .string "Prior Employee Dental Monthly Cost".toList]]⟩

/-- The longer header is taken for the label. -/
theorem lookup_longerHeader :
    OnlyHeader longerHeader 256 "Employee Dental Monthly Cost".toList 3 ∧
      lookup digitHost longerHeader "Employee Dental Monthly Cost".toList ≠ some 3 := by
  have hunique : ∀ c ≤ 256, 3 ≤ c →
      eq (longerHeader.cell 5 c) (.string "Employee Dental Monthly Cost".toList) = some true →
        c = 3 := by
    decide +kernel
  refine ⟨⟨le_rfl, by omega, by decide, fun c hfirst hlast => hunique c hlast hfirst⟩, ?_⟩
  decide +kernel

/-! ## The columns of a coverage -/

section Coverage

variable {labels : Labels} {cols : Columns}

/-- The benefit amount is compared in the column that has its label as its header, if the label
prevails. -/
theorem Resolves.amtCol_eq (h : Resolves host xls labels cols) (hlabel : labels.amount = some label)
    (honly : OnlyHeader xls width label m) (hprevails : Prevails host xls label m) :
    cols.amtCol = m := by
  obtain ⟨c, hlookup, hcol⟩ := h.amount_some label hlabel
  obtain rfl := Option.some.inj ((hprevails.lookup_eq honly).symm.trans hlookup)
  exact hcol

/-- So is the payroll deduction. -/
theorem Resolves.pdCol_eq (h : Resolves host xls labels cols)
    (hlabel : labels.deduction = some (.label label)) (honly : OnlyHeader xls width label m)
    (hprevails : Prevails host xls label m) : cols.pdCol = m :=
  (Option.some.inj ((hprevails.lookup_eq honly).symm.trans (h.deduction_label label hlabel))).symm

end Coverage

end CompareHtmlXls
