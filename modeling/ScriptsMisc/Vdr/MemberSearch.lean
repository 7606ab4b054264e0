import Mathlib.Data.List.Infix
import ScriptsMisc.Vdr.CompareHtmlXls

/-! # The search for a member

The HTML/XLS comparator compares a coverage with the first row of the XLS sheet whose two name
columns pass `inStr(.., firstName) and inStr(.., lastName)`. Both sides are positions, and `and`
takes their bits: a row that contains both names fails the test when the positions share no bit.
-/

namespace CompareHtmlXls

open Vbs Vdr

/-- Column 1 of row `k` contains the first name, and column 2 the last name. -/
def NamesMember (host : Host) (xls : Sheet) (firstName lastName : Str) (k : ℕ) : Prop :=
  (∃ first ∈ host.text (xls.cell k 1), firstName <:+: first) ∧
    ∃ last ∈ host.text (xls.cell k 2), lastName <:+: last

instance (host : Host) (xls : Sheet) (firstName lastName : Str) (k : ℕ) :
    Decidable (NamesMember host xls firstName lastName k) := by
  unfold NamesMember
  infer_instance

/-- The first of some rows that contains both names. -/
def firstNaming (host : Host) (xls : Sheet) (firstName lastName : Str) (ks : List ℕ) : Option ℕ :=
  ks.find? fun k => decide (NamesMember host xls firstName lastName k)

/-- The first row in the range of the search that contains both names. -/
def memberRow (host : Host) (xls : Sheet) (firstName lastName : Str) : Option ℕ :=
  firstNaming host xls firstName lastName (searchRows xls)

/-- The row of the XLS sheet that is compared; a search that raises an error compares none. -/
def comparedRow (host : Host) (xls : Sheet) (firstName lastName : Str) : Option ℕ :=
  (findMember host xls firstName lastName (searchRows xls)).join

/-- Neither name column of row `k` holds an error value. -/
def Readable (host : Host) (xls : Sheet) (k : ℕ) : Prop :=
  (host.text (xls.cell k 1)).isSome = true ∧ (host.text (xls.cell k 2)).isSome = true

/-- The positions of the names in row `k` have a bit in common. -/
def SharesBit (host : Host) (xls : Sheet) (firstName lastName : Str) (k : ℕ) : Prop :=
  ∃ first ∈ host.text (xls.cell k 1), ∃ last ∈ host.text (xls.cell k 2),
    inStr first firstName &&& inStr last lastName ≠ 0

/-! ## One row -/

section Row

variable {host : Host} {xls : Sheet} {firstName lastName : Str} {k : ℕ}

/-- A row that passes the test contains both names. -/
theorem SharesBit.namesMember (h : SharesBit host xls firstName lastName k) :
    NamesMember host xls firstName lastName k := by
  obtain ⟨first, hfirst, last, hlast, hand⟩ := h
  refine ⟨⟨first, hfirst, (inStr_ne_zero_iff.mp fun hzero => hand ?_).2⟩,
    last, hlast, (inStr_ne_zero_iff.mp fun hzero => hand ?_).2⟩
  · rw [hzero, Nat.zero_and]
  · rw [hzero, Nat.and_zero]

/-- A row whose positions share a bit ends the search. -/
theorem findMember_of_sharesBit (h : SharesBit host xls firstName lastName k) (ks : List ℕ) :
    findMember host xls firstName lastName (k :: ks) = some (some k) := by
  obtain ⟨first, hfirst, last, hlast, hand⟩ := h
  rw [findMember, hfirst, Option.bind_some, hlast, Option.bind_some, if_pos hand]

/-- A row that fails the test is passed over. -/
theorem findMember_of_readable (hread : Readable host xls k)
    (h : ¬ SharesBit host xls firstName lastName k) (ks : List ℕ) :
    findMember host xls firstName lastName (k :: ks) =
      findMember host xls firstName lastName ks := by
  obtain ⟨first, hfirst⟩ := Option.isSome_iff_exists.mp hread.1
  obtain ⟨last, hlast⟩ := Option.isSome_iff_exists.mp hread.2
  rw [findMember, hfirst, Option.bind_some, hlast, Option.bind_some,
    if_neg fun hand => h ⟨first, hfirst, last, hlast, hand⟩]

/-- An error value ends the search. -/
theorem findMember_of_not_readable (hread : ¬ Readable host xls k) (ks : List ℕ) :
    findMember host xls firstName lastName (k :: ks) = none := by
  rw [findMember]
  cases hfirst : host.text (xls.cell k 1) with
  | none => rfl
  | some first =>
    cases hlast : host.text (xls.cell k 2) with
    | none => rfl
    | some last => exact absurd ⟨by rw [hfirst]; rfl, by rw [hlast]; rfl⟩ hread

/-- A row with both names ends it. -/
theorem firstNaming_of_namesMember (h : NamesMember host xls firstName lastName k)
    (ks : List ℕ) : firstNaming host xls firstName lastName (k :: ks) = some k := by
  unfold firstNaming
  rw [List.find?_cons_of_pos]
  exact decide_eq_true h

/-- Any other row is passed over. -/
theorem firstNaming_of_not_namesMember (h : ¬ NamesMember host xls firstName lastName k)
    (ks : List ℕ) :
    firstNaming host xls firstName lastName (k :: ks) =
      firstNaming host xls firstName lastName ks := by
  unfold firstNaming
  rw [List.find?_cons_of_neg]
  simpa using h

end Row

/-! ## The search -/

/-- The row that is found was searched. -/
theorem mem_of_findMember {host : Host} {xls : Sheet} {firstName lastName : Str} {k : ℕ}
    {ks : List ℕ} (h : findMember host xls firstName lastName ks = some (some k)) : k ∈ ks := by
  induction ks with
  | nil => exact absurd h (by simp [findMember])
  | cons x ks ih =>
    by_cases hshares : SharesBit host xls firstName lastName x
    · rw [findMember_of_sharesBit hshares] at h
      rw [Option.some.inj (Option.some.inj h)]
      exact List.mem_cons_self
    · by_cases hread : Readable host xls x
      · rw [findMember_of_readable hread hshares] at h
        exact List.mem_cons_of_mem x (ih h)
      · rw [findMember_of_not_readable hread] at h
        exact absurd h (Option.some_ne_none _).symm

/-- The search goes wrong at the first row that contains both names, or before it. -/
theorem findMember_join_eq_iff (host : Host) (xls : Sheet) (firstName lastName : Str)
    {ks : List ℕ} (hks : ks.Pairwise (· < ·)) :
    (findMember host xls firstName lastName ks).join =
        firstNaming host xls firstName lastName ks ↔
      ∀ k ∈ firstNaming host xls firstName lastName ks,
        (∀ k' ∈ ks, k' < k → Readable host xls k') ∧ SharesBit host xls firstName lastName k := by
  induction ks with
  | nil => simp [findMember, firstNaming]
  | cons x ks ih =>
    obtain ⟨hlt, hks⟩ := List.pairwise_cons.mp hks
    by_cases hshares : SharesBit host xls firstName lastName x
    · rw [findMember_of_sharesBit hshares, firstNaming_of_namesMember hshares.namesMember]
      refine iff_of_true rfl fun k hk => ?_
      rw [← Option.some.inj hk]
      refine ⟨fun k' hk' hbefore => ?_, hshares⟩
      rcases List.mem_cons.mp hk' with rfl | hmem
      · exact absurd hbefore (lt_irrefl k')
      · exact absurd (hlt k' hmem) (lt_asymm hbefore)
    · by_cases hnames : NamesMember host xls firstName lastName x
      · -- a row after `x` is found at best
        rw [firstNaming_of_namesMember hnames]
        refine iff_of_false (fun h => ?_) fun h => hshares (h x rfl).2
        have hfound := Option.join_eq_some_iff.mp h
        obtain ⟨⟨first, hfirst, -⟩, last, hlast, -⟩ := hnames
        have hread : Readable host xls x :=
          ⟨Option.isSome_iff_exists.mpr ⟨first, hfirst⟩,
            Option.isSome_iff_exists.mpr ⟨last, hlast⟩⟩
        rw [findMember_of_readable hread hshares] at hfound
        exact absurd (hlt x (mem_of_findMember hfound)) (lt_irrefl x)
      · rw [firstNaming_of_not_namesMember hnames]
        have hafter : ∀ k ∈ firstNaming host xls firstName lastName ks, x < k :=
          fun k hk => hlt k (List.mem_of_find?_eq_some hk)
        by_cases hread : Readable host xls x
        · rw [findMember_of_readable hread hshares, ih hks]
          refine forall₂_congr fun k hk => and_congr_left' ?_
          rw [List.forall_mem_cons]
          exact (and_iff_right fun _ => hread).symm
        · -- the search ends here, whatever comes after
          rw [findMember_of_not_readable hread, Option.join_none, eq_comm,
            Option.eq_none_iff_forall_not_mem]
          refine forall₂_congr fun k hk => iff_of_false (fun h => h) fun h => ?_
          exact hread (h.1 x List.mem_cons_self (hafter k hk))

/-- The comparator takes the first row that contains both names exactly when the positions of the
names in that row have a bit in common and no row before it raises an error. -/
theorem comparedRow_eq_memberRow_iff (host : Host) (xls : Sheet) (firstName lastName : Str) :
    comparedRow host xls firstName lastName = memberRow host xls firstName lastName ↔
      ∀ k ∈ memberRow host xls firstName lastName,
        (∀ k' ∈ searchRows xls, k' < k → Readable host xls k') ∧
          SharesBit host xls firstName lastName k :=
  findMember_join_eq_iff host xls firstName lastName (List.pairwise_lt_range' _)

/-- An export with one member, whose last name stands behind a blank. -/
def blankBefore : Sheet :=
  ⟨[[.string "Export".toList], [], [], [], [],
    [.string "First".toList, .string " Last".toList]]⟩

/-- The names stand at the positions 1 and 2, and `1 and 2` is 0. -/
theorem comparedRow_blankBefore :
    memberName digitHost ⟨[[.string "Last, First".toList]]⟩ 1 =
        some ("Last".toList, "First".toList) ∧
      memberRow digitHost blankBefore "First".toList "Last".toList = some 6 ∧
      comparedRow digitHost blankBefore "First".toList "Last".toList = none := by
  decide +kernel

end CompareHtmlXls
