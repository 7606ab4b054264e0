import ScriptsMisc.Cdr.CamelCase

/-! # The ids of the fields of a tab

`fixHtmlIDs` of `cdr_functions(2012-07-05).qfl` gives ids to the labels of a coverage tab: each
title and the label behind it get ids made of the text of the title, and the two fields called
`Mode` are told apart by a number. `validateField` reads a field by the id that it makes of the
field's name. How an id finds an element for it is not part of the library: `FindsById` says what is
taken for granted, that an id finds the one element that has it and that letter case does not count.
-/

namespace Cdr

open CamelCase

/-- The coverages with a tab of their own. -/
inductive Coverage where
  | accident
  | cib
  | cancer
  | gap
deriving DecidableEq, Repr

/-- The name of the coverage in ids, as `validateAccident`, `validateCib`, `validateCancer` and
`validateGap` hand it to `validateCoverage`. -/
def Coverage.htmlIdPref : Coverage → Str
  | .accident => "Accident".toList
  | .cib => "CI".toList
  | .cancer => "Cancer".toList
  | .gap => "Gap".toList

/-! ## The page -/

/-- An element: its id, if it has one, whether it is one of the labels of the selected tab (the
elements of class `gwt-Label` in the first table of the pane that is displayed), whether it is bold,
and its text. -/
structure Element where
  id : Option Str
  label : Bool
  bold : Bool
  innerText : Str
deriving DecidableEq, Repr

/-- The elements of the document in document order. -/
abbrev Page := List Element

def titleId (coverageName suffix : Str) : Str :=
  "TITLE_".toList ++ coverageName ++ '_' :: suffix

def valueId (coverageName suffix : Str) : Str :=
  "VALUE_".toList ++ coverageName ++ '_' :: suffix

/-- The id of a title, letter by letter. -/
theorem titleId_eq (coverageName suffix : Str) :
    titleId coverageName suffix = "TITLE_".toList ++ coverageName ++ '_' :: suffix := rfl

theorem valueId_eq (coverageName suffix : Str) :
    valueId coverageName suffix = "VALUE_".toList ++ coverageName ++ '_' :: suffix := rfl

/-- `setAttribute('id', id)`. -/
def Element.setId (id : Str) (e : Element) : Element := { e with id := some id }

/-- `!getAttribute('id')`: there is no id, or an empty one. -/
def Element.untagged (e : Element) : Bool := e.id.all List.isEmpty

/-- The loop over the labels. `pending` is the id for `labels[i+1]`, where `labels[i]` was a title;
behind the last label it is given to nothing, which ends the script. -/
def tagLabels (coverageName : Str) : (pending : Option Str) → Page → Page
  | _, [] => []
  | pending, e :: es =>
    if e.label then
      let e := match pending with
        | some id => e.setId id
        | none => e
      if e.untagged && e.bold then
        let suffix := idSuffix e.innerText
        e.setId (titleId coverageName suffix) ::
          tagLabels coverageName (some (valueId coverageName suffix)) es
      else e :: tagLabels coverageName none es
    else e :: tagLabels coverageName pending es

/-- The test of `getElementsByAttribute('id', x)`: `(?:^|\s)x(?:\s|$)` finds `x`, which has neither
blanks nor special characters, in the id. -/
def Element.hasId (x : Str) (e : Element) : Bool :=
  e.id.any fun id => (id.splitOnP jsSpace).contains x

/-- Change the element with index `n` among those with a property; `none` if there is none. -/
def changeNth {α : Type} (p : α → Bool) (f : α → α) : ℕ → List α → Option (List α)
  | _, [] => none
  | n, x :: xs =>
    if p x then
      match n with
      | 0 => some (f x :: xs)
      | n + 1 => (changeNth p f n xs).map (x :: ·)
    else (changeNth p f n xs).map (x :: ·)

/-- `getElementsByAttribute('id', x)[n].setAttribute('id', y)`; a member of `undefined` ends the
script. -/
def renameNth (x y : Str) (n : ℕ) (page : Page) : Option Page :=
  changeNth (Element.hasId x) (Element.setId y) n page

/-- The script that renames the value and the title with index `n` among those of the fields
`mode`; what it has done before it ends stays done. -/
def renameMode (coverageName : Str) (n : ℕ) (new : Str) (page : Page) : Page :=
  match renameNth (valueId coverageName "mode".toList) (valueId coverageName new) n page with
  | none => page
  | some page =>
    (renameNth (titleId coverageName "mode".toList) (titleId coverageName new) n page).getD page

/-- `fixHtmlIDs(coverageName)`. -/
def fixHtmlIDs (coverageName : Str) (page : Page) : Page :=
  renameMode coverageName 0 "mode0".toList
    (renameMode coverageName 1 "mode1".toList (tagLabels coverageName none page))

/-- The element has an id, whose letter case does not count. -/
def Element.called (x : Str) (e : Element) : Bool := e.id.any fun id => decide (SameUpToCase id x)

/-- `innertext` reads the text of the one element that has an id, and is an error where there is no
such element. -/
def FindsById (innertext : Page → Str → Option Str) : Prop :=
  ∀ page x, (page.filter (Element.called x) = [] → innertext page x = none) ∧
    ∀ e, page.filter (Element.called x) = [e] → innertext page x = some e.innerText

/-- The text of the first element with an id. -/
def firstText (page : Page) (x : Str) : Option Str :=
  (page.find? (Element.called x)).map Element.innerText

/-- The first text under an id is one way of finding it. -/
theorem findsById_firstText : FindsById firstText := by
  intro page x
  have hfirst : firstText page x =
      (page.filter (Element.called x)).head?.map Element.innerText := by
    rw [firstText, List.head?_filter]
  rw [hfirst]
  refine ⟨fun h => by rw [h]; rfl, fun e h => by rw [h]; rfl⟩

/-! ## Changing the element with an index -/

section ChangeNth

variable {α β : Type} {p : α → Bool} {f : α → α}

/-- An entry without the property is not counted. -/
theorem changeNth_of_neg {x : α} (h : p x = false) (n : ℕ) (xs : List α) :
    changeNth p f n (x :: xs) = (changeNth p f n xs).map (x :: ·) := by
  simp [changeNth, h]

/-- The first entry with it is changed. -/
theorem changeNth_zero {x : α} (h : p x = true) (xs : List α) :
    changeNth p f 0 (x :: xs) = some (f x :: xs) := by
  simp [changeNth, h]

/-- An entry with it comes before the next one. -/
theorem changeNth_succ {x : α} (h : p x = true) (n : ℕ) (xs : List α) :
    changeNth p f (n + 1) (x :: xs) = (changeNth p f n xs).map (x :: ·) := by
  simp [changeNth, h]

/-- Nothing is changed when there are too few. -/
theorem changeNth_eq_none_iff {n : ℕ} {xs : List α} :
    changeNth p f n xs = none ↔ xs.countP p ≤ n := by
  induction xs generalizing n with
  | nil => simp [changeNth]
  | cons x xs ih =>
    cases hx : p x with
    | false =>
      rw [changeNth_of_neg hx, Option.map_eq_none_iff, ih,
        List.countP_cons_of_neg (Bool.not_eq_true _ ▸ hx)]
    | true =>
      rw [List.countP_cons_of_pos hx]
      cases n with
      | zero => simp [changeNth_zero hx]
      | succ n => rw [changeNth_succ hx, Option.map_eq_none_iff, ih, Nat.add_le_add_iff_right]

/-- Entries without the property in front make no difference. -/
theorem changeNth_append (n : ℕ) {xs : List α} (h : ∀ x ∈ xs, p x = false) (ys : List α) :
    changeNth p f n (xs ++ ys) = (changeNth p f n ys).map (xs ++ ·) := by
  induction xs with
  | nil => exact Option.map_id'.symm
  | cons x xs ih =>
    rw [List.forall_mem_cons] at h
    rw [List.cons_append, changeNth_of_neg h.1, ih h.2, Option.map_map]
    rfl

/-- Elements in groups, of which at most one element each has the property. -/
theorem changeNth_flatMap {q : β → Bool} {g : β → β} {elements : β → List α}
    (hkept : ∀ b, q b = false → ∀ x ∈ elements b, p x = false)
    (hfound : ∀ b, q b = true → ∃ before x after, elements b = before ++ x :: after ∧
      (∀ y ∈ before, p y = false) ∧ p x = true ∧ (∀ y ∈ after, p y = false) ∧
      elements (g b) = before ++ f x :: after) (n : ℕ) (bs : List β) :
    changeNth p f n (bs.flatMap elements) =
      (changeNth q g n bs).map (List.flatMap elements) := by
  induction bs generalizing n with
  | nil => rfl
  | cons b bs ih =>
    rw [List.flatMap_cons]
    cases hq : q b with
    | false =>
      rw [changeNth_append n (hkept b hq), ih, changeNth_of_neg hq, Option.map_map, Option.map_map]
      rfl
    | true =>
      obtain ⟨before, x, after, hb, hbefore, hx, hafter, hchanged⟩ := hfound b hq
      rw [hb, List.append_assoc, List.cons_append, changeNth_append n hbefore]
      cases n with
      | zero =>
        rw [changeNth_zero hx, changeNth_zero hq]
        simp [hchanged]
      | succ n =>
        rw [changeNth_succ hx, changeNth_append n hafter, ih, changeNth_succ hq]
        simp only [Option.map_map]
        congr 1
        funext bs'
        simp [hb]

end ChangeNth

/-! ## The tab -/

/-- The suffix that the first two fields lose: `mode`, alone or before a blank. -/
def isMode (suffix : Str) : Bool := (suffix.splitOnP jsSpace).head? = some "mode".toList

/-- The ids `fixHtmlIDs` looks for. -/
def modeIds (cov : Coverage) : List Str :=
  [titleId cov.htmlIdPref "mode".toList, valueId cov.htmlIdPref "mode".toList]

/-- A suffix that has no such id among its words. -/
structure Suffix (cov : Coverage) where
  text : Str
  no_id : ∀ x ∈ modeIds cov, x ∉ text.splitOnP jsSpace

/-- An element that is neither a title without an id nor has an id like that of a field. -/
structure Other (cov : Coverage) (e : Element) : Prop where
  not_title : e.label = true → e.untagged = true → e.bold = false
  not_mode : ∀ x ∈ modeIds cov, e.hasId x = false
  not_value : ∀ id ∈ e.id, ∀ suffix, ¬ SameUpToCase id (valueId cov.htmlIdPref suffix)

/-- A field: its title, the label behind it with the value, what stands between the two, and what
stands between it and the next field. -/
structure Field (cov : Coverage) where
  title : Element
  gap : List Element
  value : Element
  rest : List Element
  title_shape : title.label = true ∧ title.bold = true ∧ title.untagged = true
  value_label : value.label = true
  gap_shape : ∀ e ∈ gap, e.label = false ∧ Other cov e
  rest_shape : ∀ e ∈ rest, Other cov e
  suffix : Suffix cov
  suffix_eq : suffix.text = idSuffix title.innerText

/-- A tab before `fixHtmlIDs`. -/
structure Tab (cov : Coverage) where
  before : List Element
  fields : List (Field cov)
  before_shape : ∀ e ∈ before, Other cov e

/-- The elements of a field with ids that end in these suffixes. -/
def Field.tagged {cov : Coverage} (f : Field cov) (title value : Suffix cov) : List Element :=
  f.title.setId (titleId cov.htmlIdPref title.text) :: f.gap ++
    f.value.setId (valueId cov.htmlIdPref value.text) :: f.rest

variable {cov : Coverage}

def Tab.page (t : Tab cov) : Page :=
  t.before ++ t.fields.flatMap fun f => f.title :: f.gap ++ f.value :: f.rest

/-- The page of the tab with these suffixes of the titles and of the values. -/
def Tab.pageWith (t : Tab cov) (fields : List (Suffix cov × Suffix cov × Field cov)) : Page :=
  t.before ++ fields.flatMap fun x => x.2.2.tagged x.1 x.2.1

/-! ## The ids of the elements -/

/-- No tab has a blank in its prefix. -/
theorem jsSpace_htmlIdPref (cov : Coverage) : ∀ c ∈ cov.htmlIdPref, jsSpace c = false := by
  cases cov <;> exact Text.forall_mem_of_all (by decide)

/-- So there is none in front of the suffix of a title. -/
theorem jsSpace_titleId (cov : Coverage) :
    ∀ c ∈ titleId cov.htmlIdPref [], jsSpace c = false := by
  have hhead : ∀ c ∈ "TITLE_".toList, jsSpace c = false := Text.forall_mem_of_all (by decide)
  simp only [titleId_eq, List.forall_mem_append, List.forall_mem_cons]
  exact ⟨⟨hhead, jsSpace_htmlIdPref cov⟩, by decide, List.forall_mem_nil _⟩

theorem jsSpace_valueId (cov : Coverage) :
    ∀ c ∈ valueId cov.htmlIdPref [], jsSpace c = false := by
  have hhead : ∀ c ∈ "VALUE_".toList, jsSpace c = false := Text.forall_mem_of_all (by decide)
  simp only [valueId_eq, List.forall_mem_append, List.forall_mem_cons]
  exact ⟨⟨hhead, jsSpace_htmlIdPref cov⟩, by decide, List.forall_mem_nil _⟩

/-- The suffix comes last. -/
theorem titleId_append (c s : Str) : titleId c s = titleId c [] ++ s := by
  simp [titleId_eq]

theorem valueId_append (c s : Str) : valueId c s = valueId c [] ++ s := by
  simp [valueId_eq]

/-- No id that is given is empty. -/
theorem valueId_ne_nil (c s : Str) : valueId c s ≠ [] := List.cons_ne_nil _ _

/-- Titles and values have different ids. -/
theorem titleId_ne_valueId (c s s' : Str) : titleId c s ≠ valueId c s' := by
  simp [titleId_eq, valueId_eq]

/-- Text without a separator stands before the first part. -/
theorem splitOnP_append {p : Char → Bool} {s : Str} (h : ∀ c ∈ s, p c = false) (t : Str) :
    (s ++ t).splitOnP p = (t.splitOnP p).modifyHead (s ++ ·) := by
  induction s with
  | nil => exact (congrFun List.modifyHead_id (t.splitOnP p)).symm
  | cons c s ih =>
    rw [List.forall_mem_cons] at h
    rw [List.cons_append, List.splitOnP_cons_eq_if_modifyHead, if_neg (by simp [h.1]), ih h.2,
      List.modifyHead_modifyHead]
    rfl

/-- Of an id with a prefix the first word tells whether it has a given one. -/
theorem hasId_setId {pre s x : Str} (hpre : ∀ c ∈ pre, jsSpace c = false)
    (hx : x ∉ s.splitOnP jsSpace) (e : Element) :
    (e.setId (pre ++ s)).hasId x = ((s.splitOnP jsSpace).head?.map (pre ++ ·) == some x) := by
  show ((pre ++ s).splitOnP jsSpace).contains x = _
  rw [splitOnP_append hpre]
  cases hwords : s.splitOnP jsSpace with
  | nil => exact absurd hwords (List.splitOnP_ne_nil jsSpace s)
  | cons word words =>
    have hwords' : words.contains x = false := by
      rw [hwords] at hx
      simpa using fun h => hx (List.mem_cons_of_mem word h)
    rw [List.modifyHead_cons, List.contains_cons, hwords', Bool.or_false, List.head?_cons,
      Option.map_some, Option.some_beq_some, Bool.beq_comm]

/-- Behind a common prefix the words are compared. -/
theorem map_append_beq (pre : Str) (word : Option Str) (x : Str) :
    (word.map (pre ++ ·) == some (pre ++ x)) = decide (word = some x) := by
  cases word with
  | none => rfl
  | some word =>
    rw [Option.map_some, Option.some_beq_some, beq_eq_decide]
    exact decide_eq_decide.mpr (by simp)

/-- A text without the prefix is never met. -/
theorem map_append_beq_of_ne {pre : Str} {x : Str} (h : ∀ word, pre ++ word ≠ x)
    (word : Option Str) : (word.map (pre ++ ·) == some x) = false := by
  cases word <;> simp [h]

/-- A title is one of a field called `mode` when its suffix says so. -/
theorem hasId_title (s : Suffix cov) (e : Element) :
    (e.setId (titleId cov.htmlIdPref s.text)).hasId (titleId cov.htmlIdPref "mode".toList) =
      isMode s.text := by
  have hno := s.no_id _ List.mem_cons_self
  rw [titleId_append _ s.text, hasId_setId (jsSpace_titleId cov) hno,
    titleId_append _ "mode".toList, map_append_beq, isMode]

theorem hasId_value (s : Suffix cov) (e : Element) :
    (e.setId (valueId cov.htmlIdPref s.text)).hasId (valueId cov.htmlIdPref "mode".toList) =
      isMode s.text := by
  have hno := s.no_id _ (List.mem_cons_of_mem _ List.mem_cons_self)
  rw [valueId_append _ s.text, hasId_setId (jsSpace_valueId cov) hno,
    valueId_append _ "mode".toList, map_append_beq, isMode]

/-- An id of a title is none of a value. -/
theorem hasId_title_value (s : Suffix cov) (e : Element) :
    (e.setId (titleId cov.htmlIdPref s.text)).hasId (valueId cov.htmlIdPref "mode".toList) =
      false := by
  have hno := s.no_id _ (List.mem_cons_of_mem _ List.mem_cons_self)
  rw [titleId_append _ s.text, hasId_setId (jsSpace_titleId cov) hno]
  refine map_append_beq_of_ne (fun word => ?_) _
  rw [← titleId_append]
  exact titleId_ne_valueId _ _ _

/-- A value never has the id of a title. -/
theorem hasId_value_title (s : Suffix cov) (e : Element) :
    (e.setId (valueId cov.htmlIdPref s.text)).hasId (titleId cov.htmlIdPref "mode".toList) =
      false := by
  have hno := s.no_id _ List.mem_cons_self
  rw [valueId_append _ s.text, hasId_setId (jsSpace_valueId cov) hno]
  refine map_append_beq_of_ne (fun word => ?_) _
  rw [← valueId_append]
  exact (titleId_ne_valueId _ _ _).symm

/-! ## Tagging -/

/-- Elements that are no labels are passed over. -/
theorem tagLabels_others {xs : List Element} (h : ∀ e ∈ xs, Other cov e) (page : Page) :
    tagLabels cov.htmlIdPref none (xs ++ page) = xs ++ tagLabels cov.htmlIdPref none page := by
  induction xs with
  | nil => rfl
  | cons e xs ih =>
    rw [List.forall_mem_cons] at h
    rw [List.cons_append, tagLabels, ih h.2]
    split
    · next hlabel =>
      have hid : ¬ (e.untagged && e.bold) = true := by
        rw [Bool.and_eq_true]
        rintro ⟨hid, hbold⟩
        rw [h.1.not_title hlabel hid] at hbold
        exact Bool.false_ne_true hbold
      exact if_neg hid
    · rfl

/-- So are those between a title and its value. -/
theorem tagLabels_gap {xs : List Element} (h : ∀ e ∈ xs, e.label = false) (pending : Option Str)
    (c : Str) (page : Page) :
    tagLabels c pending (xs ++ page) = xs ++ tagLabels c pending page := by
  induction xs with
  | nil => rfl
  | cons e xs ih =>
    rw [List.forall_mem_cons] at h
    rw [List.cons_append, List.cons_append, ← ih h.2]
    cases pending <;> simp [tagLabels, h.1]

/-- A bold label without an id becomes a title, and what follows waits for the value. -/
theorem tagLabels_title {e : Element} (hlabel : e.label = true) (hbold : e.bold = true)
    (hid : e.untagged = true) (c : Str) (page : Page) :
    tagLabels c none (e :: page) = e.setId (titleId c (idSuffix e.innerText)) ::
      tagLabels c (some (valueId c (idSuffix e.innerText))) page := by
  simp [tagLabels, hlabel, hbold, hid]

/-- The label behind a title is not a title. -/
theorem tagLabels_value {e : Element} (hlabel : e.label = true) {id : Str} (hid : id ≠ [])
    (c : Str) (page : Page) :
    tagLabels c (some id) (e :: page) = e.setId id :: tagLabels c none page := by
  simp [tagLabels, hlabel, Element.setId, Element.untagged, hid]

/-- A label with an id is passed over. -/
theorem tagLabels_tagged {e : Element} (hid : e.untagged = false) (c : Str) (page : Page) :
    tagLabels c none (e :: page) = e :: tagLabels c none page := by
  simp [tagLabels, hid]

/-- The two labels of a field get the ids of its suffix. -/
theorem tagLabels_field (f : Field cov) (page : Page) :
    tagLabels cov.htmlIdPref none ((f.title :: f.gap ++ f.value :: f.rest) ++ page) =
      f.tagged f.suffix f.suffix ++ tagLabels cov.htmlIdPref none page := by
  obtain ⟨htitle, hbold, hid⟩ := f.title_shape
  rw [Field.tagged, f.suffix_eq, List.cons_append, List.cons_append, List.append_assoc,
    List.cons_append, tagLabels_title htitle hbold hid,
    tagLabels_gap fun e he => (f.gap_shape e he).1,
    tagLabels_value f.value_label (valueId_ne_nil _ _),
    tagLabels_others f.rest_shape]
  simp

/-- All fields of a tab get the ids of their suffixes. -/
theorem tagLabels_page (t : Tab cov) :
    tagLabels cov.htmlIdPref none t.page =
      t.pageWith (t.fields.map fun f => (f.suffix, f.suffix, f)) := by
  rw [Tab.page, Tab.pageWith, tagLabels_others t.before_shape, List.flatMap_map]
  congr 1
  induction t.fields with
  | nil => rfl
  | cons f fs ih => rw [List.flatMap_cons, List.flatMap_cons, tagLabels_field, ih]

/-- A tab that is tagged already stays as it is. -/
theorem tagLabels_pageWith (t : Tab cov) (fields : List (Suffix cov × Suffix cov × Field cov)) :
    tagLabels cov.htmlIdPref none (t.pageWith fields) = t.pageWith fields := by
  rw [Tab.pageWith, tagLabels_others t.before_shape]
  congr 1
  induction fields with
  | nil => rfl
  | cons x xs ih =>
    obtain ⟨title, value, f⟩ := x
    have htitle : (f.title.setId (titleId cov.htmlIdPref title.text)).untagged = false := rfl
    have hvalue : (f.value.setId (valueId cov.htmlIdPref value.text)).untagged = false := rfl
    rw [List.flatMap_cons, Field.tagged, List.cons_append, List.cons_append, List.append_assoc,
      List.cons_append, tagLabels_tagged htitle, tagLabels_gap fun e he => (f.gap_shape e he).1,
      tagLabels_tagged hvalue, tagLabels_others f.rest_shape, ih]

/-! ## Renaming -/

def mode0 : Suffix cov := ⟨"mode0".toList, by cases cov <;> decide⟩

def mode1 : Suffix cov := ⟨"mode1".toList, by cases cov <;> decide⟩

/-- The fields with their suffixes when the fields called `mode` are numbered from `k` on; there are
names for two of them. -/
def numberModes : ℕ → List (Suffix cov × Field cov) → List (Suffix cov × Field cov)
  | _, [] => []
  | k, x :: xs =>
    if isMode x.1.text then
      ((if k = 0 then mode0 else if k = 1 then mode1 else x.1), x.2) :: numberModes (k + 1) xs
    else x :: numberModes k xs

/-- The page of the tab with these suffixes of its fields. -/
def Tab.pageOf (t : Tab cov) (fields : List (Suffix cov × Field cov)) : Page :=
  t.pageWith (fields.map fun x => (x.1, x.1, x.2))

/-- Rename the field with index `n` among those called `mode`. -/
def changeMode (n : ℕ) (new : Suffix cov) (fields : List (Suffix cov × Field cov)) :
    Option (List (Suffix cov × Field cov)) :=
  changeNth (fun x => isMode x.1.text) (fun x => (new, x.2)) n fields

/-- No other element of a field has an id that `fixHtmlIDs` looks for. -/
theorem hasId_rest {f : Field cov} {x : Str}
    (hx : x ∈ modeIds cov) :
    (∀ e ∈ f.gap, e.hasId x = false) ∧ ∀ e ∈ f.rest, e.hasId x = false :=
  ⟨fun e he => (f.gap_shape e he).2.not_mode x hx, fun e he => (f.rest_shape e he).not_mode x hx⟩

/-- Renaming a value changes the suffix of that value. -/
theorem renameNth_value (t : Tab cov) (new : Suffix cov) (n : ℕ)
    (fields : List (Suffix cov × Suffix cov × Field cov)) :
    renameNth (valueId cov.htmlIdPref "mode".toList) (valueId cov.htmlIdPref new.text) n
        (t.pageWith fields) =
      (changeNth (fun x => isMode x.2.1.text) (fun x => (x.1, new, x.2.2)) n
        fields).map t.pageWith := by
  have hx : valueId cov.htmlIdPref "mode".toList ∈ modeIds cov :=
    List.mem_cons_of_mem _ List.mem_cons_self
  rw [renameNth, Tab.pageWith, changeNth_append n fun e he =>
    (t.before_shape e he).not_mode _ hx, changeNth_flatMap (q := fun x =>
      isMode x.2.1.text) (g := fun x => (x.1, new, x.2.2))]
  · rw [Option.map_map]
    rfl
  · rintro ⟨title, value, f⟩ hq e he
    obtain ⟨hgap, hrest⟩ := hasId_rest (f := f) hx
    simp only [Field.tagged, List.cons_append, List.mem_cons, List.mem_append] at he
    rcases he with rfl | he | rfl | he
    · exact hasId_title_value title _
    · exact hgap e he
    · rw [hasId_value]
      exact hq
    · exact hrest e he
  · rintro ⟨title, value, f⟩ hq
    obtain ⟨hgap, hrest⟩ := hasId_rest (f := f) hx
    refine ⟨f.title.setId (titleId cov.htmlIdPref title.text) :: f.gap,
      f.value.setId (valueId cov.htmlIdPref value.text), f.rest, rfl, ?_, ?_, hrest, rfl⟩
    · rw [List.forall_mem_cons]
      exact ⟨hasId_title_value title _, hgap⟩
    · rw [hasId_value]
      exact hq

theorem renameNth_title (t : Tab cov) (new : Suffix cov) (n : ℕ)
    (fields : List (Suffix cov × Suffix cov × Field cov)) :
    renameNth (titleId cov.htmlIdPref "mode".toList) (titleId cov.htmlIdPref new.text) n
        (t.pageWith fields) =
      (changeNth (fun x => isMode x.1.text) (fun x => (new, x.2)) n
        fields).map t.pageWith := by
  have hx : titleId cov.htmlIdPref "mode".toList ∈ modeIds cov := List.mem_cons_self
  rw [renameNth, Tab.pageWith, changeNth_append n fun e he =>
    (t.before_shape e he).not_mode _ hx, changeNth_flatMap (q := fun x =>
      isMode x.1.text) (g := fun x => (new, x.2))]
  · rw [Option.map_map]
    rfl
  · rintro ⟨title, value, f⟩ hq e he
    obtain ⟨hgap, hrest⟩ := hasId_rest (f := f) hx
    simp only [Field.tagged, List.cons_append, List.mem_cons, List.mem_append] at he
    rcases he with rfl | he | rfl | he
    · rw [hasId_title]
      exact hq
    · exact hgap e he
    · exact hasId_value_title value _
    · exact hrest e he
  · rintro ⟨title, value, f⟩ hq
    obtain ⟨hgap, hrest⟩ := hasId_rest (f := f) hx
    refine ⟨[], f.title.setId (titleId cov.htmlIdPref title.text),
      f.gap ++ f.value.setId (valueId cov.htmlIdPref value.text) :: f.rest, rfl, ?_, ?_, ?_, rfl⟩
    · exact fun e he => absurd he List.not_mem_nil
    · rw [hasId_title]
      exact hq
    · simp only [List.forall_mem_append, List.forall_mem_cons]
      exact ⟨hgap, hasId_value_title value _, hrest⟩

/-- An entry in front stays where it is through a second change. -/
theorem changeNth_bind_cons {α : Type} {p : α → Bool} {f : α → α} {x : α} {m n : ℕ}
    (h : ∀ xs, changeNth p f n (x :: xs) = (changeNth p f m xs).map (x :: ·))
    (found : Option (List α)) :
    (found.map (x :: ·)).bind (changeNth p f n) =
      (found.bind (changeNth p f m)).map (x :: ·) := by
  cases found with
  | none => rfl
  | some xs => exact h xs

/-- The value and the title with the same index belong to the same field. -/
theorem changeMode_both (n : ℕ) (new : Suffix cov) (fields : List (Suffix cov × Field cov)) :
    ((changeNth (fun x => isMode x.2.1.text) (fun x => (x.1, new, x.2.2)) n
        (fields.map fun x => (x.1, x.1, x.2))).bind
      (changeNth (fun x => isMode x.1.text) (fun x => (new, x.2)) n)) =
        (changeMode n new fields).map (List.map fun x => (x.1, x.1, x.2)) := by
  unfold changeMode
  induction fields generalizing n with
  | nil => rfl
  | cons x xs ih =>
    rw [List.map_cons]
    by_cases hx : isMode x.1.text = true
    · cases n with
      | zero => simp [changeNth_zero, hx]
      | succ n =>
        rw [changeNth_succ (by simpa using hx), changeNth_succ (by simpa using hx),
          changeNth_bind_cons fun _ => changeNth_succ (by simpa using hx) _ _, ih,
          Option.map_map, Option.map_map]
        rfl
    · rw [changeNth_of_neg (by simpa using hx), changeNth_of_neg (by simpa using hx),
        changeNth_bind_cons fun _ => changeNth_of_neg (by simpa using hx) _ _, ih,
        Option.map_map, Option.map_map]
      rfl

/-- Renaming the id of a field called `mode` changes its suffix. -/
theorem renameMode_pageOf (t : Tab cov) (n : ℕ) (new : Suffix cov)
    (fields : List (Suffix cov × Field cov)) :
    renameMode cov.htmlIdPref n new.text (t.pageOf fields) =
      t.pageOf ((changeMode n new fields).getD fields) := by
  have hboth := changeMode_both n new fields
  rw [renameMode, Tab.pageOf, renameNth_value]
  cases hvalue : changeNth (fun x => isMode x.2.1.text) (fun x => (x.1, new, x.2.2)) n
      (fields.map fun x => (x.1, x.1, x.2)) with
  | none =>
    rw [hvalue, Option.bind_none, eq_comm, Option.map_eq_none_iff] at hboth
    rw [hboth]
    rfl
  | some mixed =>
    -- where there is a value with the index, there is a field
    have hfound : changeMode n new fields ≠ none := by
      rw [ne_eq, changeMode, changeNth_eq_none_iff]
      have hsome := Option.some_ne_none mixed
      rwa [← hvalue, ne_eq, changeNth_eq_none_iff, List.countP_map] at hsome
    obtain ⟨fields', hfields⟩ := Option.ne_none_iff_exists'.mp hfound
    rw [hvalue, Option.bind_some, hfields] at hboth
    show (renameNth _ _ n (t.pageWith mixed)).getD (t.pageWith mixed) = _
    rw [renameNth_title, hboth, hfields]
    rfl

section Numbers

variable {n : ℕ} {new : Suffix cov} {x : Suffix cov × Field cov}
  {xs : List (Suffix cov × Field cov)}

/-- The fields after the field with index `n` among those called `mode` was renamed. -/
def renamed (n : ℕ) (new : Suffix cov) (fields : List (Suffix cov × Field cov)) :
    List (Suffix cov × Field cov) :=
  (changeMode n new fields).getD fields

/-- A field of another name is not counted. -/
theorem renamed_of_ne (hx : ¬ isMode x.1.text = true) :
    renamed n new (x :: xs) = x :: renamed n new xs := by
  rw [renamed, changeMode, changeNth_of_neg (by simpa using hx)]
  exact Option.getD_map (x :: ·) xs _

/-- The first field called `mode` gets the new suffix. -/
theorem renamed_zero (hx : isMode x.1.text = true) :
    renamed 0 new (x :: xs) = (new, x.2) :: xs := by
  rw [renamed, changeMode, changeNth_zero (by simpa using hx), Option.getD_some]

theorem renamed_succ (hx : isMode x.1.text = true) :
    renamed (n + 1) new (x :: xs) = x :: renamed n new xs := by
  rw [renamed, changeMode, changeNth_succ (by simpa using hx)]
  exact Option.getD_map (x :: ·) xs _

/-- After two fields called `mode` no more are numbered. -/
theorem numberModes_of_two_le {k : ℕ} (hk : 2 ≤ k) : numberModes k xs = xs := by
  induction xs generalizing k with
  | nil => rfl
  | cons x xs ih =>
    rw [numberModes]
    split
    · rw [if_neg (by omega), if_neg (by omega), ih (by omega)]
    · rw [ih hk]

/-- After one of them the next one is the second. -/
theorem numberModes_one : numberModes 1 xs = renamed 0 mode1 xs := by
  induction xs with
  | nil => rfl
  | cons x xs ih =>
    rw [numberModes]
    split
    · next hx => rw [renamed_zero hx, if_neg one_ne_zero, if_pos rfl, numberModes_of_two_le le_rfl]
    · next hx => rw [renamed_of_ne hx, ih]

/-- With the second `mode` renamed, then the first, the two are numbered. -/
theorem numberModes_zero : numberModes 0 xs = renamed 0 mode0 (renamed 1 mode1 xs) := by
  induction xs with
  | nil => rfl
  | cons x xs ih =>
    rw [numberModes]
    split
    · next hx => rw [renamed_succ hx, renamed_zero hx, if_pos rfl, numberModes_one]
    · next hx => rw [renamed_of_ne hx, renamed_of_ne hx, ih]

end Numbers

/-- The fields after `fixHtmlIDs`. -/
def Tab.named (t : Tab cov) : List (Suffix cov × Field cov) :=
  numberModes 0 (t.fields.map fun f => (f.suffix, f))

/-- The two renamings number the first two fields called `mode`. -/
theorem renameMode_pageOf' (t : Tab cov) (fields : List (Suffix cov × Field cov)) :
    renameMode cov.htmlIdPref 0 "mode0".toList
      (renameMode cov.htmlIdPref 1 "mode1".toList (t.pageOf fields)) =
        t.pageOf (numberModes 0 fields) := by
  rw [numberModes_zero]
  exact (congrArg _ (renameMode_pageOf t 1 mode1 fields)).trans (renameMode_pageOf t 0 mode0 _)

/-- The routine gives a tab the suffixes of its names. -/
theorem fixHtmlIDs_page (t : Tab cov) : fixHtmlIDs cov.htmlIdPref t.page = t.pageOf t.named := by
  have htagged : tagLabels cov.htmlIdPref none t.page =
      t.pageOf (t.fields.map fun f => (f.suffix, f)) := by
    rw [tagLabels_page, Tab.pageOf, List.map_map]
    rfl
  rw [fixHtmlIDs, htagged, renameMode_pageOf']
  rfl

/-! ## Looking up -/

/-- Ids of values differ only in case when their suffixes do. -/
theorem sameUpToCase_valueId {c s s' : Str} :
    SameUpToCase (valueId c s) (valueId c s') ↔ SameUpToCase s s' := by
  simp [SameUpToCase, valueId_eq]

/-- The id of a title is never that of a value, whatever the case. -/
theorem not_sameUpToCase_titleId (c s s' : Str) :
    ¬ SameUpToCase (titleId c s) (valueId c s') := by
  simp [SameUpToCase, titleId_eq, valueId_eq]

/-- Another element is never found under the id of a value. -/
theorem Other.called_eq {e : Element} (h : Other cov e) (suffix : Str) :
    e.called (valueId cov.htmlIdPref suffix) = false := by
  rw [Element.called, Option.any_eq_false]
  intro id hid
  simpa using h.not_value id hid suffix

theorem filter_eq_nil_of_forall {α : Type} {p : α → Bool} {xs : List α}
    (h : ∀ x ∈ xs, p x = false) : xs.filter p = [] :=
  List.filter_eq_nil_iff.mpr fun x hx => by simp [h x hx]

/-- On the page of a tab an id finds the values of the fields with that suffix, and nothing else. -/
theorem filter_called_pageOf (t : Tab cov) (fields : List (Suffix cov × Field cov)) (suffix : Str) :
    (t.pageOf fields).filter (Element.called (valueId cov.htmlIdPref suffix)) =
      (fields.filter fun x => decide (SameUpToCase x.1.text suffix)).map fun x =>
        x.2.value.setId (valueId cov.htmlIdPref x.1.text) := by
  rw [Tab.pageOf, Tab.pageWith, List.filter_append, filter_eq_nil_of_forall fun e he =>
    (t.before_shape e he).called_eq suffix, List.nil_append]
  induction fields with
  | nil => rfl
  | cons x xs ih =>
    obtain ⟨s, f⟩ := x
    have htitle : (f.title.setId (titleId cov.htmlIdPref s.text)).called
        (valueId cov.htmlIdPref suffix) = false :=
      decide_eq_false (not_sameUpToCase_titleId cov.htmlIdPref s.text suffix)
    have hvalue : (f.value.setId (valueId cov.htmlIdPref s.text)).called
        (valueId cov.htmlIdPref suffix) = decide (SameUpToCase s.text suffix) :=
      decide_eq_decide.mpr sameUpToCase_valueId
    have hgap := filter_eq_nil_of_forall fun e he => (f.gap_shape e he).2.called_eq suffix
    have hrest := filter_eq_nil_of_forall fun e he => (f.rest_shape e he).called_eq suffix
    rw [List.map_cons, List.flatMap_cons, List.filter_append, ih, Field.tagged, List.cons_append,
      List.filter_cons_of_neg (by simp [htitle]), List.filter_append, hgap, List.nil_append]
    by_cases hs : SameUpToCase s.text suffix
    · rw [List.filter_cons_of_pos (by simp [hvalue, hs]), hrest,
        List.filter_cons_of_pos (by simpa using hs)]
      rfl
    · rw [List.filter_cons_of_neg (by simp [hvalue, hs]), hrest,
        List.filter_cons_of_neg (by simpa using hs)]
      rfl

/-! ## The names of the fields -/

/-- The names under which `validateField` is called for the fields with these labels, and whether
they lead to their fields: a field is called by its label, which is to be plain, but for the first
two called `Mode`. -/
def fieldNames : ℕ → List Str → List (Str × Bool)
  | _, [] => []
  | k, label :: labels =>
    if isMode (idSuffix (label ++ [':'])) then
      (if k = 0 then ("Mode 0".toList, true) else if k = 1 then ("Mode 1".toList, true)
        else (label, decide (Plain label))) :: fieldNames (k + 1) labels
    else (label, decide (Plain label)) :: fieldNames k labels

/-- The labels of the fields, in order. -/
def Tab.Labelled (t : Tab cov) (labels : List Str) : Prop :=
  List.Forall₂ (fun f label => f.title.innerText = label ++ [':']) t.fields labels

/-- A name as it counts for finding a field. -/
def nameKey (nm : Str) : Str := (camelCase nm).map Char.toLower

/-- The suffix of a field is its name but for separators that are left in it, and none is left where
the name leads to the field. -/
structure Named (x : Suffix cov × Field cov) (y : Str × Bool) : Prop where
  key_eq : (x.1.text.filter (!removed ·)).map Char.toLower = nameKey y.1
  found_iff : y.2 = true ↔ ∀ c ∈ x.1.text, removed c = false

/-- A key has none of the characters that are removed. -/
theorem removed_of_mem_nameKey {nm : Str} {c : Char} (h : c ∈ nameKey nm) : removed c = false := by
  rw [nameKey, map_toLower_camelCase] at h
  obtain ⟨d, hd, rfl⟩ := List.mem_map.mp h
  rw [removed_toLower]
  simpa using (List.mem_filter.mp hd).2

/-- A name finds the suffixes of this name that have no separator left. -/
theorem Named.same_iff {x : Suffix cov × Field cov} {y : Str × Bool} (h : Named x y) (nm : Str) :
    SameUpToCase x.1.text (camelCase nm) ↔ y.2 = true ∧ nameKey y.1 = nameKey nm := by
  have hfilter : (∀ c ∈ x.1.text, removed c = false) →
      x.1.text.map Char.toLower = nameKey y.1 := fun hkept => by
    rw [← h.key_eq, List.filter_eq_self.mpr fun c hc => by rw [hkept c hc]; rfl]
  constructor
  · intro hsame
    have hkept : ∀ c ∈ x.1.text, removed c = false := fun c hc => by
      have hmem : c.toLower ∈ nameKey nm := by
        rw [nameKey, ← hsame]
        exact List.mem_map_of_mem hc
      rw [← removed_toLower]
      exact removed_of_mem_nameKey hmem
    exact ⟨h.found_iff.mpr hkept, (hfilter hkept).symm.trans hsame⟩
  · rintro ⟨hfound, hkey⟩
    exact (hfilter (h.found_iff.mp hfound)).trans hkey

/-- The suffix `mode0` is found under the name `Mode 0`. -/
theorem map_filter_mode0 :
    ("mode0".toList.filter (!removed ·)).map Char.toLower = nameKey "Mode 0".toList := by
  decide +kernel

theorem map_filter_mode1 :
    ("mode1".toList.filter (!removed ·)).map Char.toLower = nameKey "Mode 1".toList := by
  decide +kernel

/-- After `fixHtmlIDs` the fields are named by `fieldNames`. -/
theorem forall₂_fieldNames {fields : List (Field cov)} {labels : List Str}
    (h : List.Forall₂ (fun f label => f.title.innerText = label ++ [':']) fields labels)
    (hlabels : ∀ label ∈ labels, ∀ c ∈ label, labelChar c = true) (k : ℕ) :
    List.Forall₂ Named (numberModes k (fields.map fun f => (f.suffix, f)))
      (fieldNames k labels) := by
  have hmode0 : ∀ f : Field cov, Named (mode0, f) ("Mode 0".toList, true) := fun f =>
    ⟨map_filter_mode0, iff_of_true rfl (Text.forall_mem_of_all (s := "mode0".toList) (by decide))⟩
  have hmode1 : ∀ f : Field cov, Named (mode1, f) ("Mode 1".toList, true) := fun f =>
    ⟨map_filter_mode1, iff_of_true rfl (Text.forall_mem_of_all (s := "mode1".toList) (by decide))⟩
  induction h generalizing k with
  | nil => exact .nil
  | @cons f label fs ls htitle _ ih =>
    obtain ⟨hchars, hrest⟩ := List.forall_mem_cons.mp hlabels
    have hsuffix : f.suffix.text = idSuffix (label ++ [':']) := by rw [f.suffix_eq, htitle]
    have hown : Named (f.suffix, f) (label, decide (Plain label)) := by
      obtain ⟨hfilter, hkept⟩ := idSuffix_spec hchars
      refine ⟨?_, ?_⟩
      · rw [hsuffix, hfilter, nameKey, map_toLower_camelCase]
      · rw [hsuffix, decide_eq_true_iff, ← hkept]
    rw [List.map_cons, numberModes, fieldNames, ← hsuffix]
    by_cases hmode : isMode f.suffix.text = true
    · rw [if_pos hmode, if_pos hmode]
      refine .cons ?_ (ih hrest (k + 1))
      split_ifs
      · exact hmode0 f
      · exact hmode1 f
      · exact hown
    · rw [if_neg hmode, if_neg hmode]
      exact .cons hown (ih hrest k)

/-- Where every element goes with the keys of its own name, and the names have different keys, a
name finds its own element, or none. -/
theorem filter_of_forall₂ {α β γ : Type} {r : α → β → Prop} [∀ x y, Decidable (r x y)]
    {found : β → Bool} {key : β → γ} {xs : List α} {ys : List β}
    (h : List.Forall₂ (fun x y => ∀ z, r x z ↔ found y = true ∧ key y = key z) xs ys)
    (hdistinct : (ys.map key).Nodup) :
    List.Forall₂ (fun x y =>
      xs.filter (fun x => decide (r x y)) = if found y then [x] else []) xs ys := by
  induction h with
  | nil => exact .nil
  | @cons x y xs ys hxy hrest ih =>
    rw [List.map_cons, List.nodup_cons] at hdistinct
    obtain ⟨hhead, htail⟩ := hdistinct
    have hothers : ∀ x' ∈ xs, ¬ r x' y := by
      intro x' hx' hr
      obtain ⟨i, hi, rfl⟩ := List.mem_iff_getElem.mp hx'
      have hpair := (List.forall₂_iff_get.mp hrest).2 i hi (hrest.length_eq ▸ hi)
      have hkey := ((hpair y).mp hr).2
      exact hhead (hkey ▸ List.mem_map_of_mem (List.getElem_mem _))
    have hmem := ((List.forall₂_and_left (p := (· ∈ ys)) ys xs).mpr
      ⟨fun _ hy => hy, (ih htail).flip⟩).flip
    refine .cons ?_ (hmem.imp ?_)
    · rw [List.filter_cons, filter_eq_nil_of_forall fun x' hx' => decide_eq_false (hothers x' hx')]
      cases hfound : found y with
      | true => rw [if_pos (decide_eq_true ((hxy y).mpr ⟨hfound, rfl⟩)), if_pos rfl]
      | false =>
        rw [if_neg (by simp [hxy y, hfound]), if_neg Bool.false_ne_true]
    · rintro x' y' ⟨hy', hfilter⟩
      have hne : ¬ r x y' := fun hr =>
        hhead (((hxy y').mp hr).2 ▸ List.mem_map_of_mem hy')
      rw [List.filter_cons_of_neg (by simpa using hne), hfilter]

/-- Numbering changes no field but for its suffix. -/
theorem map_snd_numberModes (k : ℕ) (fields : List (Suffix cov × Field cov)) :
    (numberModes k fields).map Prod.snd = fields.map Prod.snd := by
  induction fields generalizing k with
  | nil => rfl
  | cons x xs ih =>
    rw [numberModes]
    split
    · rw [List.map_cons, List.map_cons, ih]
    · rw [List.map_cons, List.map_cons, ih]

/-- Every field is read under its own name exactly when its label is plain, or it is one of the
first two called `Mode`, if no two names are the same to `camelCase` up to case; under the name of
any other field nothing is found. -/
theorem value_shown (t : Tab cov) {labels : List Str} (hlabelled : t.Labelled labels)
    (hlabels : ∀ label ∈ labels, ∀ c ∈ label, labelChar c = true)
    (hdistinct : ((fieldNames 0 labels).map fun y => nameKey y.1).Nodup)
    {innertext : Page → Str → Option Str} (hfinds : FindsById innertext) :
    List.Forall₂ (fun f y => innertext (fixHtmlIDs cov.htmlIdPref t.page)
      (valueId cov.htmlIdPref (camelCase y.1)) = if y.2 then some f.value.innerText else none)
        t.fields (fieldNames 0 labels) := by
  have hnames := forall₂_fieldNames hlabelled hlabels 0
  have hfound := filter_of_forall₂ (hnames.imp fun _ _ h (z : Str × Bool) => h.same_iff z.1)
    hdistinct
  have hfields : t.fields = t.named.map Prod.snd := by
    rw [Tab.named, map_snd_numberModes, List.map_map]
    exact List.map_id'' (fun _ => rfl) _ |>.symm
  rw [hfields, List.forall₂_map_left_iff]
  refine hfound.imp fun x y hx => ?_
  have hpage := filter_called_pageOf t t.named (camelCase y.1)
  rw [← fixHtmlIDs_page] at hpage
  obtain ⟨hnone, hone⟩ := hfinds (fixHtmlIDs cov.htmlIdPref t.page)
    (valueId cov.htmlIdPref (camelCase y.1))
  cases hy : y.2 with
  | false => exact hnone (hpage.trans (by rw [Tab.named, hx, hy]; rfl))
  | true =>
    have hone := hone (x.2.value.setId (valueId cov.htmlIdPref x.1.text))
    exact hone (hpage.trans (by rw [Tab.named, hx, hy]; rfl))

/-- A field of two labels next to each other. -/
def Field.ofTexts (cov : Coverage) (title value : Str)
    (h : ∀ x ∈ modeIds cov, x ∉ (idSuffix title).splitOnP jsSpace) : Field cov where
  title := ⟨none, true, true, title⟩
  gap := []
  value := ⟨none, true, false, value⟩
  rest := []
  title_shape := ⟨rfl, rfl, rfl⟩
  value_label := rfl
  gap_shape := fun _ he => absurd he List.not_mem_nil
  rest_shape := fun _ he => absurd he List.not_mem_nil
  suffix := ⟨idSuffix title, h⟩
  suffix_eq := rfl

/-- A tab with two fields called `Mode`. -/
def twoModes : Tab .gap where
  before := []
  fields := [
    .ofTexts .gap "Section 125:".toList "Yes".toList (by decide +kernel),
    .ofTexts .gap "Mode:".toList "Days".toList (by decide +kernel),
    .ofTexts .gap "Contract Type:".toList "Group".toList (by decide +kernel),
    .ofTexts .gap "Mode:".toList "Months".toList (by decide +kernel)]
  before_shape := fun _ he => absurd he List.not_mem_nil

def twoModesLabels : List Str :=
  ["Section 125".toList, "Mode".toList, "Contract Type".toList, "Mode".toList]

/-- The second field called `Mode` is read as `Mode 1`, and `Section 125` is not read at all. -/
theorem value_shown_twoModes :
    List.Forall₂ (fun f y => firstText (fixHtmlIDs Coverage.gap.htmlIdPref twoModes.page)
      (valueId Coverage.gap.htmlIdPref (camelCase y.1)) = if y.2 then some f.value.innerText
        else none) twoModes.fields (fieldNames 0 twoModesLabels) ∧
      fieldNames 0 twoModesLabels =
        [("Section 125".toList, false), ("Mode 0".toList, true), ("Contract Type".toList, true),
          ("Mode 1".toList, true)] := by
  refine ⟨value_shown twoModes (.cons rfl (.cons rfl (.cons rfl (.cons rfl .nil)))) ?_
    (by decide +kernel) findsById_firstText, by decide +kernel⟩
  simp only [List.forall_mem_cons]
  exact ⟨Text.forall_mem_of_all (by decide), Text.forall_mem_of_all (by decide),
    Text.forall_mem_of_all (by decide), Text.forall_mem_of_all (by decide),
    fun _ h => absurd h List.not_mem_nil⟩

/-! ## The second time -/

/-- The fields called `mode` before they are numbered. -/
def Tab.modes (t : Tab cov) : ℕ := t.fields.countP fun f => isMode (idSuffix f.title.innerText)

/-- A field that is numbered is not called `mode` any more. -/
theorem isMode_mode0 : isMode (mode0 : Suffix cov).text = false :=
  show isMode "mode0".toList = false by decide

theorem isMode_mode1 : isMode (mode1 : Suffix cov).text = false :=
  show isMode "mode1".toList = false by decide

/-- Of the fields called `mode` two are numbered, less those that were before. -/
theorem countP_numberModes (k : ℕ) (fields : List (Suffix cov × Field cov)) :
    (numberModes k fields).countP (fun x => isMode x.1.text) =
      fields.countP (fun x => isMode x.1.text) - (2 - k) := by
  induction fields generalizing k with
  | nil => simp [numberModes]
  | cons x xs ih =>
    rw [numberModes]
    split
    · next hx =>
      rw [List.countP_cons, ih, List.countP_cons_of_pos (l := xs) hx]
      rcases k with _ | _ | k
      · simp [isMode_mode0]
      · simp [isMode_mode1]
      · simp [hx]
    · next hx =>
      rw [List.countP_cons_of_neg (by simpa using hx), List.countP_cons_of_neg (by simpa using hx),
        ih]

/-- Without fields called `mode` nothing is numbered. -/
theorem numberModes_of_countP_eq_zero {k : ℕ} {fields : List (Suffix cov × Field cov)}
    (h : fields.countP (fun x => isMode x.1.text) = 0) : numberModes k fields = fields := by
  induction fields with
  | nil => rfl
  | cons x xs ih =>
    have hx : ¬ isMode x.1.text = true := List.countP_eq_zero.mp h x List.mem_cons_self
    rw [numberModes, if_neg hx]
    rw [List.countP_cons_of_neg (by simpa using hx)] at h
    rw [ih h]

/-- The page has as many values called `mode` as there are such fields. -/
theorem countP_pageOf (t : Tab cov) (fields : List (Suffix cov × Field cov)) :
    (t.pageOf fields).countP (Element.hasId (valueId cov.htmlIdPref "mode".toList)) =
      fields.countP (fun x => isMode x.1.text) := by
  refine eq_of_forall_ge_iff fun n => ?_
  have hrename := renameNth_value t mode0 n (fields.map fun x => (x.1, x.1, x.2))
  rw [renameNth] at hrename
  rw [Tab.pageOf, ← changeNth_eq_none_iff
    (f := Element.setId (valueId cov.htmlIdPref (mode0 : Suffix cov).text)),
    hrename, Option.map_eq_none_iff, changeNth_eq_none_iff, List.countP_map]
  rfl

end Cdr
