import Mathlib.Data.List.Nodup
import ScriptsMisc.Ahk.CaseList

/-! # Plan details

The loop of `plan_details.ahk` saves one page for every row of the table of plans. Each page is
named after four cells of its row, with three replacements in the joined text, and the dialog that
asks before a file is overwritten is answered with yes. Windows takes two file names for the same
when they differ only in the case of their letters; `fold` stands for its table of letters.
-/

namespace PlanDetails

/-! ## The code -/

/-- The cells of a row that go into the name. -/
structure Row where
  c0 : Str
  c1 : Str
  c2 : Str
  c3 : Str
deriving DecidableEq, Repr

/-- `c[1].innerText + ' ' + c[3].innerText + ' ' + c[2].innerText + ' - ' + c[0].innerText` -/
def Row.text (c : Row) : Str :=
  c.c1 ++ " ".toList ++ c.c3 ++ " ".toList ++ c.c2 ++ " - ".toList ++ c.c0

/-- `[\/\\:]` -/
def isSep (c : Char) : Bool := c = '/' || c = '\\' || c = ':'

/-- `[\s*]`: the star stands inside of the class. -/
def isSpaceOrStar (c : Char) : Bool := Text.isSpace c || c = '*'

/-- `[\s]*-[\s]*Created[\s]*by[\s*]conv[a-zA-Z]*` -/
def createdBy : Regex.Pat :=
  .seq (.star true Text.isSpace) (.seq (.chr '-') (.seq (.star true Text.isSpace)
    (.seq (.lit "Created".toList) (.seq (.star true Text.isSpace) (.seq (.lit "by".toList)
      (.seq (.cls isSpaceOrStar) (.seq (.lit "conv".toList) (.star true Char.isAlpha))))))))

def planName (c : Row) : Str :=
  let planName := c.text
  let planName := Regex.replaceAll (.plus isSep) (fun _ => ['-']) planName
  let planName := Regex.replaceAll (.plus Text.isSpace) (fun _ => [' ']) planName
  Regex.replaceAll createdBy (fun _ => []) planName

/-- Files by what the file system takes for the same path. -/
abbrev Files (Key Page : Type*) := Key → Option Page

/-- The path that `saveAs` puts into the dialog. -/
def path (directory file ext : Str) : Str :=
  directory ++ "\\".toList ++ file ++ ".".toList ++ ext

/-- `saveAs`: a file that exists is overwritten. -/
def saveAs {Key Page : Type*} [DecidableEq Key] (key : Str → Key) (directory file ext : Str)
    (page : Page) (files : Files Key Page) : Files Key Page :=
  Function.update files (key (path directory file ext)) (some page)

/-- The extension that `saveHTML` is called with. -/
def ext : CaseSelect.Env → Str
  | .stage => "htm".toList
  | .dev => "txt".toList

/-- The loop `savePlanDetails` over the rows with the pages behind their links. -/
def savePlanDetails {Key Page : Type*} [DecidableEq Key] (key : Str → Key) (env : CaseSelect.Env)
    (directory : Str) (rows : List (Row × Page)) (files : Files Key Page) : Files Key Page :=
  rows.foldl (fun files row => saveAs key directory (planName row.1) (ext env) row.2 files) files

/-! ## Reading a name off the joined cells -/

/-- The next letter of a text: a run of white space is one blank, a run of separators one hyphen. -/
def next : Str → Option (Char × Str)
  | [] => none
  | c :: s =>
    if Text.isSpace c then some (' ', s.dropWhile Text.isSpace)
    else if isSep c then some ('-', s.dropWhile isSep)
    else some (c, s)

/-- Past a letter of the class. -/
def letter (p : Char → Bool) (s : Str) : Option Str :=
  (next s).bind fun x => if p x.1 then some x.2 else none

/-- What follows a note such as ` - Created by conversion` at the head of the text. -/
def afterNote (s : Str) : Option Str := do
  let s ← letter (· == '-') (s.dropWhile Text.isSpace)
  let s ← Text.after "Created".toList (s.dropWhile Text.isSpace)
  let s ← Text.after "by".toList (s.dropWhile Text.isSpace)
  let s ← letter isSpaceOrStar s
  let s ← Text.after "conv".toList s
  return s.dropWhile Char.isAlpha

/-- Two texts are alike when they have the same letters up to their case, but for notes. -/
inductive Alike (fold : Char → Char) : Str → Str → Prop
  | nil : Alike fold [] []
  | letter {c d : Char} {s s' t t' : Str} (hs : afterNote s = none) (ht : afterNote t = none)
      (hnext : next s = some (c, s')) (hnext' : next t = some (d, t')) (hfold : fold c = fold d)
      (h : Alike fold s' t') : Alike fold s t
  | left {s s' t : Str} (hs : afterNote s = some s') (h : Alike fold s' t) : Alike fold s t
  | right {s t t' : Str} (ht : afterNote t = some t') (h : Alike fold s t') : Alike fold s t

/-- The rows of a case, which differ in the cells of the name. -/
structure PlanTable where
  rows : List Row
  nodup : rows.Nodup

/-! ## Letters -/

/-- A separator is no white space. -/
theorem isSpace_of_isSep {c : Char} (h : isSep c = true) : Text.isSpace c = false := by
  simp only [isSep, Bool.or_eq_true, decide_eq_true_eq] at h
  rcases h with (rfl | rfl) | rfl <;> rfl

/-- The head that a letter is read from. -/
theorem head_of_next {s t : Str} {c : Char} (h : next s = some (c, t)) : ∃ d u, s = d :: u ∧
    (Text.isSpace d = true ∧ c = ' ' ∧ t = u.dropWhile Text.isSpace ∨
      Text.isSpace d = false ∧ isSep d = true ∧ c = '-' ∧ t = u.dropWhile isSep ∨
      Text.isSpace d = false ∧ isSep d = false ∧ c = d ∧ t = u) := by
  cases s with
  | nil => exact absurd h (Option.some_ne_none _).symm
  | cons d u =>
    refine ⟨d, u, rfl, ?_⟩
    rw [next] at h
    split at h
    · next hspace =>
      obtain ⟨rfl, rfl⟩ := Prod.mk.inj (Option.some.inj h)
      exact .inl ⟨hspace, rfl, rfl⟩
    · next hspace =>
      rw [Bool.not_eq_true] at hspace
      split at h
      · next hsep =>
        obtain ⟨rfl, rfl⟩ := Prod.mk.inj (Option.some.inj h)
        exact .inr (.inl ⟨hspace, hsep, rfl, rfl⟩)
      · next hsep =>
        obtain ⟨rfl, rfl⟩ := Prod.mk.inj (Option.some.inj h)
        exact .inr (.inr ⟨hspace, Bool.eq_false_iff.mpr hsep, rfl, rfl⟩)

/-- A letter takes some of the text. -/
theorem length_of_next {s t : Str} {c : Char} (h : next s = some (c, t)) : t.length < s.length := by
  obtain ⟨d, u, rfl, ⟨-, -, rfl⟩ | ⟨-, -, -, rfl⟩ | ⟨-, -, -, rfl⟩⟩ := head_of_next h
  · exact Nat.lt_succ_of_le (List.dropWhile_suffix _).length_le
  · exact Nat.lt_succ_of_le (List.dropWhile_suffix _).length_le
  · exact Nat.lt_succ_self _

theorem next_eq_none {s : Str} (h : next s = none) : s = [] := by
  cases s with
  | nil => rfl
  | cons c s =>
    rw [next] at h
    split at h
    · exact absurd h (Option.some_ne_none _)
    · split at h <;> exact absurd h (Option.some_ne_none _)

/-! ## The squeezed text -/

/-- The text after the first two replacements. -/
def squeezed (s : Str) : Str :=
  Spacing.squeeze Text.isSpace ' ' false (Spacing.squeeze isSep '-' false s)

/-- The name is the squeezed text without its notes. -/
theorem planName_eq (c : Row) :
    planName c = Regex.replaceAll createdBy (fun _ => []) (squeezed c.text) := by
  rw [planName, Regex.replaceAll_plus, Regex.replaceAll_plus]
  rfl

theorem isSep_of_isSpace {c : Char} (h : Text.isSpace c = true) : isSep c = false := by
  rw [Bool.eq_false_iff]
  intro hsep
  rw [isSpace_of_isSep hsep] at h
  exact Bool.false_ne_true h

/-- The squeezed text is made of the letters. -/
theorem squeezed_of_next {s t : Str} {c : Char} (h : next s = some (c, t)) :
    squeezed s = c :: squeezed t := by
  obtain ⟨d, u, rfl, ⟨hspace, rfl, rfl⟩ | ⟨-, hsep, rfl, rfl⟩ | ⟨hspace, hsep, rfl, rfl⟩⟩ :=
    head_of_next h
  · rw [squeezed, Spacing.squeeze, if_neg (Bool.eq_false_iff.mp (isSep_of_isSpace hspace)),
      Spacing.squeeze, if_pos hspace, if_neg Bool.false_ne_true, Spacing.squeeze_true,
      Spacing.dropWhile_squeeze (fun _ => isSep_of_isSpace) rfl]
    rfl
  · rw [squeezed, Spacing.squeeze, if_pos hsep, if_neg Bool.false_ne_true, Spacing.squeeze_true]
    rfl
  · rw [Bool.eq_false_iff] at hspace hsep
    rw [squeezed, Spacing.squeeze, if_neg hsep, Spacing.squeeze, if_neg hspace]
    rfl

/-- White space at the head is dropped before or after squeezing. -/
theorem dropWhile_isSpace_squeezed (s : Str) :
    (squeezed s).dropWhile Text.isSpace = squeezed (s.dropWhile Text.isSpace) := by
  rw [squeezed, Spacing.dropWhile_squeeze_self rfl,
    Spacing.dropWhile_squeeze (fun _ => isSep_of_isSpace) rfl]
  rfl

theorem isSep_of_isAlpha {c : Char} (h : c.isAlpha = true) : isSep c = false := by
  rw [Bool.eq_false_iff]
  intro hsep
  simp only [isSep, Bool.or_eq_true, decide_eq_true_eq] at hsep
  rcases hsep with (rfl | rfl) | rfl <;> cases h

/-- Letters of the alphabet at the head are dropped before or after squeezing. -/
theorem dropWhile_isAlpha_squeezed (s : Str) :
    (squeezed s).dropWhile Char.isAlpha = squeezed (s.dropWhile Char.isAlpha) := by
  rw [squeezed, Spacing.dropWhile_squeeze (fun _ => CaseSelect.isSpace_of_isAlpha) rfl,
    Spacing.dropWhile_squeeze (fun _ => isSep_of_isAlpha) rfl]
  rfl

/-- A letter of the squeezed text. -/
theorem rest_cls_squeezed (p : Char → Bool) (s : Str) :
    Regex.rest (.cls p) (squeezed s) = (letter p s).map squeezed := by
  rw [letter]
  cases h : next s with
  | none => rw [next_eq_none h]; rfl
  | some x =>
    rw [squeezed_of_next h, Regex.rest_cls, Option.bind_some]
    split <;> rfl

/-- A word stands in the squeezed text where it stands in the text. -/
theorem after_squeezed {w : Str} (hw : ∀ c ∈ w, c.isAlpha = true) (s : Str) :
    Text.after w (squeezed s) = (Text.after w s).map squeezed := by
  ext t
  rw [Option.map_eq_some_iff]
  simp only [Text.after_eq_some_iff]
  constructor
  · intro h
    induction w generalizing s with
    | nil => exact ⟨s, rfl, h⟩
    | cons c w ih =>
      rw [List.forall_mem_cons] at hw
      cases hnext : next s with
      | none =>
        rw [next_eq_none hnext] at h
        exact absurd h.symm (List.cons_ne_nil c _)
      | some x =>
        rw [squeezed_of_next hnext, List.cons_append] at h
        obtain ⟨hc, htail⟩ := List.cons.inj h
        obtain ⟨u, hu, hut⟩ := ih hw.2 x.2 htail
        obtain ⟨halpha, -⟩ := hw
        rw [← hc] at halpha ⊢
        -- neither a run of white space nor one of separators is read as a letter of a word
        obtain ⟨d, v, rfl, ⟨-, hd, -⟩ | ⟨-, -, hd, -⟩ | ⟨-, -, hd, hv⟩⟩ := head_of_next hnext
        · rw [hd] at halpha
          cases halpha
        · rw [hd] at halpha
          cases halpha
        · exact ⟨u, by rw [hd, ← hv, hu, List.cons_append], hut⟩
  · rintro ⟨u, rfl, rfl⟩
    rw [squeezed, Spacing.squeeze_append fun c hc => isSep_of_isAlpha (hw c hc),
      Spacing.squeeze_append fun c hc => CaseSelect.isSpace_of_isAlpha (hw c hc)]
    rfl

/-! ## Notes -/

/-- White space in front of the hyphen is passed over. -/
theorem rest_space_hyphen (b : Regex.Pat) (s : Str) :
    Regex.rest (.seq (.star true Text.isSpace) (.seq (.chr '-') b)) s =
      Regex.rest (.seq (.chr '-') b) (s.dropWhile Text.isSpace) := by
  refine Regex.rest_star_seq (fun atStart c s hc => ?_) s
  have hne : ¬(c == '-') = true := fun h => by rw [beq_iff_eq.mp h] at hc; cases hc
  simp [Regex.Pat.run, Regex.Pat.chr, hne]

/-- White space in front of a word is passed over. -/
theorem rest_space_word {w : Str} (hne : w ≠ []) (hw : ∀ c ∈ w, c.isAlpha = true)
    (b : Regex.Pat) (s : Str) :
    Regex.rest (.seq (.star true Text.isSpace) (.seq (.lit w) b)) s =
      Regex.rest (.seq (.lit w) b) (s.dropWhile Text.isSpace) := by
  refine Regex.rest_star_seq (fun atStart c s hc => ?_) s
  obtain ⟨d, w, rfl⟩ := List.exists_cons_of_ne_nil hne
  have hd := CaseSelect.isSpace_of_isAlpha (hw d List.mem_cons_self)
  have hne : ¬(d == c) = true := fun h => by
    rw [beq_iff_eq.mp h, hc] at hd
    cases hd
  rw [Regex.Pat.run, Regex.run_lit, List.isPrefixOf_cons_cons, Bool.eq_false_iff.mpr hne]
  rfl

/-- The third pattern finds the notes. -/
theorem rest_createdBy (s : Str) :
    Regex.rest createdBy (squeezed s) = (afterNote s).map squeezed := by
  have hCreated : ∀ c ∈ "Created".toList, c.isAlpha = true := Text.forall_mem_of_all rfl
  have hby : ∀ c ∈ "by".toList, c.isAlpha = true := Text.forall_mem_of_all rfl
  have hconv : ∀ c ∈ "conv".toList, c.isAlpha = true := Text.forall_mem_of_all rfl
  have hbind : ∀ (o : Option Str) (f : Str → Option Str),
      (o.map squeezed).bind f = o.bind fun s => f (squeezed s) := fun o f => by cases o <;> rfl
  rw [createdBy, rest_space_hyphen, Regex.Pat.chr, Regex.rest_cls_seq, dropWhile_isSpace_squeezed,
    rest_cls_squeezed, hbind, afterNote, Option.bind_eq_bind, Option.map_bind]
  refine Option.bind_congr fun s _ => ?_
  rw [rest_space_word (by simp) hCreated, Regex.rest_lit_seq, dropWhile_isSpace_squeezed,
    after_squeezed hCreated, hbind, Function.comp_apply, Option.map_bind]
  refine Option.bind_congr fun s _ => ?_
  rw [rest_space_word (by simp) hby, Regex.rest_lit_seq, dropWhile_isSpace_squeezed,
    after_squeezed hby, hbind, Function.comp_apply, Option.map_bind]
  refine Option.bind_congr fun s _ => ?_
  rw [Regex.rest_cls_seq, rest_cls_squeezed, hbind, Function.comp_apply,
    Option.map_bind]
  refine Option.bind_congr fun s _ => ?_
  rw [Regex.rest_lit_seq, after_squeezed hconv, hbind, Function.comp_apply,
    Option.map_bind]
  refine Option.bind_congr fun s _ => ?_
  rw [Regex.rest_star, dropWhile_isAlpha_squeezed]
  rfl

/-- What follows a letter of a class is shorter. -/
theorem length_of_letter {p : Char → Bool} {s t : Str} (h : letter p s = some t) :
    t.length < s.length := by
  obtain ⟨⟨c, u⟩, hnext, h⟩ := Option.bind_eq_some_iff.mp h
  rw [Option.ite_none_right_eq_some] at h
  obtain ⟨-, rfl⟩ := h.imp_right Option.some.inj
  exact length_of_next hnext

theorem length_of_after {w s t : Str} (h : Text.after w s = some t) : t.length ≤ s.length := by
  rw [Text.after_eq_some_iff.mp h, List.length_append]
  omega

/-- What follows a note is shorter. -/
theorem length_of_afterNote {s t : Str} (h : afterNote s = some t) : t.length < s.length := by
  have hdrop : ∀ (p : Char → Bool) (s : Str), (s.dropWhile p).length ≤ s.length := fun p s =>
    (List.dropWhile_suffix p (l := s)).length_le
  obtain ⟨s₁, h₁, h⟩ := Option.bind_eq_some_iff.mp h
  obtain ⟨s₂, h₂, h⟩ := Option.bind_eq_some_iff.mp h
  obtain ⟨s₃, h₃, h⟩ := Option.bind_eq_some_iff.mp h
  obtain ⟨s₄, h₄, h⟩ := Option.bind_eq_some_iff.mp h
  obtain ⟨s₅, h₅, h⟩ := Option.bind_eq_some_iff.mp h
  rw [← Option.some.inj h]
  calc (s₅.dropWhile Char.isAlpha).length
      ≤ s₄.length := (hdrop _ _).trans (length_of_after h₅)
    _ < s₃.length := length_of_letter h₄
    _ ≤ s₂.length := (length_of_after h₃).trans (hdrop _ _)
    _ ≤ s₁.length := (length_of_after h₂).trans (hdrop _ _)
    _ < (s.dropWhile Text.isSpace).length := length_of_letter h₁
    _ ≤ s.length := hdrop _ _

/-! ## Names -/

/-- The text without notes. -/
def named (s : Str) : Str := Regex.replaceAll createdBy (fun _ => []) (squeezed s)

/-- A note at the head leaves no trace in the name. -/
theorem named_of_note {s t : Str} (h : afterNote s = some t) : named s = named t := by
  have hrest := rest_createdBy s
  rw [h] at hrest
  exact Regex.replaceAll_of_rest rfl rfl hrest

/-- Where no note stands, the name goes on with the next letter. -/
theorem named_of_next {s t : Str} {c : Char} (hnote : afterNote s = none)
    (h : next s = some (c, t)) : named s = c :: named t := by
  have hrest := rest_createdBy s
  rw [hnote, squeezed_of_next h] at hrest
  rw [named, squeezed_of_next h]
  exact Regex.replaceAll_of_rest_none rfl hrest _

section Alike

variable {fold : Char → Char} {s t : Str}

/-- Texts that are alike have names with the same letters. -/
theorem named_of_alike (h : Alike fold s t) : (named s).map fold = (named t).map fold := by
  induction h with
  | nil => rfl
  | letter hs ht hnext hnext' hfold _ ih =>
    rw [named_of_next hs hnext, named_of_next ht hnext', List.map_cons, List.map_cons, ih, hfold]
  | left hs _ ih => rw [named_of_note hs, ih]
  | right ht _ ih => rw [named_of_note ht, ih]

/-- Texts without a note at the head are alike when they have the same name, and what follows
their first letters is alike when it has. -/
theorem alike_of_next (hs : afterNote s = none) (ht : afterNote t = none)
    (h : (named s).map fold = (named t).map fold)
    (hrest : ∀ s' t', s'.length < s.length → t'.length < t.length →
      (named s').map fold = (named t').map fold → Alike fold s' t') : Alike fold s t := by
  cases hnext : next s with
  | none =>
    cases hnext' : next t with
    | none =>
      rw [next_eq_none hnext, next_eq_none hnext']
      exact .nil
    | some y =>
      rw [next_eq_none hnext, named_of_next ht hnext'] at h
      cases h
  | some x =>
    cases hnext' : next t with
    | none =>
      rw [next_eq_none hnext', named_of_next hs hnext] at h
      cases h
    | some y =>
      obtain ⟨c, s'⟩ := x
      obtain ⟨d, t'⟩ := y
      rw [named_of_next hs hnext, named_of_next ht hnext', List.map_cons, List.map_cons] at h
      obtain ⟨hfold, htail⟩ := List.cons.inj h
      exact .letter hs ht hnext hnext' hfold
        (hrest s' t' (length_of_next hnext) (length_of_next hnext') htail)

/-- Texts are alike exactly when they make the same name. -/
theorem alike_iff : Alike fold s t ↔ (named s).map fold = (named t).map fold := by
  refine ⟨named_of_alike, ?_⟩
  -- the texts get shorter together
  induction hn : s.length + t.length using Nat.strong_induction_on generalizing s t with
  | _ n ih =>
    intro h
    cases hs : afterNote s with
    | some s' =>
      have hlength := length_of_afterNote hs
      exact .left hs (ih _ (by omega) rfl (by rw [← h, named_of_note hs]))
    | none =>
      cases ht : afterNote t with
      | some t' =>
        have hlength := length_of_afterNote ht
        exact .right ht (ih _ (by omega) rfl (by rw [h, named_of_note ht]))
      | none => exact alike_of_next hs ht h fun s' t' hs' ht' => ih _ (by omega) rfl

end Alike

/-! ## Pages -/

section Pages

variable {Key Page : Type*} [DecidableEq Key] (key : Str → Key) (env : CaseSelect.Env)
  (directory : Str) (rows : List (Row × Page)) (files : Files Key Page)

/-- The file that the page of a row is saved in. -/
def pageFile (row : Row × Page) : Key := key (path directory (planName row.1) (ext env))

/-- Every page is still in the file of its row. -/
def Kept : Prop :=
  ∀ x ∈ rows, savePlanDetails key env directory rows files (pageFile key env directory x) =
    some x.2

/-- The last row writes its page into its file. -/
theorem savePlanDetails_concat (x : Row × Page) :
    savePlanDetails key env directory (rows ++ [x]) files =
      Function.update (savePlanDetails key env directory rows files)
        (pageFile key env directory x) (some x.2) := by
  rw [savePlanDetails, List.foldl_append]
  rfl

variable {key env directory rows files}

/-- The last page overwrites a page in the same file, and no other one. -/
theorem kept_concat_iff {x : Row × Page} (hpage : ∀ y ∈ rows, y.2 ≠ x.2) :
    Kept key env directory (rows ++ [x]) files ↔ Kept key env directory rows files ∧
      ∀ y ∈ rows, pageFile key env directory y ≠ pageFile key env directory x := by
  have hbefore : ∀ y ∈ rows, savePlanDetails key env directory (rows ++ [x]) files
        (pageFile key env directory y) = some y.2 ↔
      savePlanDetails key env directory rows files (pageFile key env directory y) = some y.2 ∧
        pageFile key env directory y ≠ pageFile key env directory x := by
    intro y hy
    rw [savePlanDetails_concat]
    by_cases hfile : pageFile key env directory y = pageFile key env directory x
    · rw [hfile, Function.update_self]
      simp [(hpage y hy).symm]
    · rw [Function.update_of_ne hfile]
      simp [hfile]
  have hlast : savePlanDetails key env directory (rows ++ [x]) files
      (pageFile key env directory x) = some x.2 := by
    rw [savePlanDetails_concat, Function.update_self]
  rw [Kept, List.forall_mem_append, List.forall_mem_singleton, and_iff_left hlast,
    forall₂_congr hbefore, Kept]
  exact ⟨fun h => ⟨fun y hy => (h y hy).1, fun y hy => (h y hy).2⟩,
    fun h y hy => ⟨h.1 y hy, h.2 y hy⟩⟩

/-- Pages that differ are all kept when the files of their rows do. -/
theorem kept_iff_nodup (hpages : (rows.map Prod.snd).Nodup) :
    Kept key env directory rows files ↔ (rows.map (pageFile key env directory)).Nodup := by
  induction rows using List.reverseRecOn with
  | nil => simp [Kept]
  | append_singleton rows x ih =>
    rw [List.map_append, List.nodup_append] at hpages
    obtain ⟨hnodup, -, hne⟩ := hpages
    rw [kept_concat_iff fun y hy => hne _ (List.mem_map_of_mem hy) _ (by simp), ih hnodup,
      List.map_append, List.nodup_append]
    refine and_congr_right fun _ => ⟨fun h => ⟨List.nodup_singleton _, ?_⟩, fun h y hy => ?_⟩
    · rintro _ ha _ hb
      obtain ⟨y, hy, rfl⟩ := List.mem_map.mp ha
      rw [List.mem_singleton.mp hb]
      exact h y hy
    · exact h.2 _ (List.mem_map_of_mem hy) _ (List.mem_singleton_self _)

end Pages

/-- The rows of a case are told apart by their numbers. -/
theorem nodup_zipIdx_snd {α : Type*} (l : List α) : (l.zipIdx.map Prod.snd).Nodup := by
  rw [List.zipIdx_map_snd]
  exact List.nodup_range'

/-- Two pages of a case go into the same file exactly when their rows are alike. -/
theorem pageFile_eq_iff {Page : Type*} (fold : Char → Char) (env : CaseSelect.Env)
    (directory : Str) (x y : Row × Page) :
    pageFile (List.map fold) env directory x = pageFile (List.map fold) env directory y ↔
      Alike fold x.1.text y.1.text := by
  rw [alike_iff, named, named, ← planName_eq, ← planName_eq, pageFile, pageFile, path, path]
  simp only [List.map_append, List.append_assoc, List.append_cancel_left_eq,
    List.append_cancel_right_eq]

/-- The files of the rows are different, and every page that is saved is kept, exactly when no two
rows are alike. -/
theorem kept_iff_pairwise (fold : Char → Char) (env : CaseSelect.Env) (directory : Str)
    (table : PlanTable) (files : Files Str ℕ) :
    ((table.rows.zipIdx.map (pageFile (List.map fold) env directory)).Nodup ↔
      table.rows.Pairwise fun r r' => ¬Alike fold r.text r'.text) ∧
    (Kept (List.map fold) env directory table.rows.zipIdx files ↔
      table.rows.Pairwise fun r r' => ¬Alike fold r.text r'.text) := by
  have hfiles : (table.rows.zipIdx.map (pageFile (List.map fold) env directory)).Nodup ↔
      table.rows.Pairwise fun r r' => ¬Alike fold r.text r'.text := by
    have hrows : (table.rows.zipIdx.map Prod.fst).Pairwise
        (fun r r' => ¬Alike fold r.text r'.text) ↔
        table.rows.Pairwise fun r r' => ¬Alike fold r.text r'.text := by
      rw [List.zipIdx_map_fst]
    rw [← hrows, List.Nodup, List.pairwise_map, List.pairwise_map]
    exact List.Pairwise.iff fun x y => not_congr (pageFile_eq_iff fold env directory x y)
  exact ⟨hfiles, (kept_iff_nodup (nodup_zipIdx_snd table.rows)).trans hfiles⟩

/-- A name with a slash. -/
def slash : Row := ⟨"Dental 50/50".toList, "1".toList, "Monthly".toList, "WS".toList⟩

/-- A name with a hyphen in its place. -/
def hyphen : Row := ⟨"Dental 50-50".toList, "1".toList, "Monthly".toList, "WS".toList⟩

def slashAndHyphen : PlanTable where
  rows := [slash, hyphen]
  nodup := by decide

/-- The page of the first row is overwritten, whatever the file system takes for the same letter. -/
theorem not_kept_slashAndHyphen :
    planName slash = planName hyphen ∧
      ∀ (fold : Char → Char) (env : CaseSelect.Env) (directory : Str) (files : Files Str ℕ),
        ¬Kept (List.map fold) env directory slashAndHyphen.rows.zipIdx files := by
  have hsqueezed : squeezed slash.text = squeezed hyphen.text := by decide +kernel
  have hname : planName slash = planName hyphen := by
    rw [planName_eq, planName_eq, hsqueezed]
  refine ⟨hname, fun fold env directory files hkept => ?_⟩
  have hnodup := (kept_iff_nodup (nodup_zipIdx_snd slashAndHyphen.rows)).mp hkept
  have hfile : pageFile (List.map fold) env directory (slash, 0) =
      pageFile (List.map fold) env directory (hyphen, 1) := by
    rw [pageFile, pageFile, hname]
  exact (List.nodup_cons.mp hnodup).1 (List.mem_singleton.mpr hfile)

/-! ## Proposals -/

/-- The name that `proposals.ahk` gives to the file of a proposal: `A_Index . " - " . propDesc`. -/
def proposalName (index : ℕ) (label : Str) : Str :=
  let propDesc := Regex.replaceAll (.lit "&amp;".toList) (fun _ => ['&']) label
  let propDesc := Regex.replaceAll
    (.cls fun c => !(c.isAlphanum || c = '&' || c = ',' || c = ' ')) (fun _ => []) propDesc
  Nat.toDigits 10 index ++ " - ".toList ++ propDesc

/-- The number in front tells the proposals apart, whatever their labels. -/
theorem proposalName_inj {i j : ℕ} {label label' : Str}
    (h : proposalName i label = proposalName j label') : i = j := by
  have htake : ∀ (n : ℕ) (t : Str),
      (Nat.toDigits 10 n ++ " - ".toList ++ t).takeWhile Char.isDigit = Nat.toDigits 10 n := by
    intro n t
    have hdigits : ∀ c ∈ Nat.toDigits 10 n, c.isDigit = true := fun c hc =>
      Nat.isDigit_of_mem_toDigits (by omega) le_rfl hc
    rw [List.append_assoc, List.takeWhile_append_of_pos hdigits]
    exact List.append_nil _
  have hdigits := congrArg (List.takeWhile Char.isDigit) h
  rw [proposalName, proposalName, htake, htake] at hdigits
  calc i = Nat.ofDigitChars 10 (Nat.toDigits 10 i) 0 := Nat.ofDigitChars_ten_toDigits.symm
    _ = Nat.ofDigitChars 10 (Nat.toDigits 10 j) 0 := by rw [hdigits]
    _ = j := Nat.ofDigitChars_ten_toDigits

/-- No two proposals of a case get the same name. -/
theorem nodup_proposalName (labels : List Str) :
    (labels.zipIdx.map fun x => proposalName (x.2 + 1) x.1).Nodup := by
  have hindex := nodup_zipIdx_snd labels
  rw [List.Nodup, List.pairwise_map] at hindex ⊢
  refine hindex.imp fun {x y} hne hname => hne ?_
  have hsucc := proposalName_inj hname
  omega

end PlanDetails
