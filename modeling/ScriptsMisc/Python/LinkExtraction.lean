import ScriptsMisc.Python.Crawler

/-! # The links of a page

The crawler reads the links of a page off its anchor tags with one pattern. The pattern ends a value
at the first quote of either kind and does not cross a line break, so it does not find the value of
every tag.
-/

namespace Crawler

/-! ## Anchor tags -/

/-- A quote that ends a value. -/
def quoteChar (c : Char) : Bool := c == '\'' || c == '"'

/-- The parts of an anchor tag. -/
structure AnchorTag where
  space : Str
  quote : Char
  value : Str
  rest : Str
  space_chars : ∀ c ∈ space, Text.isSpace c = true
  quote_char : quoteChar quote = true
  value_chars : ∀ c ∈ value, c ≠ quote ∧ c ≠ '<' ∧ c ≠ '>' ∧ c ≠ '\n'
  rest_chars : '>' ∉ rest

/-- The tag without its `>`. -/
def AnchorTag.inner (tag : AnchorTag) : Str :=
  "<a".toList ++ tag.space ++ "href=".toList ++ [tag.quote] ++
    (tag.value ++ tag.quote :: tag.rest)

/-- The text of a tag. -/
def AnchorTag.text (tag : AnchorTag) : Str := tag.inner ++ ['>']

/-- Text between the tags. -/
abbrev Gap := {s : Str // ¬ "<a".toList <:+: s}

/-- A page: a gap in front, and the tags, each with the gap behind it. -/
def pageText (before : Gap) (tags : List (AnchorTag × Gap)) : Str :=
  before.1 ++ tags.flatMap fun tag => tag.1.text ++ tag.2.1

/-! ## What the pattern takes from a tag -/

/-- A character the pattern takes for the first quote. -/
def openChar (c : Char) : Bool := c == '\'' || c == '|' || c == '"'

/-- The start of a link at the head of a text, up to the first quote, and what follows it. -/
def splitOpening (s : Str) : Option (Str × Str) :=
  (Text.after "<a".toList s).bind fun t =>
    (Text.after "href=".toList (t.dropWhile Text.isSpace)).bind fun u =>
      match u with
      | [] => none
      | c :: body =>
        if openChar c then
          some ("<a".toList ++ t.takeWhile Text.isSpace ++ "href=".toList ++ [c], body)
        else none

/-- What follows the first start of a link behind which there is no line break. -/
def firstOpening : Str → Option Str
  | [] => none
  | c :: s =>
    match splitOpening (c :: s) with
    | some (_, body) => if '\n' ∈ body then firstOpening s else some body
    | none => firstOpening s

/-- No tag opens here. -/
theorem firstOpening_of_none {c : Char} {s : Str} (h : splitOpening (c :: s) = none) :
    firstOpening (c :: s) = firstOpening s := by
  rw [firstOpening, h]

/-- A tag that opens here is the first one, unless its line ends. -/
theorem firstOpening_of_some {c : Char} {s o body : Str}
    (h : splitOpening (c :: s) = some (o, body)) :
    firstOpening (c :: s) = if '\n' ∈ body then firstOpening s else some body := by
  rw [firstOpening, h]

/-- The text up to the first quote. -/
def upToQuote (body : Str) : Option Str :=
  if body.any quoteChar then some (body.takeWhile (! quoteChar ·)) else none

/-- The value is found: it has no quote of the other kind and no line break follows it in the tag,
or, behind the line break, the rest of the tag has another start of a link with the same value. -/
def AnchorTag.IsExtracted (tag : AnchorTag) : Prop :=
  if '\n' ∈ tag.rest then (firstOpening tag.rest).bind upToQuote = some tag.value
  else ∀ c ∈ tag.value, quoteChar c = false

instance (tag : AnchorTag) : Decidable tag.IsExtracted := by
  unfold AnchorTag.IsExtracted; infer_instance

/-! ## The start of a link -/

/-- A start of a link, up to the first quote. -/
def IsOpening (o : Str) : Prop :=
  ∃ space c, (∀ d ∈ space, Text.isSpace d = true) ∧ openChar c = true ∧
    o = "<a".toList ++ space ++ "href=".toList ++ [c]

/-- An opening starts with `<a` and has no other bracket. -/
theorem IsOpening.exists_cons {o : Str} (h : IsOpening o) :
    ∃ r, o = '<' :: 'a' :: r ∧ '<' ∉ r ∧ '>' ∉ r := by
  obtain ⟨space, c, hspace, hc, rfl⟩ := h
  have hnot : ∀ d : Char, Text.isSpace d = false → openChar d = false → d ∉ "href=".toList →
      d ∉ space ++ ("href=".toList ++ [c]) := by
    intro d hd hd' hhref hmem
    rcases List.mem_append.mp hmem with hmem | hmem
    · rw [hspace d hmem] at hd
      exact absurd hd (by decide)
    rcases List.mem_append.mp hmem with hmem | hmem
    · exact hhref hmem
    · rw [List.mem_singleton.mp hmem, hc] at hd'
      exact absurd hd' (by decide)
  exact ⟨space ++ ("href=".toList ++ [c]), by simp, hnot '<' (by decide) (by decide) (by decide),
    hnot '>' (by decide) (by decide) (by decide)⟩

/-- A text is split behind an opening. -/
theorem splitOpening_eq_some_iff {s o body : Str} :
    splitOpening s = some (o, body) ↔ IsOpening o ∧ s = o ++ body := by
  constructor
  · intro h
    obtain ⟨t, ht, h⟩ := Option.bind_eq_some_iff.mp h
    obtain ⟨u, hu, h⟩ := Option.bind_eq_some_iff.mp h
    have hs := Text.after_eq_some_iff.mp ht
    have hrest := Text.after_eq_some_iff.mp hu
    cases u with
    | nil => exact absurd h (Option.some_ne_none _).symm
    | cons c body' =>
      simp only [Option.ite_none_right_eq_some] at h
      obtain ⟨hc, h⟩ := h
      obtain ⟨rfl, rfl⟩ := Prod.mk.inj (Option.some.inj h)
      refine ⟨⟨t.takeWhile Text.isSpace, c, List.all_eq_true.mp List.all_takeWhile, hc, rfl⟩, ?_⟩
      have hsplit := List.takeWhile_append_dropWhile (p := Text.isSpace) (l := t)
      rw [hrest] at hsplit
      rw [hs]
      conv => lhs; rw [← hsplit]
      simp only [List.append_assoc, List.singleton_append]
  · rintro ⟨⟨space, c, hspace, hc, rfl⟩, rfl⟩
    have hh : ¬ Text.isSpace 'h' = true := by decide
    have ha : Text.after "<a".toList ("<a".toList ++ space ++ "href=".toList ++ [c] ++ body) =
        some (space ++ 'h' :: ("ref=".toList ++ c :: body)) :=
      Text.after_eq_some_iff.mpr (by simp)
    have hhref : Text.after "href=".toList ('h' :: ("ref=".toList ++ c :: body)) =
        some (c :: body) := Text.after_eq_some_iff.mpr (by simp)
    rw [splitOpening, ha, Option.bind_some, List.dropWhile_append_of_pos hspace,
      List.dropWhile_cons_of_neg hh, hhref, Option.bind_some, List.takeWhile_append_of_pos hspace,
      List.takeWhile_cons_of_neg hh, List.append_nil]
    exact if_pos hc

/-- The pattern behind the first quote. -/
def valuePattern : Regex.Pat :=
  .seq (.group (.star false pyDot)) <| .seq (.cls quoteChar) <|
  .seq (.star false pyDot) (.chr '>')

/-- The pattern starts where a link starts, and there in one way. -/
theorem run_linkPattern (s : Str) :
    linkPattern.run false s = (splitOpening s).toList.flatMap fun ob =>
      (valuePattern.run false ob.2).map fun m => ⟨ob.1 ++ m.text, m.groups⟩ := by
  have hopen : ∀ u : Str, (Regex.Pat.seq (.cls openChar) valuePattern).run false u =
      match u with
      | [] => []
      | c :: body => if openChar c then
          (valuePattern.run false body).map fun m => ⟨c :: m.text, m.groups⟩ else [] := by
    intro u
    cases u with
    | nil => rfl
    | cons c body => by_cases hc : openChar c = true <;> simp [Regex.Pat.run, hc]
  have hhref : ∀ u : Str,
      (Regex.Pat.seq (.lit "href=".toList) (.seq (.cls openChar) valuePattern)).run false u =
        (Text.after "href=".toList u).toList.flatMap fun v =>
          ((Regex.Pat.seq (.cls openChar) valuePattern).run false v).map fun m =>
            ⟨"href=".toList ++ m.text, m.groups⟩ := by
    intro u
    rw [Regex.Pat.run, Regex.run_lit, Text.after]
    split <;> simp
  have hspace : ∀ atStart c u, Text.isSpace c = true →
      (Regex.Pat.seq (.lit "href=".toList) (.seq (.cls openChar) valuePattern)).run atStart
        (c :: u) = [] := by
    intro atStart c u hc
    have hne : ¬ "href=".toList.isPrefixOf (c :: u) = true := by
      intro hpre
      have hh : 'h' = c := (List.cons_prefix_cons.mp (List.isPrefixOf_iff_prefix.mp hpre)).1
      rw [← hh] at hc
      exact absurd hc (by decide)
    rw [Regex.Pat.run, Regex.run_lit, if_neg hne, List.flatMap_nil]
  show (Regex.Pat.seq (.lit "<a".toList) (.seq (.star true Text.isSpace)
    (.seq (.lit "href=".toList) (.seq (.cls openChar) valuePattern)))).run false s = _
  rw [Regex.Pat.run, Regex.run_lit, splitOpening, Text.after]
  split
  · simp only [List.flatMap_cons, List.flatMap_nil, List.append_nil, Option.bind_some,
      Bool.false_and, List.nil_append]
    rw [Regex.run_star_seq hspace, Bool.false_and, hhref]
    cases hafter : Text.after "href=".toList
      ((s.drop "<a".toList.length).dropWhile Text.isSpace) with
    | none => simp
    | some u =>
      cases u with
      | nil => simp [hopen]
      | cons c body => by_cases hc : openChar c = true <;> simp [hopen, hc]
  · rfl

/-- Without an opening the pattern does not match. -/
theorem matchAt_of_splitOpening_none {s : Str} (h : splitOpening s = none) :
    Regex.matchAt linkPattern false s = none := by
  rw [Regex.matchAt, run_linkPattern, h]
  rfl

/-- Behind one it goes on with the value. -/
theorem matchAt_of_splitOpening {s o body : Str} (h : splitOpening s = some (o, body)) :
    Regex.matchAt linkPattern false s =
      (Regex.matchAt valuePattern false body).map fun m => ⟨o ++ m.text, m.groups⟩ := by
  rw [Regex.matchAt, run_linkPattern, h, Option.toList_some, List.flatMap_cons, List.flatMap_nil,
    List.append_nil, List.head?_map, Regex.matchAt]

/-! ## The value -/

/-- What is behind the first quote in a match: a value, a quote, and a text up to a `>`. -/
theorem exists_of_mem_run_valuePattern {s : Str} {m : Regex.Match}
    (h : m ∈ valuePattern.run false s) :
    ∃ g c w, m = ⟨g ++ c :: (w ++ ['>']), [g]⟩ ∧ quoteChar c = true ∧
      (∀ d ∈ g ++ w, pyDot d = true) ∧ g ++ c :: (w ++ ['>']) <+: s := by
  have hpre := Regex.prefix_of_mem_run h
  rw [valuePattern, Regex.run_lazy_group] at h
  obtain ⟨g, hg, h⟩ := List.mem_flatMap.mp h
  obtain ⟨m₁, hm₁, rfl⟩ := List.mem_map.mp h
  rw [Regex.Pat.run, Regex.run_cls] at hm₁
  obtain ⟨m₂, hm₂, h⟩ := List.mem_flatMap.mp hm₁
  obtain ⟨c, hc, rfl⟩ := List.mem_map.mp hm₂
  obtain ⟨m₃, hm₃, rfl⟩ := List.mem_map.mp h
  rw [Regex.run_lazy] at hm₃
  obtain ⟨w, hw, h⟩ := List.mem_flatMap.mp hm₃
  obtain ⟨m₄, hm₄, rfl⟩ := List.mem_map.mp h
  rw [Regex.Pat.chr, Regex.run_cls] at hm₄
  obtain ⟨e, he, rfl⟩ := List.mem_map.mp hm₄
  obtain ⟨-, hquote⟩ := Option.filter_eq_some_iff.mp (Option.mem_toList.mp hc)
  obtain ⟨-, hgt⟩ := Option.filter_eq_some_iff.mp (Option.mem_toList.mp he)
  have he' : e = '>' := by simpa using hgt
  subst he'
  refine ⟨g, c, w, by simp, hquote, ?_, by simpa using hpre⟩
  intro d hd
  rcases List.mem_append.mp hd with hd | hd
  · exact (Regex.mem_classPrefixes.mp hg).2 d hd
  · exact (Regex.mem_classPrefixes.mp hw).2 d hd

/-- A value is matched up to the first quote, and the tag up to its end. -/
theorem matchAt_valuePattern {g w : Str} {c : Char} (after : Str) (hc : quoteChar c = true)
    (hg : ∀ d ∈ g, quoteChar d = false ∧ pyDot d = true)
    (hw : ∀ d ∈ w, d ≠ '>' ∧ pyDot d = true) :
    Regex.matchAt valuePattern false (g ++ c :: (w ++ '>' :: after)) =
      some ⟨g ++ c :: (w ++ ['>']), [g]⟩ := by
  have htail : Regex.matchAt (.seq (.star false pyDot) (.chr '>')) false (w ++ '>' :: after) =
      some ⟨w ++ ['>'], []⟩ := by
    rw [Regex.matchAt, Regex.run_lazy, Regex.head?_classPrefixes_flatMap fun d hd => (hw d hd).2]
    · simp [Regex.Pat.chr, Regex.run_cls]
    · simp [Regex.Pat.chr, Regex.run_cls]
    · intro w' hpre hne
      obtain ⟨v, rfl⟩ := hpre
      obtain ⟨d, v, rfl⟩ := List.exists_cons_of_ne_nil fun hv : v = [] => hne (by simp [hv])
      have hd : d ≠ '>' := (hw d (by simp)).1
      simp [Regex.Pat.chr, Regex.run_cls, hd, Option.filter]
  have hquoted : ∀ s : Str, (Regex.Pat.seq (.cls quoteChar) (.seq (.star false pyDot)
      (.chr '>'))).run false (c :: s) = ((Regex.Pat.seq (.star false pyDot) (.chr '>')).run false
        s).map fun m => ⟨c :: m.text, m.groups⟩ := by
    intro s
    simp [Regex.Pat.run, hc, Nat.add_comm 1]
  rw [Regex.matchAt, valuePattern, Regex.run_lazy_group,
    Regex.head?_classPrefixes_flatMap fun d hd => (hg d hd).2]
  · rw [List.drop_left, Bool.false_and, hquoted, List.map_map, List.head?_map]
    rw [Regex.matchAt] at htail
    rw [htail]
    rfl
  · rw [List.drop_left, Bool.false_and, hquoted]
    intro hnil
    rw [List.map_eq_nil_iff, List.map_eq_nil_iff] at hnil
    rw [Regex.matchAt, hnil] at htail
    exact absurd htail (Option.some_ne_none _).symm
  · intro g' hpre hne
    obtain ⟨v, rfl⟩ := hpre
    obtain ⟨d, v, rfl⟩ := List.exists_cons_of_ne_nil fun hv : v = [] => hne (by simp [hv])
    have hd : quoteChar d = false := (hg d (by simp)).1
    simp [Regex.Pat.run, hd]

/-- Past a line break no match ends. -/
theorem matchAt_valuePattern_of_newline {body : Str} (after : Str) (hgt : '>' ∉ body)
    (hnewline : '\n' ∈ body) :
    Regex.matchAt valuePattern false (body ++ '>' :: after) = none := by
  rw [Regex.matchAt, List.head?_eq_none_iff, List.eq_nil_iff_forall_not_mem]
  intro m hm
  obtain ⟨g, c, w, rfl, hc, hdots, hpre⟩ := exists_of_mem_run_valuePattern hm
  -- the match reaches past the body
  have hbody : body <+: g ++ c :: (w ++ ['>']) := by
    rcases List.prefix_or_prefix_of_prefix (List.prefix_append body ('>' :: after)) hpre with h | h
    · exact h
    · exact absurd (h.mem (by simp)) hgt
  have hmem : '\n' ∈ g ++ c :: (w ++ ['>']) := hbody.mem hnewline
  have hquote : c ≠ '\n' := by
    rintro rfl
    exact absurd hc (by decide)
  have hmem' : '\n' ∈ g ++ w := by
    simpa [hquote.symm] using hmem
  exact absurd (hdots _ hmem') (by decide)

/-- Where no quote follows in the tag, a match reaches past it. -/
theorem mem_group_of_no_quote {body : Str} {after : Str} {m : Regex.Match}
    (hquote : ∀ c ∈ body, quoteChar c = false)
    (h : Regex.matchAt valuePattern false (body ++ '>' :: after) = some m) :
    '>' ∈ m.groups.headD [] := by
  obtain ⟨g, c, w, rfl, hc, -, hpre⟩ :=
    exists_of_mem_run_valuePattern (List.mem_of_mem_head? h)
  have hg : g ++ [c] <+: body ++ '>' :: after := by
    refine (?_ : g ++ [c] <+: _).trans hpre
    exact ⟨w ++ ['>'], by simp⟩
  have hbody : ¬ g ++ [c] <+: body := fun hle => by
    have hfalse := hquote c (hle.mem (by simp))
    rw [hc] at hfalse
    exact absurd hfalse (by decide)
  have hend : ¬ g ++ [c] <+: body ++ ['>'] := by
    rw [List.prefix_concat_iff]
    rintro (heq | hle)
    · have hgt : c = '>' := by simpa using congrArg List.getLast? heq
      rw [hgt] at hc
      exact absurd hc (by decide)
    · exact hbody hle
  have hlong : body ++ ['>'] <+: g ++ [c] := by
    have hpre' : body ++ ['>'] <+: body ++ '>' :: after := ⟨after, by simp⟩
    exact (List.prefix_or_prefix_of_prefix hpre' hg).resolve_right hend
  have hmem : '>' ∈ g ++ [c] := hlong.mem (by simp)
  rcases List.mem_append.mp hmem with hmem | hmem
  · exact hmem
  · rw [← List.mem_singleton.mp hmem] at hc
    exact absurd hc (by decide)

/-! ## Scanning -/

/-- The links found from a position on. -/
def linksFrom (s : Str) : List Str :=
  ((Regex.scan linkPattern 0 false s).filterMap fun
    | .char _ => none
    | .found m => some m).map fun m => m.groups.headD []

/-- The links are found one after the other. -/
theorem findLinks_eq (s : Str) : findLinks s = linksFrom s := by
  rw [findLinks, Regex.findAll, Regex.pieces, Regex.scan_of_floating (by decide)]
  rfl

/-- Where nothing matches the search goes on. -/
theorem linksFrom_of_no_match {c : Char} {s : Str}
    (h : Regex.matchAt linkPattern false (c :: s) = none) : linksFrom (c :: s) = linksFrom s := by
  rw [linksFrom, Regex.scan_of_no_match h]
  rfl

/-- A match gives a link, and the search goes on behind it. -/
theorem linksFrom_of_match {s t : Str} {m : Regex.Match} (hs : s = m.text ++ t)
    (h : Regex.matchAt linkPattern false s = some m) (hne : m.text ≠ []) :
    linksFrom s = m.groups.headD [] :: linksFrom t := by
  obtain ⟨c, rest, hc⟩ := List.exists_cons_of_ne_nil (List.append_ne_nil_of_left_ne_nil hne t)
  have hdrop : (c :: rest).drop m.text.length = t := by rw [← hc, List.drop_left]
  rw [hs, hc] at h
  rw [hs, hc, linksFrom, Regex.scan_of_match h hne, hdrop]
  rfl

/-- Text in which no link starts is passed over. -/
theorem linksFrom_append {x t : Str}
    (h : ∀ v, v <:+ x → v ≠ [] → splitOpening (v ++ t) = none) :
    linksFrom (x ++ t) = linksFrom t := by
  induction x with
  | nil => rfl
  | cons c x ih =>
    have hc := matchAt_of_splitOpening_none (h (c :: x) (List.suffix_refl _) (List.cons_ne_nil c x))
    rw [List.cons_append] at hc ⊢
    rw [linksFrom_of_no_match hc]
    exact ih fun v hv => h v (hv.trans (List.suffix_cons c x))

/-- An opening starts with `<a`. -/
theorem splitOpening_of_not_prefix {s : Str} (h : ¬ "<a".toList <+: s) : splitOpening s = none := by
  rw [splitOpening, Text.after, if_neg (fun hpre => h (List.isPrefixOf_iff_prefix.mp hpre))]
  rfl

/-- A text that starts no link where the gap ends. -/
def StartsTag (t : Str) : Prop := ∀ c ∈ t.head?, c = '<'

/-- No link starts in a gap. -/
theorem Gap.not_prefix (gap : Gap) {t : Str} (ht : StartsTag t) {v : Str} (hv : v <:+ gap.1)
    (hne : v ≠ []) : ¬ "<a".toList <+: v ++ t := by
  intro hpre
  match v with
  | [] => exact hne rfl
  | [c] =>
    have hhead := (List.cons_prefix_cons.mp hpre).2
    obtain ⟨rest, hrest⟩ : ['a'] <+: t := hhead
    have ha : 'a' = '<' := ht 'a' (by rw [← hrest]; rfl)
    exact absurd ha (by decide)
  | c :: d :: v =>
    obtain ⟨rfl, hrest⟩ := List.cons_prefix_cons.mp hpre
    obtain ⟨rfl, -⟩ := List.cons_prefix_cons.mp hrest
    exact gap.2 (List.IsInfix.trans ⟨[], v, rfl⟩ hv.isInfix)

/-- There is no link between the tags. -/
theorem linksFrom_gap_append (gap : Gap) {t : Str} (ht : StartsTag t) :
    linksFrom (gap.1 ++ t) = linksFrom t :=
  linksFrom_append fun _ hv hne => splitOpening_of_not_prefix (gap.not_prefix ht hv hne)

/-- The end of the tag does not complete the start of a link. -/
theorem splitOpening_append_gt {u : Str} (after : Str) :
    splitOpening (u ++ '>' :: after) =
      (splitOpening u).map fun ob => (ob.1, ob.2 ++ '>' :: after) := by
  cases hu : splitOpening u with
  | some ob =>
    obtain ⟨o, body⟩ := ob
    obtain ⟨ho, rfl⟩ := splitOpening_eq_some_iff.mp hu
    exact splitOpening_eq_some_iff.mpr ⟨ho, List.append_assoc _ _ _⟩
  | none =>
    rw [Option.map_none, Option.eq_none_iff_forall_not_mem]
    rintro ⟨o, body⟩ hob
    obtain ⟨ho, heq⟩ := splitOpening_eq_some_iff.mp hob
    have hgt : '>' ∉ o := by
      obtain ⟨r, rfl, -, hr⟩ := ho.exists_cons
      simpa using hr
    obtain ⟨body', rfl⟩ := Escape.prefix_of_prefix_append_cons hgt (heq ▸ List.prefix_append o body)
    rw [splitOpening_eq_some_iff.mpr ⟨ho, rfl⟩] at hu
    exact absurd hu (Option.some_ne_none _)

/-- Without an opening nothing matches up to the end of the tag. -/
theorem matchAt_append_gt_of_none {u : Str} (h : splitOpening u = none) (after : Str) :
    Regex.matchAt linkPattern false (u ++ '>' :: after) = none := by
  refine matchAt_of_splitOpening_none ?_
  rw [splitOpening_append_gt, h, Option.map_none]

/-- Behind an opening the value is looked for. -/
theorem matchAt_append_gt {u o body : Str} (h : splitOpening u = some (o, body)) (after : Str) :
    Regex.matchAt linkPattern false (u ++ '>' :: after) =
      (Regex.matchAt valuePattern false (body ++ '>' :: after)).map fun m =>
        ⟨o ++ m.text, m.groups⟩ := by
  refine matchAt_of_splitOpening ?_
  rw [splitOpening_append_gt, h, Option.map_some]

/-! ## One tag -/

/-- Without a quote behind any start of a link, nothing is found, or a link that reaches past the
tag. -/
theorem linksFrom_of_no_quote {u : Str} (hgt : '>' ∉ u) (after : Str)
    (h : ∀ v o body, v <:+ u → splitOpening v = some (o, body) → ∀ c ∈ body, quoteChar c = false) :
    (∃ x xs, linksFrom (u ++ '>' :: after) = x :: xs ∧ '>' ∈ x) ∨
      linksFrom (u ++ '>' :: after) = linksFrom after := by
  induction u with
  | nil =>
    have hnone : splitOpening ('>' :: after) = none :=
      splitOpening_of_not_prefix fun hpre => absurd (List.cons_prefix_cons.mp hpre).1 (by decide)
    exact Or.inr (linksFrom_of_no_match (matchAt_of_splitOpening_none hnone))
  | cons c u ih =>
    have hstep := ih (fun hmem => hgt (List.mem_cons_of_mem c hmem))
      fun v o body hv => h v o body (hv.trans (List.suffix_cons c u))
    cases hm : Regex.matchAt linkPattern false (c :: u ++ '>' :: after) with
    | none =>
      rw [List.cons_append] at hm ⊢
      rwa [linksFrom_of_no_match hm]
    | some m =>
      have hm' := hm
      cases hopen : splitOpening (c :: u) with
      | none =>
        rw [matchAt_append_gt_of_none hopen] at hm
        exact absurd hm (Option.some_ne_none m).symm
      | some ob =>
        obtain ⟨o, body⟩ := ob
        rw [matchAt_append_gt hopen] at hm
        obtain ⟨m', hvalue, rfl⟩ := Option.map_eq_some_iff.mp hm
        obtain ⟨t, ht⟩ := Regex.prefix_of_mem_run (List.mem_of_mem_head? hm')
        refine Or.inl ⟨_, _, linksFrom_of_match ht.symm hm' ?_, ?_⟩
        · obtain ⟨r, rfl, -⟩ := (splitOpening_eq_some_iff.mp hopen).1.exists_cons
          exact List.cons_ne_nil _ _
        · show '>' ∈ m'.groups.headD []
          exact mem_group_of_no_quote (h _ _ _ (List.suffix_refl _) hopen) hvalue

/-- The starts of links in a text lie behind its first, or are it. -/
theorem suffix_of_splitOpening {o body v o' body' : Str} (ho : IsOpening o)
    (hv : v <:+ o ++ body) (h : splitOpening v = some (o', body')) : body' <:+ body := by
  obtain ⟨r, hr, hlt, -⟩ := ho.exists_cons
  obtain ⟨ho', rfl⟩ := splitOpening_eq_some_iff.mp h
  obtain ⟨r', hr', -⟩ := ho'.exists_cons
  rcases List.suffix_or_suffix_of_suffix hv (List.suffix_append o body) with hle | hle
  · exact (List.suffix_append o' body').trans hle
  · -- nothing inside the first start starts a link
    obtain ⟨w, hw⟩ := hle
    obtain ⟨x, hx⟩ := hv
    have hsplit : x ++ w = o := by
      have happ : x ++ w ++ body = o ++ body := by rw [List.append_assoc, hw, hx]
      exact List.append_cancel_right happ
    cases x with
    | nil =>
      rw [List.nil_append] at hsplit hx
      have hsame := splitOpening_eq_some_iff.mpr ⟨ho, hx⟩
      rw [h] at hsame
      rw [(Prod.mk.inj (Option.some.inj hsame)).2]
    | cons c x =>
      cases w with
      | nil =>
        rw [List.nil_append] at hw
        rw [hw]
        exact List.suffix_append o' body'
      | cons d w =>
        have hd : d = '<' := by
          rw [hr'] at hw
          exact (List.cons.inj hw).1
        rw [hr] at hsplit
        have hmem : '<' ∈ 'a' :: r := by
          rw [← (List.cons.inj hsplit).2, hd]
          exact List.mem_append_right x List.mem_cons_self
        exact absurd (List.mem_of_ne_of_mem (by decide) hmem) hlt

/-- The first quote of a text. -/
theorem exists_quote {body : Str} (h : body.any quoteChar = true) :
    ∃ g q w, body = g ++ q :: w ∧ (∀ d ∈ g, quoteChar d = false) ∧ quoteChar q = true := by
  induction body with
  | nil => exact absurd h Bool.false_ne_true
  | cons c body ih =>
    by_cases hc : quoteChar c = true
    · exact ⟨[], c, body, rfl, fun d hd => absurd hd List.not_mem_nil, hc⟩
    · have hc' : quoteChar c = false := by simpa using hc
      rw [List.any_cons, hc', Bool.false_or] at h
      obtain ⟨g, q, w, rfl, hg, hq⟩ := ih h
      exact ⟨c :: g, q, w, rfl, List.forall_mem_cons.mpr ⟨hc', hg⟩, hq⟩

/-- What is found in a text up to its `>`. -/
theorem linksFrom_append_gt {u : Str} (hgt : '>' ∉ u) (after : Str) :
    match (firstOpening u).bind upToQuote with
    | some g => linksFrom (u ++ '>' :: after) = g :: linksFrom after
    | none => (∃ x xs, linksFrom (u ++ '>' :: after) = x :: xs ∧ '>' ∈ x) ∨
        linksFrom (u ++ '>' :: after) = linksFrom after := by
  induction u with
  | nil =>
    refine linksFrom_of_no_quote hgt after fun v o body hv h => ?_
    rw [List.suffix_nil.mp hv] at h
    exact absurd h (Option.some_ne_none _).symm
  | cons c u ih =>
    have hstep := ih fun hmem => hgt (List.mem_cons_of_mem c hmem)
    cases hopen : splitOpening (c :: u) with
    | none =>
      have hnone := matchAt_append_gt_of_none hopen after
      rw [List.cons_append] at hnone
      rw [firstOpening_of_none hopen, List.cons_append, linksFrom_of_no_match hnone]
      exact hstep
    | some ob =>
      obtain ⟨o, body⟩ := ob
      obtain ⟨ho, hsplit⟩ := splitOpening_eq_some_iff.mp hopen
      have hbody : '>' ∉ body := fun hmem => hgt (hsplit ▸ List.mem_append_right o hmem)
      have hmatch := matchAt_append_gt hopen after
      rw [firstOpening_of_some hopen]
      by_cases hnewline : '\n' ∈ body
      · have hvalue := matchAt_valuePattern_of_newline after hbody hnewline
        rw [hvalue, Option.map_none, List.cons_append] at hmatch
        rw [if_pos hnewline, List.cons_append, linksFrom_of_no_match hmatch]
        exact hstep
      · rw [if_neg hnewline, Option.bind_some, upToQuote]
        by_cases hquote : body.any quoteChar = true
        · rw [if_pos hquote]
          obtain ⟨g, q, w, rfl, hg, hq⟩ := exists_quote hquote
          have hdot : ∀ d ∈ g ++ q :: w, pyDot d = true := by
            intro d hd
            rw [pyDot, bne_iff_ne]
            rintro rfl
            exact hnewline hd
          have hgt' : '>' ∉ w := fun hmem =>
            hbody (List.mem_append_right g (List.mem_cons_of_mem q hmem))
          have hvalue := matchAt_valuePattern after hq
            (fun d hd => ⟨hg d hd, hdot d (List.mem_append_left _ hd)⟩)
            fun d (hd : d ∈ w) => ⟨ne_of_mem_of_not_mem hd hgt', hdot d (by simp [hd])⟩
          have htake : (g ++ q :: w).takeWhile (! quoteChar ·) = g := by
            rw [List.takeWhile_append_of_pos (by simpa using hg),
              List.takeWhile_cons_of_neg (by simpa using hq), List.append_nil]
          have happ : g ++ q :: w ++ '>' :: after = g ++ q :: (w ++ '>' :: after) := by simp
          rw [happ, hvalue, Option.map_some] at hmatch
          rw [htake]
          refine linksFrom_of_match ?_ hmatch ?_
          · rw [hsplit]
            simp
          · simp
        · rw [if_neg hquote]
          refine linksFrom_of_no_quote hgt after fun v o' body' hv h d hd => ?_
          have hmem : d ∈ body := (suffix_of_splitOpening ho (hsplit ▸ hv) h).mem hd
          by_contra hd'
          exact hquote (List.any_eq_true.mpr ⟨d, hmem, by simpa using hd'⟩)

/-- A text without a bracket opens no tag. -/
theorem firstOpening_append {x : Str} (hx : '<' ∉ x) (y : Str) :
    firstOpening (x ++ y) = firstOpening y := by
  induction x with
  | nil => rfl
  | cons c x ih =>
    have hc : c ≠ '<' := fun hc => hx (hc ▸ List.mem_cons_self)
    have hnone : splitOpening (c :: (x ++ y)) = none :=
      splitOpening_of_not_prefix fun hpre => hc (List.cons_prefix_cons.mp hpre).1.symm
    rw [List.cons_append, firstOpening_of_none hnone]
    exact ih fun hmem => hx (List.mem_cons_of_mem c hmem)

namespace AnchorTag

variable (tag : AnchorTag)

/-- The tag's own start. -/
def opening : Str := "<a".toList ++ tag.space ++ "href=".toList ++ [tag.quote]

/-- A tag opens with its opening. -/
theorem isOpening_opening : IsOpening tag.opening := by
  refine ⟨tag.space, tag.quote, tag.space_chars, ?_, rfl⟩
  have hquote := tag.quote_char
  rw [quoteChar, Bool.or_eq_true] at hquote
  rw [openChar, Bool.or_eq_true, Bool.or_eq_true]
  exact hquote.imp_left Or.inl

theorem inner_eq : tag.inner = tag.opening ++ (tag.value ++ tag.quote :: tag.rest) := rfl

theorem quote_ne {c : Char} (hc : quoteChar c = false) : tag.quote ≠ c := by
  rintro rfl
  rw [tag.quote_char] at hc
  exact absurd hc (by decide)

/-- A tag ends with its first closing bracket. -/
theorem gt_notMem_inner : '>' ∉ tag.inner := by
  obtain ⟨r, hr, -, hgt⟩ := tag.isOpening_opening.exists_cons
  have hvalue : '>' ∉ tag.value := fun hmem => (tag.value_chars _ hmem).2.2.1 rfl
  rw [inner_eq, hr]
  simp [hgt, hvalue, (tag.quote_ne (c := '>') (by decide)).symm, tag.rest_chars]

/-- What the pattern takes from the tag is its value. -/
theorem isExtracted_iff :
    tag.IsExtracted ↔ (firstOpening tag.inner).bind upToQuote = some tag.value := by
  obtain ⟨r, hr, hlt, -⟩ := tag.isOpening_opening.exists_cons
  have hopen := splitOpening_eq_some_iff.mpr ⟨tag.isOpening_opening, tag.inner_eq⟩
  have hvalue : '\n' ∉ tag.value := fun hmem => (tag.value_chars _ hmem).2.2.2 rfl
  have hnewline : '\n' ∈ tag.value ++ tag.quote :: tag.rest ↔ '\n' ∈ tag.rest := by
    simp [hvalue, (tag.quote_ne (c := '\n') (by decide)).symm]
  have hfirst : firstOpening tag.inner =
      if '\n' ∈ tag.rest then firstOpening tag.rest
      else some (tag.value ++ tag.quote :: tag.rest) := by
    have hlt' : '<' ∉ 'a' :: r ++ (tag.value ++ [tag.quote]) := by
      have hvalue' : '<' ∉ tag.value := fun hmem => (tag.value_chars _ hmem).2.1 rfl
      simp [hlt, hvalue', (tag.quote_ne (c := '<') (by decide)).symm]
    have hinner : tag.inner = '<' :: ('a' :: r ++ (tag.value ++ [tag.quote]) ++ tag.rest) := by
      rw [inner_eq, hr]
      simp
    rw [hinner] at hopen ⊢
    rw [firstOpening_of_some hopen, ← firstOpening_append hlt' tag.rest]
    simp only [hnewline]
  rw [IsExtracted, hfirst]
  split
  · exact Iff.rfl
  · rw [Option.bind_some, upToQuote, if_pos (by simp [tag.quote_char]), Option.some.injEq]
    constructor
    · intro h
      rw [List.takeWhile_append_of_pos (by simpa using h),
        List.takeWhile_cons_of_neg (by simpa using tag.quote_char), List.append_nil]
    · intro h c hc
      rw [← h] at hc
      simpa using List.all_eq_true.mp List.all_takeWhile c hc

end AnchorTag

/-! ## Counting matches -/

/-- The number of tags that end in a text; `isOpen` says whether one is open at its start. -/
def tagEnds : (isOpen : Bool) → Str → ℕ
  | _, [] => 0
  | true, c :: s => if c = '>' then tagEnds false s + 1 else tagEnds true s
  | false, c :: s => tagEnds (decide ("<a".toList <+: c :: s)) s

/-- An open tag counts for no less. -/
theorem tagEnds_false_le (s : Str) : tagEnds false s ≤ tagEnds true s := by
  induction s with
  | nil => exact le_refl _
  | cons c s ih =>
    rw [tagEnds, tagEnds]
    by_cases hopen : "<a".toList <+: c :: s
    · have hc : ¬ c = '>' := by
        rintro rfl
        exact absurd (List.cons_prefix_cons.mp hopen).1 (by decide)
      rw [if_neg hc, decide_eq_true hopen]
    · rw [decide_eq_false hopen]
      split
      · exact Nat.le_succ _
      · exact ih

/-- A longer text has no fewer ends. -/
theorem tagEnds_le_cons (c : Char) (s : Str) : tagEnds false s ≤ tagEnds false (c :: s) := by
  rw [tagEnds]
  cases decide ("<a".toList <+: c :: s)
  · exact le_refl _
  · exact tagEnds_false_le s

theorem tagEnds_le_append (x s : Str) : tagEnds false s ≤ tagEnds false (x ++ s) := by
  induction x with
  | nil => exact le_refl _
  | cons c x ih => exact ih.trans (tagEnds_le_cons c (x ++ s))

/-- An open tag ends at a `>`, or before it. -/
theorem tagEnds_true_append (x s : Str) :
    tagEnds false s + 1 ≤ tagEnds true (x ++ '>' :: s) := by
  induction x with
  | nil => exact le_refl _
  | cons c x ih =>
    rw [List.cons_append, tagEnds]
    split
    · exact Nat.succ_le_succ ((tagEnds_le_cons '>' s).trans (tagEnds_le_append x ('>' :: s)))
    · exact ih

/-- An open tag ends at its closing bracket. -/
theorem tagEnds_true_append_of_notMem {x : Str} (hx : '>' ∉ x) (s : Str) :
    tagEnds true (x ++ '>' :: s) = tagEnds false s + 1 := by
  induction x with
  | nil => rfl
  | cons c x ih =>
    have hc : ¬ c = '>' := fun hc => hx (hc ▸ List.mem_cons_self)
    rw [List.cons_append, tagEnds, if_neg hc]
    exact ih fun hmem => hx (List.mem_cons_of_mem c hmem)

/-- A match has the end of a tag in it. -/
theorem exists_text_eq_of_matchAt {s : Str} {m : Regex.Match}
    (h : Regex.matchAt linkPattern false s = some m) :
    ∃ y, m.text = '<' :: (y ++ ['>']) ∧ ∀ t, "<a".toList <+: '<' :: (y ++ t) := by
  cases hopen : splitOpening s with
  | none =>
    rw [matchAt_of_splitOpening_none hopen] at h
    exact absurd h (Option.some_ne_none m).symm
  | some ob =>
    obtain ⟨o, body⟩ := ob
    rw [matchAt_of_splitOpening hopen] at h
    obtain ⟨m', hm', rfl⟩ := Option.map_eq_some_iff.mp h
    obtain ⟨g, c, w, rfl, -⟩ := exists_of_mem_run_valuePattern (List.mem_of_mem_head? hm')
    obtain ⟨r, rfl, -⟩ := (splitOpening_eq_some_iff.mp hopen).1.exists_cons
    exact ⟨'a' :: r ++ (g ++ c :: w), by simp, fun t => ⟨r ++ (g ++ c :: w) ++ t, by simp⟩⟩

/-- There are no more links than tags that end. -/
theorem length_linksFrom_le (s : Str) : (linksFrom s).length ≤ tagEnds false s := by
  rw [linksFrom, List.length_map]
  refine Regex.scan_induction (P := fun _ s ps => (ps.filterMap fun
    | .char _ => none
    | .found m => some m).length ≤ tagEnds false s) ?_ ?_ ?_ false s
  · exact fun _ => le_refl 0
  · intro atStart m t ps hm _ ih
    rw [Regex.matchAt, Regex.run_of_floating (by decide), ← Regex.matchAt] at hm
    obtain ⟨y, hy, hopen⟩ := exists_text_eq_of_matchAt hm
    have hshape : m.text ++ t = '<' :: (y ++ '>' :: t) := by
      rw [hy]
      simp
    rw [hshape, tagEnds, decide_eq_true (hopen ('>' :: t))]
    exact (Nat.succ_le_succ ih).trans (tagEnds_true_append y t)
  · intro atStart c t ps _ ih
    exact ih.trans (tagEnds_le_cons c t)

/-- No tag ends between the tags. -/
theorem tagEnds_gap_append (gap : Gap) {t : Str} (ht : StartsTag t) :
    tagEnds false (gap.1 ++ t) = tagEnds false t := by
  have hpass : ∀ v, v <:+ gap.1 → tagEnds false (v ++ t) = tagEnds false t := by
    intro v
    induction v with
    | nil => exact fun _ => rfl
    | cons c v ih =>
      intro hv
      have hnot := gap.not_prefix ht hv (List.cons_ne_nil c v)
      rw [List.cons_append] at hnot ⊢
      rw [tagEnds, decide_eq_false hnot]
      exact ih ((List.suffix_cons c v).trans hv)
  exact hpass gap.1 (List.suffix_refl _)

/-! ## Pages -/

/-- The tags of a page, each with the gap behind it. -/
def tagsText (tags : List (AnchorTag × Gap)) : Str :=
  tags.flatMap fun tag => tag.1.text ++ tag.2.1

theorem tagsText_cons (tag : AnchorTag) (gap : Gap) (tags : List (AnchorTag × Gap)) :
    tagsText ((tag, gap) :: tags) = tag.inner ++ '>' :: (gap.1 ++ tagsText tags) := by
  simp [tagsText, AnchorTag.text]

theorem startsTag_tagsText (tags : List (AnchorTag × Gap)) : StartsTag (tagsText tags) := by
  cases tags with
  | nil => exact fun c hc => absurd hc (by simp [tagsText])
  | cons tag tags =>
    obtain ⟨r, hr, -⟩ := tag.1.isOpening_opening.exists_cons
    intro c hc
    rw [tagsText_cons, AnchorTag.inner_eq, hr] at hc
    exact (Option.some.inj hc).symm

/-- Every tag ends once. -/
theorem tagEnds_tagsText (tags : List (AnchorTag × Gap)) :
    tagEnds false (tagsText tags) = tags.length := by
  induction tags with
  | nil => rfl
  | cons tag tags ih =>
    obtain ⟨r, hr, -⟩ := tag.1.isOpening_opening.exists_cons
    have hgt := tag.1.gt_notMem_inner
    rw [tagsText_cons, List.length_cons, ← ih, ← tagEnds_gap_append tag.2 (startsTag_tagsText tags)]
    rw [AnchorTag.inner_eq, hr] at hgt ⊢
    rw [List.cons_append, List.cons_append, tagEnds, decide_eq_true ⟨_, rfl⟩]
    exact tagEnds_true_append_of_notMem (fun hmem => hgt (List.mem_cons_of_mem _ hmem)) _

/-- The pattern finds exactly the values of the tags, in order, when it finds the value of every
tag. -/
theorem findLinks_pageText_iff (before : Gap) (tags : List (AnchorTag × Gap)) :
    findLinks (pageText before tags) = tags.map (·.1.value) ↔ ∀ tag ∈ tags, tag.1.IsExtracted := by
  have hbefore : findLinks (pageText before tags) = linksFrom (tagsText tags) := by
    rw [findLinks_eq]
    exact linksFrom_gap_append before (startsTag_tagsText tags)
  rw [hbefore]
  clear hbefore
  induction tags with
  | nil => exact iff_of_true rfl fun tag hmem => absurd hmem List.not_mem_nil
  | cons tag tags ih =>
    obtain ⟨tag, gap⟩ := tag
    have hlinks := linksFrom_append_gt tag.gt_notMem_inner (gap.1 ++ tagsText tags)
    rw [linksFrom_gap_append gap (startsTag_tagsText tags), ← tagsText_cons] at hlinks
    rw [List.forall_mem_cons, List.map_cons, tag.isExtracted_iff]
    cases hfound : (firstOpening tag.inner).bind upToQuote with
    | some g =>
      rw [hfound] at hlinks
      rw [hlinks, List.cons.injEq, Option.some.injEq]
      exact and_congr_right fun _ => ih
    | none =>
      rw [hfound] at hlinks
      refine iff_of_false (fun h => ?_) fun h => absurd h.1 (Option.some_ne_none _).symm
      rcases hlinks with ⟨x, xs, hx, hgt⟩ | hrest
      · -- a link that reaches past the tag is no value
        rw [hx] at h
        exact (tag.value_chars _ ((List.cons.inj h).1 ▸ hgt)).2.2.1 rfl
      · -- one link is missing
        have hlen := length_linksFrom_le (tagsText tags)
        rw [hrest] at h
        rw [h, tagEnds_tagsText, List.length_cons, List.length_map] at hlen
        omega

/-- A tag whose value has an apostrophe. -/
def otherQuote : AnchorTag where
  space := [' ']
  quote := '"'
  value := "/o'hare".toList
  rest := []
  space_chars := Text.forall_mem_of_all (by decide)
  quote_char := by decide
  value_chars := Text.forall_mem_of_all (by decide)
  rest_chars := List.not_mem_nil

/-- The value is cut short at the apostrophe. -/
theorem findLinks_otherQuote :
    otherQuote.text = "<a href=\"/o'hare\">".toList ∧
      findLinks (pageText ⟨[], by decide⟩ [(otherQuote, ⟨[], by decide⟩)]) = ["/o".toList] ∧
      "/o".toList ≠ otherQuote.value := by
  decide +kernel

end Crawler
