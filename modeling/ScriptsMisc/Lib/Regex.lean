import Mathlib.Data.List.Infix
import ScriptsMisc.Lib.Spacing

/-! # Backtracking patterns

The fragment of Perl-style patterns the scripts use: character classes, greedy and reluctant
repetition of a class, sequence, alternation, capture groups and the start-of-text anchor. A
pattern is run to the list of all its matches at a position, in the order in which a
backtracking matcher tries them, so the matcher's answer is the head of that list.
-/

namespace Regex

/-- Pattern syntax. -/
inductive Pat where
  | empty
  | cls (p : Char → Bool)
  | star (greedy : Bool) (p : Char → Bool)
  | seq (a b : Pat)
  | alt (a b : Pat)
  | group (a : Pat)
  | start

/-- A match: the text it covers and what its groups captured. -/
structure Match where
  text : Str
  groups : List Str
deriving DecidableEq, Repr

/-- One character. -/
def Pat.chr (c : Char) : Pat := .cls (· == c)

/-- A fixed text. -/
def Pat.lit : Str → Pat
  | [] => .empty
  | c :: s => .seq (.chr c) (Pat.lit s)

/-- One or more characters of a class, as many as possible first. -/
def Pat.plus (p : Char → Bool) : Pat := .seq (.cls p) (.star true p)

/-- The prefixes of `s` inside the class, shortest first. -/
def classPrefixes (p : Char → Bool) : Str → List Str
  | [] => [[]]
  | c :: s => [] :: if p c then (classPrefixes p s).map (c :: ·) else []

/-- All matches at the head of `s`, best first. `atStart` says whether `s` is the whole text. -/
def Pat.run : Pat → Bool → Str → List Match
  | .empty, _, _ => [⟨[], []⟩]
  | .cls _, _, [] => []
  | .cls p, _, c :: _ => if p c then [⟨[c], []⟩] else []
  | .star greedy p, _, s =>
    let found := (classPrefixes p s).map (⟨·, []⟩)
    -- greedy: as many as possible first
    if greedy then found.reverse else found
  | .seq a b, atStart, s =>
    (a.run atStart s).flatMap fun m =>
      (b.run (atStart && m.text.isEmpty) (s.drop m.text.length)).map fun m' =>
        ⟨m.text ++ m'.text, m.groups ++ m'.groups⟩
  | .alt a b, atStart, s => a.run atStart s ++ b.run atStart s
  | .group a, atStart, s => (a.run atStart s).map fun m => ⟨m.text, m.text :: m.groups⟩
  | .start, atStart, _ => if atStart then [⟨[], []⟩] else []

/-- The match a backtracking matcher reports at the head of `s`. -/
def matchAt (pat : Pat) (atStart : Bool) (s : Str) : Option Match := (pat.run atStart s).head?

/-- A scanned text is made of characters that are passed over and of matches. -/
inductive Piece where
  | char (c : Char)
  | found (m : Match)

/-- Scan from left to right, skipping the characters a match has covered. A match of the empty
text is passed over. -/
def scan (pat : Pat) : (skip : ℕ) → (atStart : Bool) → Str → List Piece
  | _, _, [] => []
  | skip + 1, _, _ :: s => scan pat skip false s
  | 0, atStart, c :: s =>
    match matchAt pat atStart (c :: s) with
    | some ⟨d :: t, gs⟩ => .found ⟨d :: t, gs⟩ :: scan pat t.length false s
    | _ => .char c :: scan pat 0 false s

/-- The pieces of a whole text. -/
def pieces (pat : Pat) (s : Str) : List Piece := scan pat 0 true s

/-- Put the text back together, with `f` in the place of the matches. -/
def render (f : Match → Str) : List Piece → Str
  | [] => []
  | .char c :: ps => c :: render f ps
  | .found m :: ps => f m ++ render f ps

/-- Replace every match. -/
def replaceAll (pat : Pat) (f : Match → Str) (s : Str) : Str := render f (pieces pat s)

/-- Every match, in order. -/
def findAll (pat : Pat) (s : Str) : List Match :=
  (pieces pat s).filterMap fun
    | .char _ => none
    | .found m => some m

/-- Put the text back together, with `f` in the place of the first match. -/
def renderFirst (f : Match → Str) : List Piece → Str
  | [] => []
  | .char c :: ps => c :: renderFirst f ps
  | .found m :: ps => f m ++ render Match.text ps

/-- Replace the first match only. -/
def replaceFirst (pat : Pat) (f : Match → Str) (s : Str) : Str := renderFirst f (pieces pat s)

/-! ## One step of a scan -/

/-- Characters that were matched are skipped. -/
theorem scan_succ (pat : Pat) (skip : ℕ) (atStart : Bool) (s : Str) :
    scan pat (skip + 1) atStart s = scan pat 0 false (s.drop (skip + 1)) := by
  induction skip generalizing atStart s with
  | zero => cases s <;> rfl
  | succ skip ih =>
    cases s with
    | nil => rfl
    | cons c s => exact ih false s

/-- A text of at least one letter scanned past its first letters. -/
theorem scan_false (pat : Pat) (skip : ℕ) (s : Str) :
    scan pat skip false s = scan pat 0 false (s.drop skip) := by
  cases skip with
  | zero => rfl
  | succ skip => exact scan_succ pat skip false s

/-- A match that is not empty is found, and the scan goes on behind it. -/
theorem scan_of_match {pat : Pat} {atStart : Bool} {c : Char} {s : Str} {m : Match}
    (hm : matchAt pat atStart (c :: s) = some m) (hne : m.text ≠ []) :
    scan pat 0 atStart (c :: s) =
      .found m :: scan pat 0 false ((c :: s).drop m.text.length) := by
  obtain ⟨text, groups⟩ := m
  cases text with
  | nil => exact absurd rfl hne
  | cons d t => simp only [scan, hm, List.length_cons, List.drop_succ_cons, scan_false pat t.length]

/-- A character is passed over where the matcher finds nothing, or the empty text. -/
theorem scan_of_pass {pat : Pat} {atStart : Bool} {c : Char} {s : Str}
    (hpass : ∀ m, matchAt pat atStart (c :: s) = some m → m.text = []) :
    scan pat 0 atStart (c :: s) = .char c :: scan pat 0 false s := by
  rw [scan]
  split
  · next d t gs hsome => exact absurd (hpass _ hsome) (List.cons_ne_nil d t)
  · rfl

/-- Where nothing matches a character is kept. -/
theorem scan_of_no_match {pat : Pat} {atStart : Bool} {c : Char} {s : Str}
    (hm : matchAt pat atStart (c :: s) = none) :
    scan pat 0 atStart (c :: s) = .char c :: scan pat 0 false s :=
  scan_of_pass fun m h => absurd (hm.symm.trans h) (Option.some_ne_none m).symm

/-! ## Character classes and fixed texts -/

/-- A class matches one of its characters. -/
theorem matchAt_cls (p : Char → Bool) (atStart : Bool) (c : Char) (s : Str) :
    matchAt (.cls p) atStart (c :: s) = if p c then some ⟨[c], []⟩ else none := by
  by_cases h : p c <;> simp [matchAt, Pat.run, h]

/-- Each character of a class is replaced by itself. -/
theorem render_scan_cls (p : Char → Bool) (f : Match → Str) (atStart : Bool) (s : Str) :
    render f (scan (.cls p) 0 atStart s) = s.flatMap fun c => if p c then f ⟨[c], []⟩ else [c] := by
  induction s generalizing atStart with
  | nil => rfl
  | cons c s ih =>
    have hm := matchAt_cls p atStart c s
    by_cases hc : p c
    · rw [if_pos hc] at hm
      rw [scan_of_match hm (List.cons_ne_nil _ _), render, List.flatMap_cons, if_pos hc]
      exact congrArg _ (ih false)
    · rw [if_neg hc] at hm
      rw [scan_of_no_match hm, render, List.flatMap_cons, if_neg hc, ih false,
        List.singleton_append]

theorem run_cls (p : Char → Bool) (atStart : Bool) (s : Str) :
    (Pat.cls p).run atStart s = (s.head?.filter p).toList.map fun d => ⟨[d], []⟩ := by
  cases s with
  | nil => rfl
  | cons d s => by_cases hd : p d = true <;> simp [Pat.run, Option.filter, hd]

/-- Replacing the characters of a class. -/
theorem replaceAll_cls (p : Char → Bool) (f : Match → Str) (s : Str) :
    replaceAll (.cls p) f s = s.flatMap fun c => if p c then f ⟨[c], []⟩ else [c] :=
  render_scan_cls p f true s

theorem run_lit (w : Str) (atStart : Bool) (s : Str) :
    (Pat.lit w).run atStart s = if w.isPrefixOf s then [⟨w, []⟩] else [] := by
  induction w generalizing atStart s with
  | nil => rfl
  | cons c w ih =>
    cases s with
    | nil => rfl
    | cons d s =>
      simp only [Pat.lit, Pat.chr, Pat.run, List.isPrefixOf_cons_cons, beq_iff_eq]
      by_cases hcd : d = c
      · subst hcd
        simp only [if_true, List.flatMap_cons, List.flatMap_nil, List.append_nil, ih,
          List.length_singleton, List.drop_succ_cons, List.drop_zero, beq_self_eq_true,
          Bool.true_and]
        split <;> rfl
      · have hdc : (c == d) = false := by simpa using fun h : c = d => hcd h.symm
        simp [hcd, hdc]

/-- A word matches where it is a prefix. -/
theorem matchAt_lit (w : Str) (atStart : Bool) (s : Str) :
    matchAt (Pat.lit w) atStart s = if w.isPrefixOf s then some ⟨w, []⟩ else none := by
  rw [matchAt, run_lit]
  split <;> rfl

/-! ## Matches as parts of the text -/

/-- The candidates are prefixes. -/
theorem prefix_of_mem_classPrefixes {p : Char → Bool} {s t : Str} (h : t ∈ classPrefixes p s) :
    t <+: s := by
  induction s generalizing t with
  | nil =>
    rw [classPrefixes, List.mem_singleton] at h
    exact h ▸ List.prefix_refl []
  | cons c s ih =>
    rcases List.mem_cons.mp h with rfl | h
    · exact List.nil_prefix
    · split at h
      · obtain ⟨u, hu, rfl⟩ := List.mem_map.mp h
        exact List.cons_prefix_cons.mpr ⟨rfl, ih hu⟩
      · exact absurd h List.not_mem_nil

/-- A match covers the text from where it starts. -/
theorem prefix_of_mem_run {pat : Pat} {atStart : Bool} {s : Str} {m : Match}
    (h : m ∈ pat.run atStart s) : m.text <+: s := by
  induction pat generalizing atStart s m with
  | empty =>
    rw [Pat.run, List.mem_singleton] at h
    exact h ▸ List.nil_prefix
  | cls p =>
    cases s with
    | nil => exact absurd h List.not_mem_nil
    | cons c s =>
      rw [Pat.run] at h
      split at h
      · rw [List.mem_singleton] at h
        exact h ▸ List.cons_prefix_cons.mpr ⟨rfl, List.nil_prefix⟩
      · exact absurd h List.not_mem_nil
  | star greedy p =>
    have hmem : m ∈ (classPrefixes p s).map (⟨·, []⟩) := by
      rw [Pat.run] at h
      split at h
      · exact List.mem_reverse.mp h
      · exact h
    obtain ⟨t, ht, rfl⟩ := List.mem_map.mp hmem
    exact prefix_of_mem_classPrefixes ht
  | seq a b iha ihb =>
    obtain ⟨m₁, hm₁, hmap⟩ := List.mem_flatMap.mp h
    obtain ⟨m₂, hm₂, rfl⟩ := List.mem_map.mp hmap
    obtain ⟨u, hu⟩ := iha hm₁
    obtain ⟨v, hv⟩ := ihb hm₂
    rw [← hu, List.drop_left] at hv
    exact ⟨v, by rw [List.append_assoc, hv, hu]⟩
  | alt a b iha ihb =>
    rcases List.mem_append.mp h with h | h
    · exact iha h
    · exact ihb h
  | group a iha =>
    obtain ⟨m₁, hm₁, rfl⟩ := List.mem_map.mp h
    exact iha (m := m₁) hm₁
  | start =>
    rw [Pat.run] at h
    split at h
    · rw [List.mem_singleton] at h
      exact h ▸ List.nil_prefix
    · exact absurd h List.not_mem_nil

/-- A scanning induction: the text is empty, starts with a match that is not, or starts with a
character that is passed over. -/
theorem scan_induction {pat : Pat} {P : Bool → Str → List Piece → Prop}
    (hnil : ∀ atStart, P atStart [] [])
    (hfound : ∀ atStart m s ps, matchAt pat atStart (m.text ++ s) = some m → m.text ≠ [] →
      P false s ps → P atStart (m.text ++ s) (.found m :: ps))
    (hchar : ∀ atStart c s ps, (∀ m, matchAt pat atStart (c :: s) = some m → m.text = []) →
      P false s ps → P atStart (c :: s) (.char c :: ps))
    (atStart : Bool) (s : Str) : P atStart s (scan pat 0 atStart s) := by
  induction hn : s.length using Nat.strong_induction_on generalizing atStart s with
  | _ n ih =>
    cases s with
    | nil => exact hnil atStart
    | cons c s =>
      rw [List.length_cons] at hn
      by_cases hpass : ∀ m, matchAt pat atStart (c :: s) = some m → m.text = []
      · rw [scan_of_pass hpass]
        exact hchar atStart c s _ hpass (ih s.length (by omega) false s rfl)
      · simp only [not_forall] at hpass
        obtain ⟨m, hm, hne⟩ := hpass
        obtain ⟨t, ht⟩ := prefix_of_mem_run (List.mem_of_mem_head? hm)
        have hlen := congrArg List.length ht
        have hpos := List.length_pos_iff.mpr hne
        rw [List.length_append, List.length_cons] at hlen
        rw [scan_of_match hm hne, ← ht, List.drop_left]
        exact hfound atStart m t _ (ht ▸ hm) hne (ih t.length (by omega) false t rfl)

/-- The pieces of a text put together are the text. -/
theorem render_text (pat : Pat) (atStart : Bool) (s : Str) :
    render Match.text (scan pat 0 atStart s) = s := by
  apply scan_induction (P := fun _ s ps => render Match.text ps = s)
  · exact fun _ => rfl
  · intro _ m s ps _ _ ih
    rw [render, ih]
  · intro _ c s ps _ ih
    rw [render, ih]

/-! ## Runs of a class -/

/-- `[p]*` in front of a pattern that starts with no `p` covers the whole run of `p`. -/
theorem run_star_seq {p : Char → Bool} {b : Pat}
    (hb : ∀ atStart c s, p c = true → b.run atStart (c :: s) = []) (atStart : Bool) (s : Str) :
    (Pat.seq (.star true p) b).run atStart s =
      (b.run (atStart && (s.takeWhile p).isEmpty) (s.dropWhile p)).map fun m =>
        ⟨s.takeWhile p ++ m.text, m.groups⟩ := by
  have hrun : ∀ (atStart : Bool) (s : Str), (Pat.seq (.star true p) b).run atStart s =
      (classPrefixes p s).reverse.flatMap fun t =>
        (b.run (atStart && t.isEmpty) (s.drop t.length)).map fun m => ⟨t ++ m.text, m.groups⟩ := by
    intro atStart s
    simp only [Pat.run, if_true, ← List.map_reverse, List.flatMap_map, List.nil_append]
  induction s generalizing atStart with
  | nil => simp [hrun, classPrefixes]
  | cons c s ih =>
    rw [hrun]
    by_cases hc : p c = true
    · have ih' := congrArg (List.map fun m : Match => (⟨c :: m.text, m.groups⟩ : Match)) (ih false)
      rw [hrun, List.map_flatMap, List.map_map] at ih'
      simp only [List.map_map, Function.comp_def, Bool.false_and] at ih'
      rw [classPrefixes, if_pos hc, List.reverse_cons, List.flatMap_append, ← List.map_reverse,
        List.flatMap_map, List.takeWhile_cons_of_pos hc, List.dropWhile_cons_of_pos hc]
      simp only [List.length_cons, List.drop_succ_cons, List.isEmpty_cons, Bool.and_false,
        List.cons_append, ih', List.flatMap_cons, List.length_nil, List.drop_zero,
        hb _ c s hc, List.map_nil, List.flatMap_nil, List.append_nil]
    · rw [classPrefixes, if_neg hc, List.takeWhile_cons_of_neg hc, List.dropWhile_cons_of_neg hc]
      simp

/-- A greedy run before a class that it does not meet is never shortened. -/
theorem run_star_cls {p q : Char → Bool} (hdisjoint : ∀ c, p c = true → q c = false)
    (atStart : Bool) (s : Str) :
    (Pat.seq (.star true p) (.cls q)).run atStart s =
      ((s.dropWhile p).head?.filter q).toList.map fun d => ⟨s.takeWhile p ++ [d], []⟩ := by
  have hb : ∀ atStart c s, p c = true → (Pat.cls q).run atStart (c :: s) = [] := by
    intro atStart c s hc
    rw [Pat.run, if_neg (Bool.eq_false_iff.mp (hdisjoint c hc))]
  rw [run_star_seq hb, run_cls, List.map_map]
  rfl

/-- `[p]+` in front of a pattern: one `p`, then `[p]*`. -/
theorem run_plus_seq {p : Char → Bool} {c : Char} (hc : p c = true) (b : Pat) (atStart : Bool)
    (s : Str) :
    (Pat.seq (.plus p) b).run atStart (c :: s) =
      ((Pat.seq (.star true p) b).run false s).map fun m => ⟨c :: m.text, m.groups⟩ := by
  simp only [Pat.plus, Pat.run, hc, if_true, List.flatMap_cons, List.flatMap_nil, List.append_nil,
    List.length_cons, List.length_nil, List.drop_succ_cons, List.drop_zero, ← List.map_reverse,
    List.map_map, List.flatMap_map, List.map_flatMap, Function.comp_def, List.cons_append,
    List.nil_append, List.isEmpty_cons, Bool.and_false, Bool.false_and]

/-- `[p]+` followed by `[q]`, where no character is in both classes, matches a run of `p` that a `q`
follows. -/
theorem matchAt_plus_cls {p q : Char → Bool} (hdisjoint : ∀ c, p c = true → q c = false)
    (atStart : Bool) (c : Char) (s : Str) :
    matchAt (.seq (.plus p) (.cls q)) atStart (c :: s) =
      if p c then
        ((s.dropWhile p).head?.filter q).map fun d => ⟨c :: s.takeWhile p ++ [d], []⟩
      else none := by
  by_cases hc : p c = true
  · rw [matchAt, run_plus_seq hc, run_star_cls hdisjoint, if_pos hc]
    cases (s.dropWhile p).head?.filter q <;> rfl
  · rw [if_neg hc]
    simp [matchAt, Pat.run, Pat.plus, hc]

/-- The longest prefix inside the class comes first. -/
theorem head?_reverse_classPrefixes (p : Char → Bool) (s : Str) :
    (classPrefixes p s).reverse.head? = some (s.takeWhile p) := by
  induction s with
  | nil => rfl
  | cons c s ih =>
    by_cases hc : p c = true
    · rw [classPrefixes, if_pos hc, List.takeWhile_cons_of_pos hc, List.reverse_cons,
        ← List.map_reverse, List.head?_append, List.head?_map, ih]
      rfl
    · rw [classPrefixes, if_neg hc, List.takeWhile_cons_of_neg hc]
      rfl

/-- `[p]+` matches a run of `p` as a whole. -/
theorem matchAt_plus (p : Char → Bool) (atStart : Bool) (c : Char) (s : Str) :
    matchAt (.plus p) atStart (c :: s) =
      if p c then some ⟨c :: s.takeWhile p, []⟩ else none := by
  by_cases hc : p c = true
  · have hrun : (Pat.plus p).run atStart (c :: s) =
        (classPrefixes p s).reverse.map fun t => ⟨c :: t, []⟩ := by
      simp only [Pat.plus, Pat.run, hc, if_true, List.flatMap_cons, List.flatMap_nil,
        List.append_nil, List.length_singleton, List.drop_succ_cons, List.drop_zero,
        ← List.map_reverse, List.map_map, Function.comp_def, List.singleton_append]
    rw [matchAt, hrun, List.head?_map, head?_reverse_classPrefixes, if_pos hc]
    rfl
  · rw [if_neg hc]
    simp [matchAt, Pat.run, Pat.plus, hc]

/-- A match of `[p]+` is made of the class. -/
theorem forall_mem_of_matchAt_plus {p : Char → Bool} {atStart : Bool} {s : Str} {m : Match}
    (h : matchAt (.plus p) atStart s = some m) : ∀ c ∈ m.text, p c = true := by
  cases s with
  | nil => exact absurd h (Option.some_ne_none m).symm
  | cons c s =>
    rw [matchAt_plus] at h
    split at h
    · next hc =>
      rw [← Option.some.inj h]
      exact List.forall_mem_cons.mpr ⟨hc, List.all_eq_true.mp List.all_takeWhile⟩
    · exact absurd h (Option.some_ne_none m).symm

/-- A group matches as its pattern, and is remembered. -/
theorem matchAt_group (pat : Pat) (atStart : Bool) (s : Str) :
    matchAt (.group pat) atStart s =
      (matchAt pat atStart s).map fun m => ⟨m.text, m.text :: m.groups⟩ := by
  rw [matchAt, Pat.run, List.head?_map, matchAt]

/-! ## The first match -/

/-- Replacing the first character of a class. -/
theorem replaceFirst_cls {p : Char → Bool} (f : Match → Str) {s : Str} {c : Char} {t : Str}
    (hs : ∀ d ∈ s, p d = false) (hc : p c = true) :
    replaceFirst (.cls p) f (s ++ c :: t) = s ++ f ⟨[c], []⟩ ++ t := by
  have hscan : ∀ atStart : Bool, renderFirst f (scan (.cls p) 0 atStart (s ++ c :: t)) =
      s ++ f ⟨[c], []⟩ ++ t := by
    induction s with
    | nil =>
      intro atStart
      have hm := matchAt_cls p atStart c t
      rw [if_pos hc] at hm
      rw [List.nil_append, scan_of_match hm (List.cons_ne_nil c []), renderFirst, render_text]
      rfl
    | cons d s ih =>
      intro atStart
      have hm := matchAt_cls p atStart d (s ++ c :: t)
      rw [hs d List.mem_cons_self, if_neg Bool.false_ne_true] at hm
      rw [List.cons_append, scan_of_no_match hm, renderFirst,
        ih (fun e he => hs e (List.mem_cons_of_mem d he)) false]
      rfl
  exact hscan true

/-! ## Matches at the start of the text -/

/-- Patterns with the same matches within a text scan it in the same way. -/
theorem scan_congr {pat pat' : Pat} (h : ∀ s, pat.run false s = pat'.run false s) (skip : ℕ)
    (s : Str) : scan pat skip false s = scan pat' skip false s := by
  induction s generalizing skip with
  | nil => cases skip <;> rfl
  | cons c s ih =>
    cases skip with
    | succ skip => exact ih skip
    | zero => simp only [scan, matchAt, h, ih]

/-- Past the start of the text `^` matches nothing. -/
theorem render_scan_start (pat : Pat) (f : Match → Str) (s : Str) :
    render f (scan (.seq .start pat) 0 false s) = s := by
  induction s with
  | nil => rfl
  | cons c s ih => rw [scan_of_no_match rfl, render, ih]

/-- Replacing a character of a class at the start of the text. -/
theorem replaceAll_start_cls (p : Char → Bool) (f : Match → Str) (c : Char) (s : Str) :
    replaceAll (.seq .start (.cls p)) f (c :: s) =
      if p c then f ⟨[c], []⟩ ++ s else c :: s := by
  by_cases hc : p c = true
  · have hm : matchAt (.seq .start (.cls p)) true (c :: s) = some ⟨[c], []⟩ := by
      simp [matchAt, Pat.run, hc]
    rw [replaceAll, pieces, scan_of_match hm (List.cons_ne_nil c []), render, render_scan_start,
      if_pos hc]
    rfl
  · have hm : matchAt (.seq .start (.cls p)) true (c :: s) = none := by
      simp [matchAt, Pat.run, hc]
    rw [replaceAll, pieces, scan_of_no_match hm, render, render_scan_start, if_neg hc]

/-- At the start of the text the anchor makes no difference. -/
theorem matchAt_start (pat : Pat) (s : Str) :
    matchAt (.seq .start pat) true s = matchAt pat true s := by
  simp [matchAt, Pat.run]

/-- Removing `^[p]+`. -/
theorem replaceAll_start_plus (p : Char → Bool) (s : Str) :
    replaceAll (.seq .start (.plus p)) (fun _ => []) s = s.dropWhile p := by
  cases s with
  | nil => rfl
  | cons c s =>
    have hm := matchAt_plus p true c s
    rw [← matchAt_start] at hm
    by_cases hc : p c = true
    · rw [if_pos hc] at hm
      rw [replaceAll, pieces, scan_of_match hm (List.cons_ne_nil _ _), render, List.length_cons,
        List.drop_succ_cons, Spacing.drop_length_takeWhile, render_scan_start,
        List.dropWhile_cons_of_pos hc]
      rfl
    · rw [if_neg hc] at hm
      rw [replaceAll, pieces, scan_of_no_match hm, render, render_scan_start,
        List.dropWhile_cons_of_neg hc]

/-- `[p]*` followed by `[q]`, where no character is in both classes. -/
theorem matchAt_star_cls {p q : Char → Bool} (hdisjoint : ∀ c, p c = true → q c = false)
    (atStart : Bool) {s t : Str} {c : Char} (hs : ∀ d ∈ s, p d = true) (hc : q c = true) :
    matchAt (.seq (.star true p) (.cls q)) atStart (s ++ c :: t) = some ⟨s ++ [c], []⟩ := by
  have hpc : ¬ p c = true := fun hpc => by rw [hdisjoint c hpc] at hc; exact absurd hc (by decide)
  have htake : (s ++ c :: t).takeWhile p = s := by
    rw [List.takeWhile_append_of_pos hs, List.takeWhile_cons_of_neg hpc, List.append_nil]
  have hdrop : (s ++ c :: t).dropWhile p = c :: t := by
    rw [List.dropWhile_append_of_pos hs, List.dropWhile_cons_of_neg hpc]
  rw [matchAt, run_star_cls hdisjoint, hdrop, htake]
  simp [Option.filter, hc]

/-- Removing `^[p]*[q]|[r]`: the text up to the first `q`, and every `r` after it. -/
theorem replaceAll_start_star_cls {p q r : Char → Bool}
    (hdisjoint : ∀ c, p c = true → q c = false) {s t : Str} {c : Char}
    (hs : ∀ d ∈ s, p d = true) (hc : q c = true) :
    replaceAll (.alt (.seq .start (.seq (.star true p) (.cls q))) (.cls r)) (fun _ => [])
      (s ++ c :: t) = t.filter (! r ·) := by
  let pat : Pat := .alt (.seq .start (.seq (.star true p) (.cls q))) (.cls r)
  have hm : matchAt pat true (s ++ c :: t) = some ⟨s ++ [c], []⟩ := by
    have hfirst := matchAt_star_cls hdisjoint true (t := t) hs hc
    rw [← matchAt_start] at hfirst
    rw [matchAt] at hfirst ⊢
    rw [Pat.run, List.head?_append, hfirst]
    rfl
  have hscan : pieces pat (s ++ c :: t) = .found ⟨s ++ [c], []⟩ :: scan pat 0 false t := by
    have hdrop : (s ++ c :: t).drop (s ++ [c]).length = t := by
      have happend : s ++ c :: t = s ++ [c] ++ t := by simp
      rw [happend, List.drop_left]
    obtain ⟨d, u, hu⟩ := List.exists_cons_of_ne_nil (List.append_ne_nil_of_right_ne_nil s
      (List.cons_ne_nil c t))
    rw [hu] at hm hdrop ⊢
    rw [pieces, scan_of_match hm (List.append_ne_nil_of_right_ne_nil s (List.cons_ne_nil c [])),
      hdrop]
  have hrest : scan pat 0 false t = scan (.cls r) 0 false t :=
    scan_congr (fun s => by simp [pat, Pat.run]) 0 t
  have hfilter : ∀ t : Str, (t.flatMap fun d => if r d then [] else [d]) = t.filter (! r ·) := by
    intro t
    induction t with
    | nil => rfl
    | cons d t ih => by_cases hd : r d = true <;> simp [hd, ih]
  show render _ (pieces pat (s ++ c :: t)) = _
  rw [hscan, render, hrest, render_scan_cls, hfilter]
  rfl

/-! ## Patterns that do not ask where the text starts -/

/-- No `^` stands in the pattern. -/
def Pat.floating : Pat → Bool
  | .empty | .cls _ | .star _ _ => true
  | .seq a b | .alt a b => a.floating && b.floating
  | .group a => a.floating
  | .start => false

/-- A pattern without anchors does not see where it starts. -/
theorem run_of_floating {pat : Pat} (h : pat.floating = true) (atStart : Bool) (s : Str) :
    pat.run atStart s = pat.run false s := by
  induction pat generalizing atStart s with
  | empty | star _ _ => rfl
  | cls p => cases s <;> rfl
  | seq a b iha ihb =>
    obtain ⟨ha, hb⟩ := Bool.and_eq_true_iff.mp h
    simp only [Pat.run, iha ha atStart s]
    refine List.flatMap_congr fun m _ => ?_
    rw [ihb hb, ihb hb (false && _)]
  | alt a b iha ihb =>
    obtain ⟨ha, hb⟩ := Bool.and_eq_true_iff.mp h
    rw [Pat.run, Pat.run, iha ha, ihb hb]
  | group a iha => rw [Pat.run, Pat.run, iha h]
  | start => exact absurd h Bool.false_ne_true

theorem scan_of_floating {pat : Pat} (h : pat.floating = true) (atStart : Bool) (s : Str) :
    scan pat 0 atStart s = scan pat 0 false s := by
  cases s with
  | nil => rfl
  | cons c s => rw [scan, scan, matchAt, matchAt, run_of_floating h]

/-! ## Greedy and reluctant repetition in front of a pattern -/

/-- The candidates are the prefixes in the class. -/
theorem mem_classPrefixes {p : Char → Bool} {s t : Str} :
    t ∈ classPrefixes p s ↔ t <+: s ∧ ∀ c ∈ t, p c = true := by
  refine ⟨fun h => ⟨prefix_of_mem_classPrefixes h, ?_⟩, fun h => ?_⟩
  · induction s generalizing t with
    | nil =>
      rw [classPrefixes, List.mem_singleton] at h
      rw [h]
      exact fun c hc => absurd hc List.not_mem_nil
    | cons c s ih =>
      rcases List.mem_cons.mp h with rfl | h
      · exact fun c hc => absurd hc List.not_mem_nil
      · split at h
        · next hc =>
          obtain ⟨u, hu, rfl⟩ := List.mem_map.mp h
          exact List.forall_mem_cons.mpr ⟨hc, ih hu⟩
        · exact absurd h List.not_mem_nil
  · obtain ⟨hpre, hall⟩ := h
    induction s generalizing t with
    | nil => exact List.mem_singleton.mpr (List.prefix_nil.mp hpre)
    | cons c s ih =>
      cases t with
      | nil => exact List.mem_cons_self
      | cons d t =>
        obtain ⟨rfl, htail⟩ := List.cons_prefix_cons.mp hpre
        obtain ⟨hd, hall⟩ := List.forall_mem_cons.mp hall
        rw [classPrefixes, if_pos hd]
        exact List.mem_cons_of_mem [] (List.mem_map.mpr ⟨t, ih htail hall, rfl⟩)

/-- A lazy run tries the shortest prefix first. -/
theorem run_lazy (p : Char → Bool) (b : Pat) (atStart : Bool) (s : Str) :
    (Pat.seq (.star false p) b).run atStart s =
      (classPrefixes p s).flatMap fun t =>
        (b.run (atStart && t.isEmpty) (s.drop t.length)).map fun m => ⟨t ++ m.text, m.groups⟩ := by
  simp [Pat.run, List.flatMap_map]

/-- So does one in a group, which remembers it. -/
theorem run_lazy_group (p : Char → Bool) (b : Pat) (atStart : Bool) (s : Str) :
    (Pat.seq (.group (.star false p)) b).run atStart s =
      (classPrefixes p s).flatMap fun t =>
        (b.run (atStart && t.isEmpty) (s.drop t.length)).map fun m =>
          ⟨t ++ m.text, t :: m.groups⟩ := by
  simp [Pat.run, List.flatMap_map, List.map_map, Function.comp_def]

/-- The first answer behind a reluctant repetition is the one behind the shortest text that has
an answer. -/
theorem head?_classPrefixes_flatMap {β : Type*} {p : Char → Bool} {t u : Str}
    (ht : ∀ c ∈ t, p c = true) {f : Str → List β} (hne : f t ≠ [])
    (hskip : ∀ t', t' <+: t → t' ≠ t → f t' = []) :
    ((classPrefixes p (t ++ u)).flatMap f).head? = (f t).head? := by
  induction t generalizing f with
  | nil =>
    have hhead : ∃ rest, classPrefixes p u = [] :: rest := by cases u <;> exact ⟨_, rfl⟩
    obtain ⟨rest, hrest⟩ := hhead
    obtain ⟨y, ys, hy⟩ := List.exists_cons_of_ne_nil hne
    rw [List.nil_append, hrest, List.flatMap_cons, hy]
    rfl
  | cons c t ih =>
    obtain ⟨hc, ht⟩ := List.forall_mem_cons.mp ht
    rw [List.cons_append, classPrefixes, if_pos hc, List.flatMap_cons,
      hskip [] List.nil_prefix (List.cons_ne_nil c t).symm, List.nil_append, List.flatMap_map]
    refine ih ht hne fun t' hpre hne' => hskip _ (List.cons_prefix_cons.mpr ⟨rfl, hpre⟩) ?_
    exact fun h => hne' (List.cons.inj h).2

/-! ## Squeezing runs of a class -/

/-- Replacing each run of a class squeezes it. -/
theorem render_scan_plus (p : Char → Bool) (c : Char) (atStart : Bool) (s : Str) :
    render (fun _ => [c]) (scan (.plus p) 0 atStart s) = Spacing.squeeze p c false s := by
  induction hn : s.length using Nat.strong_induction_on generalizing atStart s with
  | _ n ih =>
    cases s with
    | nil => rfl
    | cons x s =>
      rw [List.length_cons] at hn
      by_cases hx : p x = true
      · have hm : matchAt (.plus p) atStart (x :: s) = some ⟨x :: s.takeWhile p, []⟩ := by
          rw [matchAt_plus, if_pos hx]
        have hlength := (List.dropWhile_suffix p (l := s)).length_le
        rw [scan_of_match hm (List.cons_ne_nil _ _), render, List.length_cons,
          List.drop_succ_cons, Spacing.drop_length_takeWhile,
          ih _ (by omega) false (s.dropWhile p) rfl, Spacing.squeeze, if_pos hx,
          if_neg Bool.false_ne_true, Spacing.squeeze_true, List.singleton_append]
      · have hm : matchAt (.plus p) atStart (x :: s) = none := by
          rw [matchAt_plus, if_neg hx]
        rw [scan_of_no_match hm, render, ih s.length (by omega) false s rfl, Spacing.squeeze,
          if_neg hx]

/-- `[p]+` replaced by one character. -/
theorem replaceAll_plus (p : Char → Bool) (c : Char) (s : Str) :
    replaceAll (.plus p) (fun _ => [c]) s = Spacing.squeeze p c false s :=
  render_scan_plus p c true s

/-! ## Patterns that do not match the empty text -/

/-- Every match takes a character. -/
def Pat.consumes : Pat → Bool
  | .empty | .star _ _ | .start => false
  | .cls _ => true
  | .seq a b => a.consumes || b.consumes
  | .alt a b => a.consumes && b.consumes
  | .group a => a.consumes

/-- A pattern that consumes has no empty match. -/
theorem text_ne_nil_of_consumes {pat : Pat} (h : pat.consumes = true) {atStart : Bool} {s : Str}
    {m : Match} (hm : m ∈ pat.run atStart s) : m.text ≠ [] := by
  induction pat generalizing atStart s m with
  | empty | star _ _ | start => exact absurd h Bool.false_ne_true
  | cls p =>
    rw [run_cls] at hm
    obtain ⟨c, -, rfl⟩ := List.mem_map.mp hm
    exact List.cons_ne_nil c []
  | seq a b iha ihb =>
    obtain ⟨m₁, hm₁, hmap⟩ := List.mem_flatMap.mp hm
    obtain ⟨m₂, hm₂, rfl⟩ := List.mem_map.mp hmap
    rcases Bool.or_eq_true_iff.mp h with ha | hb
    · exact List.append_ne_nil_of_left_ne_nil (iha ha hm₁) _
    · exact List.append_ne_nil_of_right_ne_nil _ (ihb hb hm₂)
  | alt a b iha ihb =>
    obtain ⟨ha, hb⟩ := Bool.and_eq_true_iff.mp h
    rcases List.mem_append.mp hm with hm | hm
    · exact iha ha hm
    · exact ihb hb hm
  | group a iha =>
    obtain ⟨m₁, hm₁, rfl⟩ := List.mem_map.mp hm
    exact iha (m := m₁) h hm₁

/-! ## Whether there is a match -/

def Piece.isFound : Piece → Bool
  | .char _ => false
  | .found _ => true

/-- Some match that is not the empty text. -/
def search (pat : Pat) (s : Str) : Bool := (pieces pat s).any Piece.isFound

/-- A pattern without empty matches is found where it can be run from some position. -/
theorem search_iff {pat : Pat} (h : pat.floating = true) (hconsumes : pat.consumes = true)
    (s : Str) :
    search pat s = true ↔ ∃ t, t <:+ s ∧ pat.run false t ≠ [] := by
  refine scan_induction (P := fun _ s ps =>
    ps.any Piece.isFound = true ↔ ∃ t, t <:+ s ∧ pat.run false t ≠ []) (fun _ => ?_)
    (fun atStart m s ps hm _ _ => ?_) (fun atStart c s ps hpass ih => ?_) true s
  · refine iff_of_false Bool.false_ne_true ?_
    rintro ⟨t, ht, hrun⟩
    rw [List.suffix_nil.mp ht] at hrun
    obtain ⟨m, hm⟩ := List.exists_mem_of_ne_nil _ hrun
    exact text_ne_nil_of_consumes hconsumes hm (List.prefix_nil.mp (prefix_of_mem_run hm))
  · refine iff_of_true rfl ⟨m.text ++ s, List.suffix_rfl, ?_⟩
    rw [← run_of_floating h atStart]
    exact List.ne_nil_of_mem (List.mem_of_mem_head? hm)
  · -- no match at the first character
    have hnil : pat.run false (c :: s) = [] := by
      by_contra hrun
      obtain ⟨m, ms, hms⟩ := List.exists_cons_of_ne_nil hrun
      have hm : m ∈ pat.run false (c :: s) := by rw [hms]; exact List.mem_cons_self
      refine text_ne_nil_of_consumes hconsumes hm (hpass m ?_)
      rw [matchAt, run_of_floating h, hms]
      rfl
    show ps.any Piece.isFound = true ↔ _
    rw [ih]
    constructor
    · rintro ⟨t, ht, hrun⟩
      exact ⟨t, ht.trans (List.suffix_cons c s), hrun⟩
    · rintro ⟨t, ht, hrun⟩
      rcases List.suffix_cons_iff.mp ht with rfl | ht
      · exact absurd hnil hrun
      · exact ⟨t, ht, hrun⟩

/-- A sequence matches when its second part matches behind the first. -/
theorem run_seq_ne_nil {a b : Pat} (s : Str) :
    (Pat.seq a b).run false s ≠ [] ↔
      ∃ m ∈ a.run false s, b.run false (s.drop m.text.length) ≠ [] := by
  rw [Pat.run, Ne, List.flatMap_eq_nil_iff]
  simp only [List.map_eq_nil_iff, Bool.false_and, not_forall, exists_prop, Ne]

/-- The matches of `[p]+`. -/
theorem mem_run_plus {p : Char → Bool} {s : Str} {m : Match} :
    m ∈ (Pat.plus p).run false s ↔
      m.groups = [] ∧ m.text ≠ [] ∧ m.text <+: s ∧ ∀ c ∈ m.text, p c = true := by
  obtain ⟨text, groups⟩ := m
  cases s with
  | nil =>
    refine iff_of_false List.not_mem_nil ?_
    rintro ⟨-, hne, hpre, -⟩
    exact hne (List.prefix_nil.mp hpre)
  | cons c s =>
    have hrun : (⟨text, groups⟩ : Match) ∈ (Pat.plus p).run false (c :: s) ↔
        p c = true ∧ ∃ t ∈ classPrefixes p s, c :: t = text ∧ [] = groups := by
      by_cases hc : p c = true <;> simp [Pat.plus, Pat.run, hc]
    rw [hrun]
    constructor
    · rintro ⟨hc, t, ht, rfl, rfl⟩
      obtain ⟨hpre, hall⟩ := mem_classPrefixes.mp ht
      exact ⟨rfl, List.cons_ne_nil c t, List.cons_prefix_cons.mpr ⟨rfl, hpre⟩,
        List.forall_mem_cons.mpr ⟨hc, hall⟩⟩
    · rintro ⟨rfl, hne, hpre, hall⟩
      obtain ⟨d, t, rfl⟩ := List.exists_cons_of_ne_nil hne
      obtain ⟨rfl, htail⟩ := List.cons_prefix_cons.mp hpre
      rw [List.forall_mem_cons] at hall
      exact ⟨hall.1, t, mem_classPrefixes.mpr ⟨htail, hall.2⟩, rfl, rfl⟩

/-- A run of at least one character matches a prefix in the class. -/
theorem run_plus_ne_nil {p : Char → Bool} (s : Str) :
    (Pat.plus p).run false s ≠ [] ↔ ∃ t u, s = t ++ u ∧ t ≠ [] ∧ ∀ c ∈ t, p c = true := by
  constructor
  · intro hrun
    obtain ⟨m, hm⟩ := List.exists_mem_of_ne_nil _ hrun
    obtain ⟨-, hne, ⟨u, hu⟩, hall⟩ := mem_run_plus.mp hm
    exact ⟨m.text, u, hu.symm, hne, hall⟩
  · rintro ⟨t, u, rfl, hne, hall⟩
    have hm : (⟨t, []⟩ : Match) ∈ (Pat.plus p).run false (t ++ u) :=
      mem_run_plus.mpr ⟨rfl, hne, List.prefix_append t u, hall⟩
    exact List.ne_nil_of_mem hm

/-- `[p]+` in front of a pattern. -/
theorem run_plus_seq_ne_nil {p : Char → Bool} {b : Pat} (s : Str) :
    (Pat.seq (.plus p) b).run false s ≠ [] ↔
      ∃ t u, s = t ++ u ∧ t ≠ [] ∧ (∀ c ∈ t, p c = true) ∧ b.run false u ≠ [] := by
  rw [run_seq_ne_nil]
  constructor
  · rintro ⟨m, hm, hrun⟩
    obtain ⟨-, hne, ⟨u, hu⟩, hall⟩ := mem_run_plus.mp hm
    rw [← hu, List.drop_left] at hrun
    exact ⟨m.text, u, hu.symm, hne, hall, hrun⟩
  · rintro ⟨t, u, rfl, hne, hall, hrun⟩
    refine ⟨⟨t, []⟩, mem_run_plus.mpr ⟨rfl, hne, List.prefix_append t u, hall⟩, ?_⟩
    rwa [List.drop_left]

/-! ## What follows a match -/

/-- The text behind the match at the head of `s`. -/
def rest (pat : Pat) (s : Str) : Option Str :=
  (matchAt pat false s).map fun m => s.drop m.text.length

/-- What a class leaves. -/
theorem rest_cls (p : Char → Bool) (c : Char) (s : Str) :
    rest (.cls p) (c :: s) = if p c then some s else none := by
  rw [rest, matchAt_cls]
  split <;> rfl

theorem rest_lit (w s : Str) : rest (.lit w) s = Text.after w s := by
  rw [rest, matchAt_lit, Text.after]
  split <;> rfl

theorem rest_star (p : Char → Bool) (s : Str) : rest (.star true p) s = some (s.dropWhile p) := by
  have hrun : (Pat.star true p).run false s = (classPrefixes p s).reverse.map (⟨·, []⟩) := by
    rw [Pat.run, if_pos rfl, List.map_reverse]
  rw [rest, matchAt, hrun, List.head?_map, head?_reverse_classPrefixes, Option.map_some,
    Option.map_some, Spacing.drop_length_takeWhile]

/-- Behind the only match of the first pattern the second one is tried. -/
theorem rest_seq {a : Pat} {s : Str} (h : (a.run false s).length ≤ 1) (b : Pat) :
    rest (.seq a b) s = (rest a s).bind (rest b) := by
  rw [rest, rest, matchAt, matchAt, Pat.run]
  cases hrun : a.run false s with
  | nil => rfl
  | cons m ms =>
    rw [hrun, List.length_cons] at h
    obtain rfl : ms = [] := List.length_eq_zero_iff.mp (by omega)
    rw [List.flatMap_cons, List.flatMap_nil, List.append_nil, List.head?_map, Bool.false_and]
    simp only [List.head?_cons, Option.map_some, Option.bind_some, Option.map_map, rest, matchAt,
      Function.comp_def, List.length_append, List.drop_drop]

/-- A sequence goes on behind the character of its class. -/
theorem rest_cls_seq (p : Char → Bool) (b : Pat) (s : Str) :
    rest (.seq (.cls p) b) s = (rest (.cls p) s).bind (rest b) := by
  refine rest_seq ?_ b
  rw [run_cls, List.length_map]
  exact Option.length_toList_le

theorem rest_lit_seq (w : Str) (b : Pat) (s : Str) :
    rest (.seq (.lit w) b) s = (Text.after w s).bind (rest b) := by
  rw [← rest_lit]
  refine rest_seq ?_ b
  rw [run_lit]
  split <;> simp

/-- A run of the class is passed over as a whole. -/
theorem rest_star_seq {p : Char → Bool} {b : Pat}
    (hb : ∀ atStart c s, p c = true → b.run atStart (c :: s) = []) (s : Str) :
    rest (.seq (.star true p) b) s = rest b (s.dropWhile p) := by
  rw [rest, rest, matchAt, matchAt, run_star_seq hb, Bool.false_and, List.head?_map]
  simp only [Option.map_map, Function.comp_def, List.length_append, ← List.drop_drop,
    Spacing.drop_length_takeWhile]

/-- Where a pattern is left out, the scan goes on behind it. -/
theorem replaceAll_of_rest {pat : Pat} (hfloating : pat.floating = true)
    (hconsumes : pat.consumes = true) {s t : Str} (h : rest pat s = some t) :
    replaceAll pat (fun _ => []) s = replaceAll pat (fun _ => []) t := by
  obtain ⟨m, hm, rfl⟩ := Option.map_eq_some_iff.mp h
  have hne := text_ne_nil_of_consumes hconsumes (List.mem_of_mem_head? hm)
  rw [replaceAll, replaceAll, pieces, pieces, scan_of_floating hfloating,
    scan_of_floating hfloating true]
  cases s with
  | nil => exact absurd (List.prefix_nil.mp (prefix_of_mem_run (List.mem_of_mem_head? hm))) hne
  | cons c s =>
    rw [scan_of_match hm hne]
    rfl

/-- Where nothing matches a character is kept. -/
theorem replaceAll_of_rest_none {pat : Pat} (hfloating : pat.floating = true) {c : Char} {s : Str}
    (h : rest pat (c :: s) = none) (f : Match → Str) :
    replaceAll pat f (c :: s) = c :: replaceAll pat f s := by
  rw [rest, Option.map_eq_none_iff] at h
  rw [replaceAll, replaceAll, pieces, pieces, scan_of_floating hfloating, scan_of_no_match h,
    scan_of_floating hfloating true]
  rfl

end Regex
