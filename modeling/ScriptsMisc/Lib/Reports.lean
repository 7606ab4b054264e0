import Mathlib.Data.List.Sort
import Mathlib.Data.Prod.Lex
import Mathlib.Tactic.Common

/-! # Checks that report what they find

A check runs over a log to which it writes lines, or it raises an exception and nothing of it is
left. What it writes depends on what it looks at alone, so that checks in sequence and in loops
write what their parts write, one after the other.

A report lists findings: one line for each item that is visited and does not agree, in the order of
the items. Loops in loops visit their items in lexicographic order.
-/

namespace Reports

variable {L E α β ι : Type*}

/-- Lines can be written to a log one after the other or together. -/
structure LogWriter (L E : Type*) where
  write : L → List E → L
  write_nil : ∀ log, write log [] = log
  write_append : ∀ log xs ys, write log (xs ++ ys) = write (write log xs) ys

/-- From every log the check writes these lines; it raises an exception where there are none. -/
def Writes (w : LogWriter L E) (check : L → Option L) (lines : Option (List E)) : Prop :=
  ∀ log, check log = lines.map (w.write log)

/-- The lines of all items, one item after the other. -/
def collect (lines : α → Option (List E)) : List α → Option (List E)
  | [] => some []
  | x :: xs => (lines x).bind fun l => (collect lines xs).map (l ++ ·)

/-! ## Checks put together -/

variable {w : LogWriter L E}

/-- A check that passes writes nothing. -/
theorem writes_pass : Writes w some (some []) := fun log => by
  rw [Option.map_some, w.write_nil]

theorem writes_raise : Writes w (fun _ => none) none := fun _ => rfl

/-- The lines of two checks come one after the other. -/
theorem Writes.bind {check check' : L → Option L} {lines lines' : Option (List E)}
    (h : Writes w check lines) (h' : Writes w check' lines') :
    Writes w (fun log => (check log).bind check')
      (lines.bind fun l => lines'.map (l ++ ·)) := by
  intro log
  show (check log).bind check' = _
  rw [h log]
  cases lines with
  | none => rfl
  | some l =>
    rw [Option.map_some, Option.bind_some, Option.bind_some, h' (w.write log l), Option.map_map]
    congr 1
    funext l'
    exact (w.write_append log l l').symm

/-- A check of a value whose computation may raise an exception. -/
theorem Writes.value {o : Option α} {check : α → L → Option L} {lines : α → Option (List E)}
    (h : ∀ a, o = some a → Writes w (check a) (lines a)) :
    Writes w (fun log => o.bind fun a => check a log) (o.bind lines) := by
  cases o with
  | none => exact writes_raise
  | some a => exact h a rfl

/-- A check writes the lines of its branch. -/
theorem Writes.ite {c : Prop} [Decidable c] {check check' : L → Option L}
    {lines lines' : Option (List E)} (h : c → Writes w check lines)
    (h' : ¬ c → Writes w check' lines') :
    Writes w (fun log => if c then check log else check' log) (if c then lines else lines') := by
  by_cases hc : c
  · simp only [hc, if_true]
    exact h hc
  · simp only [hc, if_false]
    exact h' hc

/-- A loop writes what its rounds write. -/
theorem Writes.foldlM {check : L → α → Option L} {lines : α → Option (List E)} {xs : List α}
    (h : ∀ x ∈ xs, Writes w (fun log => check log x) (lines x)) :
    Writes w (fun log => xs.foldlM check log) (collect lines xs) := by
  induction xs with
  | nil => exact writes_pass
  | cons x xs ih =>
    have htail := ih fun y hy => h y (List.mem_cons_of_mem x hy)
    exact (h x List.mem_cons_self).bind htail

/-! ## Lines of nested loops -/

/-- Only the elements of the list count. -/
theorem collect_congr {f g : α → Option (List E)} {xs : List α} (h : ∀ x ∈ xs, f x = g x) :
    collect f xs = collect g xs := by
  induction xs with
  | nil => rfl
  | cons x xs ih =>
    rw [List.forall_mem_cons] at h
    rw [collect, collect, h.1, ih h.2]

/-- The lines of two lists come one after the other. -/
theorem collect_append (f : α → Option (List E)) (xs ys : List α) :
    collect f (xs ++ ys) = (collect f xs).bind fun l => (collect f ys).map (l ++ ·) := by
  induction xs with
  | nil =>
    rw [List.nil_append, collect, Option.bind_some]
    exact Option.map_id'.symm
  | cons x xs ih =>
    rw [List.cons_append, collect, collect, ih]
    cases f x with
    | none => rfl
    | some l =>
      cases collect f xs with
      | none => rfl
      | some l' => simp [Function.comp_def]

/-- A loop in a loop is one loop. -/
theorem collect_flatMap (f : β → Option (List E)) (g : α → List β) (xs : List α) :
    collect f (xs.flatMap g) = collect (fun x => collect f (g x)) xs := by
  induction xs with
  | nil => rfl
  | cons x xs ih => rw [List.flatMap_cons, collect_append, collect, ih]

theorem collect_map (f : β → Option (List E)) (g : α → β) (xs : List α) :
    collect f (xs.map g) = collect (fun x => f (g x)) xs := by
  induction xs with
  | nil => rfl
  | cons x xs ih => rw [List.map_cons, collect, collect, ih]

/-- A loop that raises no exception has none in its rounds. -/
theorem isSome_of_collect {f : α → Option (List E)} {xs : List α} {l : List E}
    (h : collect f xs = some l) : ∀ x ∈ xs, (f x).isSome = true := by
  induction xs generalizing l with
  | nil => exact fun x hx => absurd hx List.not_mem_nil
  | cons x xs ih =>
    rw [collect, Option.bind_eq_some_iff] at h
    obtain ⟨l', hx, hrest⟩ := h
    obtain ⟨l'', hxs, -⟩ := Option.map_eq_some_iff.mp hrest
    rw [List.forall_mem_cons, hx]
    exact ⟨rfl, ih hxs⟩

/-! ## Findings -/

/-- The line for one item, where it does not agree. -/
def itemLines (agrees : ι → Option Bool) (line : ι → Option E) (x : ι) : Option (List E) :=
  (agrees x).bind fun agree => if agree then some [] else (line x).map ([·])

/-- Every visited item is compared, and the lines are those of the visited items that do not agree,
one line for each in the order of the items. -/
def Reported [LT ι] (visited : ι → Prop) (agrees : ι → Option Bool) (line : ι → Option E)
    (lines : List E) : Prop :=
  (∀ x, visited x → agrees x ≠ none) ∧
    ∃ found : List ι, found.Pairwise (· < ·) ∧
      (∀ x, x ∈ found ↔ visited x ∧ agrees x = some false) ∧
      List.Forall₂ (fun x l => line x = some l) found lines

/-- Only which items are visited counts. -/
theorem Reported.congr [LT ι] {visited visited' : ι → Prop} {agrees : ι → Option Bool}
    {line : ι → Option E} {lines : List E} (h : ∀ x, visited x ↔ visited' x) :
    Reported visited agrees line lines ↔ Reported visited' agrees line lines := by
  rw [funext fun x => propext (h x)]

/-- What a loop over single items writes. -/
theorem collect_itemLines_iff {agrees : ι → Option Bool} {line : ι → Option E} {xs : List ι}
    {lines : List E} :
    collect (itemLines agrees line) xs = some lines ↔
      (∀ x ∈ xs, agrees x ≠ none) ∧
        List.Forall₂ (fun x l => line x = some l) (xs.filter (agrees · = some false)) lines := by
  induction xs generalizing lines with
  | nil => simp [collect, eq_comm]
  | cons x xs ih =>
    rw [collect, itemLines, List.forall_mem_cons]
    cases hx : agrees x with
    | none => simp
    | some agree =>
      cases agree with
      | true =>
        have hskip : (x :: xs).filter (agrees · = some false) =
            xs.filter (agrees · = some false) := by simp [hx]
        rw [hskip]
        simpa using ih
      | false =>
        have hkeep : (x :: xs).filter (agrees · = some false) =
            x :: xs.filter (agrees · = some false) := by simp [hx]
        rw [hkeep, List.forall₂_cons_left_iff]
        constructor
        · intro h
          obtain ⟨l, hl, hrest⟩ := Option.bind_eq_some_iff.mp h
          obtain ⟨l', hxs, rfl⟩ := Option.map_eq_some_iff.mp hrest
          obtain ⟨text, htext, rfl⟩ := Option.map_eq_some_iff.mp hl
          obtain ⟨hall, hlines⟩ := ih.mp hxs
          exact ⟨⟨Option.some_ne_none false, hall⟩, text, l', htext, hlines, rfl⟩
        · rintro ⟨⟨-, hall⟩, text, l', htext, hlines, rfl⟩
          simp [htext, ih.mpr ⟨hall, hlines⟩]

/-- A loop over the visited items in their order writes their report. -/
theorem collect_itemLines_iff_reported [Preorder ι] {visited : ι → Prop}
    {agrees : ι → Option Bool} {line : ι → Option E} {xs : List ι} {lines : List E}
    (hsorted : xs.Pairwise (· < ·)) (hmem : ∀ x, x ∈ xs ↔ visited x) :
    collect (itemLines agrees line) xs = some lines ↔ Reported visited agrees line lines := by
  rw [collect_itemLines_iff]
  have hfound : ∀ x, x ∈ xs.filter (agrees · = some false) ↔
      visited x ∧ agrees x = some false := fun x => by
    rw [List.mem_filter, hmem, decide_eq_true_iff]
  constructor
  · rintro ⟨hall, hlines⟩
    exact ⟨fun x hx => hall x ((hmem x).mpr hx), _, hsorted.filter _, hfound, hlines⟩
  · rintro ⟨hall, found, hpairwise, hiff, hlines⟩
    refine ⟨fun x hx => hall x ((hmem x).mp hx), ?_⟩
    -- two sorted lists of the same items are the same
    have hsame : found = xs.filter (agrees · = some false) :=
      hpairwise.eq_of_mem_iff (hsorted.filter _) fun x => (hiff x).trans (hfound x).symm
    rwa [← hsame]

/-! ## Loops in loops -/

/-- The items of a loop in a loop, each with the item of the outer loop. -/
def nested (xs : List α) (ys : α → List β) : List (α ×ₗ β) :=
  xs.flatMap fun x => (ys x).map fun y => toLex (x, y)

/-- A pair is visited when both of its parts are. -/
theorem mem_nested {xs : List α} {ys : α → List β} {p : α ×ₗ β} :
    p ∈ nested xs ys ↔ (ofLex p).1 ∈ xs ∧ (ofLex p).2 ∈ ys (ofLex p).1 := by
  simp only [nested, List.mem_flatMap, List.mem_map]
  constructor
  · rintro ⟨x, hx, y, hy, rfl⟩
    exact ⟨hx, hy⟩
  · rintro ⟨hx, hy⟩
    exact ⟨_, hx, _, hy, rfl⟩

/-- Nested loops go through the pairs in order. -/
theorem pairwise_nested [Preorder α] [Preorder β] {xs : List α} {ys : α → List β}
    (hxs : xs.Pairwise (· < ·)) (hys : ∀ x ∈ xs, (ys x).Pairwise (· < ·)) :
    (nested xs ys).Pairwise (· < ·) := by
  rw [nested, List.pairwise_flatMap]
  constructor
  · intro x hx
    rw [List.pairwise_map]
    refine (hys x hx).imp fun h => ?_
    exact Prod.Lex.toLex_lt_toLex.mpr (.inr ⟨rfl, h⟩)
  · refine hxs.imp fun h p hp q hq => ?_
    obtain ⟨y, -, rfl⟩ := List.mem_map.mp hp
    obtain ⟨z, -, rfl⟩ := List.mem_map.mp hq
    exact Prod.Lex.toLex_lt_toLex.mpr (.inl h)

/-- Rounds that first find what they loop over, as one loop. -/
theorem collect_nested (f : α ×ₗ β → Option (List E)) {g : α → Option (List β)}
    {items : α → List β} {xs : List α} (h : ∀ x ∈ xs, g x = some (items x)) :
    collect (fun x => (g x).bind (collect fun y => f (toLex (x, y)))) xs =
      collect f (nested xs items) := by
  rw [nested, collect_flatMap]
  apply collect_congr
  intro x hx
  rw [h x hx, Option.bind_some, collect_map]

/-- Rounds that all loop over the same. -/
theorem collect_collect (f : α ×ₗ β → Option (List E)) (xs : List α) (ys : List β) :
    collect (fun x => collect (fun y => f (toLex (x, y))) ys) xs =
      collect f (nested xs fun _ => ys) :=
  collect_nested f (g := fun _ => some ys) fun _ _ => rfl

/-- The items of a loop whose rounds first find what they loop over, if all of them do. -/
def nestedM (xs : List α) (g : α → Option (List β)) : Option (List (α ×ₗ β)) :=
  if xs.all fun x => (g x).isSome then some (nested xs fun x => (g x).getD []) else none

section NestedM

variable {xs : List α} {g : α → Option (List β)} {items : List (α ×ₗ β)}

/-- Nested loops end when every inner range can be had. -/
theorem nestedM_eq_some_iff :
    nestedM xs g = some items ↔
      (∀ x ∈ xs, g x ≠ none) ∧ items = nested xs fun x => (g x).getD [] := by
  rw [nestedM]
  simp only [List.all_eq_true, Option.isSome_iff_ne_none]
  split
  · next h =>
    rw [Option.some.injEq, eq_comm]
    exact ⟨fun heq => ⟨h, heq⟩, fun heq => heq.2⟩
  · next h => exact iff_of_false (by simp) fun heq => h heq.1

/-- They stop only at a range that cannot. -/
theorem nestedM_ne_none_iff : nestedM xs g ≠ none ↔ ∀ x ∈ xs, g x ≠ none := by
  rw [Option.ne_none_iff_exists']
  simp only [nestedM_eq_some_iff, exists_and_left, exists_eq, and_true]

theorem mem_nestedM (h : nestedM xs g = some items) {p : α ×ₗ β} :
    p ∈ items ↔ (ofLex p).1 ∈ xs ∧ ∃ ys, g (ofLex p).1 = some ys ∧ (ofLex p).2 ∈ ys := by
  obtain ⟨hsome, rfl⟩ := nestedM_eq_some_iff.mp h
  rw [mem_nested]
  refine and_congr_right fun hp => ?_
  obtain ⟨ys, hys⟩ := Option.ne_none_iff_exists'.mp (hsome _ hp)
  simp [hys]

theorem pairwise_nestedM [Preorder α] [Preorder β] (h : nestedM xs g = some items)
    (hxs : xs.Pairwise (· < ·)) (hg : ∀ x ∈ xs, ∀ ys, g x = some ys → ys.Pairwise (· < ·)) :
    items.Pairwise (· < ·) := by
  obtain ⟨hsome, rfl⟩ := nestedM_eq_some_iff.mp h
  refine pairwise_nested hxs fun x hx => ?_
  obtain ⟨ys, hys⟩ := Option.ne_none_iff_exists'.mp (hsome x hx)
  rw [hys, Option.getD_some]
  exact hg x hx ys hys

/-- Such a loop raises an exception where a round does not find what it loops over. -/
theorem collect_nestedM (f : α ×ₗ β → Option (List E)) (xs : List α) (g : α → Option (List β)) :
    collect (fun x => (g x).bind (collect fun y => f (toLex (x, y)))) xs =
      (nestedM xs g).bind (collect f) := by
  cases h : nestedM xs g with
  | none =>
    rw [Option.bind_none, Option.eq_none_iff_forall_ne_some]
    intro lines hlines
    have hall : ∀ x ∈ xs, g x ≠ none := fun x hx hnone => by
      have hround := isSome_of_collect hlines x hx
      rw [hnone] at hround
      exact Bool.false_ne_true hround
    exact nestedM_ne_none_iff.mpr hall h
  | some items =>
    obtain ⟨hsome, rfl⟩ := nestedM_eq_some_iff.mp h
    rw [Option.bind_some]
    refine collect_nested f fun x hx => ?_
    obtain ⟨ys, hys⟩ := Option.ne_none_iff_exists'.mp (hsome x hx)
    rw [hys, Option.getD_some]

/-- What such a loop writes is the report of all it loops over. -/
theorem collect_walk_iff [Preorder α] [Preorder β] {agrees : α ×ₗ β → Option Bool}
    {line : α ×ₗ β → Option E} {lines : List E} (hxs : xs.Pairwise (· < ·))
    (hg : ∀ x ∈ xs, ∀ ys, g x = some ys → ys.Pairwise (· < ·)) :
    collect (fun x => (g x).bind (collect fun y => itemLines agrees line (toLex (x, y)))) xs =
        some lines ↔
      (∀ x ∈ xs, g x ≠ none) ∧
        Reported (fun p => (ofLex p).1 ∈ xs ∧ ∃ ys, g (ofLex p).1 = some ys ∧ (ofLex p).2 ∈ ys)
          agrees line lines := by
  rw [collect_nestedM, Option.bind_eq_some_iff, ← nestedM_ne_none_iff]
  have hreport : ∀ items, nestedM xs g = some items →
      (collect (itemLines agrees line) items = some lines ↔ Reported (fun p => (ofLex p).1 ∈ xs ∧
        ∃ ys, g (ofLex p).1 = some ys ∧ (ofLex p).2 ∈ ys) agrees line lines) := fun items h =>
    collect_itemLines_iff_reported (pairwise_nestedM h hxs hg) fun _ => mem_nestedM h
  constructor
  · rintro ⟨items, hitems, hlines⟩
    exact ⟨by simp [hitems], (hreport items hitems).mp hlines⟩
  · rintro ⟨hsome, h⟩
    obtain ⟨items, hitems⟩ := Option.ne_none_iff_exists'.mp hsome
    exact ⟨items, hitems, (hreport items hitems).mpr h⟩

end NestedM

end Reports
