import ScriptsMisc.Lib.Text

/-! # Words and the gaps between them

A list is taken apart at the elements of a class: its words are the longest parts without any, the
gaps between them the runs of the class. Squeezing puts one element in the place of every run.
-/

namespace Spacing

variable {α : Type*} {p : α → Bool}

/-! ## Words -/

/-- The longest parts without the class. -/
def words (p : α → Bool) (s : List α) : List (List α) :=
  (s.splitOnP p).filter fun w => !w.isEmpty

/-- A separator divides the words. -/
theorem words_append_cons (s t : List α) {x : α} (hx : p x = true) :
    words p (s ++ x :: t) = words p s ++ words p t := by
  rw [words, List.splitOnP_append_cons s t hx, List.filter_append]
  rfl

/-- Words are separated by a gap of any length. -/
theorem words_append_gap (s : List α) {g : List α} (hne : g ≠ []) (hg : ∀ x ∈ g, p x = true)
    (t : List α) : words p (s ++ (g ++ t)) = words p s ++ words p t := by
  have hskip : ∀ g : List α, (∀ x ∈ g, p x = true) → words p (g ++ t) = words p t := by
    intro g hg
    induction g with
    | nil => rfl
    | cons x g ih =>
      rw [List.forall_mem_cons] at hg
      exact (words_append_cons [] (g ++ t) hg.1).trans (ih hg.2)
  obtain ⟨x, g, rfl⟩ := List.exists_cons_of_ne_nil hne
  rw [List.forall_mem_cons] at hg
  rw [List.cons_append, words_append_cons s _ hg.1, hskip g hg.2]

/-- A text without separators is one word. -/
theorem words_of_forall {s : List α} (hne : s ≠ []) (hs : ∀ x ∈ s, p x = false) :
    words p s = [s] := by
  rw [words, List.splitOnP_eq_singleton hs, List.filter_cons_of_pos, List.filter_nil]
  simpa using hne

/-- Words hold elements of the list. -/
theorem mem_of_mem_words {s w : List α} (h : w ∈ words p s) {x : α} (hx : x ∈ w) : x ∈ s :=
  (Text.mem_of_mem_splitOnP (List.mem_of_mem_filter h) x hx).1

/-- A part without the class belongs to one word: here the first one. -/
theorem words_append_left {t : List α} (hne : t ≠ []) (ht : ∀ x ∈ t, p x = false) (s : List α) :
    ∃ w ws, words p (t ++ s) = (t ++ w) :: ws := by
  induction s generalizing t with
  | nil => exact ⟨[], [], by rw [List.append_nil, words_of_forall hne ht]⟩
  | cons x s ih =>
    cases hx : p x with
    | true => exact ⟨[], words p s, by rw [words_append_cons t s hx, words_of_forall hne ht]; simp⟩
    | false =>
      obtain ⟨w, ws, hwords⟩ := ih (t := t ++ [x]) (by simp)
        (by simpa [or_imp, forall_and, hx] using ht)
      exact ⟨x :: w, ws, by simpa using hwords⟩

/-- Here the last one. -/
theorem words_append_right (s : List α) {t : List α} (hne : t ≠ [])
    (ht : ∀ x ∈ t, p x = false) : ∃ ws w, words p (s ++ t) = ws ++ [w ++ t] := by
  induction s using List.reverseRecOn generalizing t with
  | nil => exact ⟨[], [], words_of_forall hne ht⟩
  | append_singleton s x ih =>
    rw [List.append_assoc, List.singleton_append]
    cases hx : p x with
    | true => exact ⟨words p s, [], by rw [words_append_cons s t hx, words_of_forall hne ht]; simp⟩
    | false =>
      obtain ⟨ws, w, hwords⟩ := ih (List.cons_ne_nil x t) (List.forall_mem_cons.mpr ⟨hx, ht⟩)
      exact ⟨ws, w ++ [x], by simpa using hwords⟩

/-! ## Squeezing -/

/-- What is taken from the head can be dropped by its length. -/
theorem drop_length_takeWhile (p : α → Bool) (s : List α) :
    s.drop (s.takeWhile p).length = s.dropWhile p := by
  have h := congrArg (List.drop (s.takeWhile p).length)
    (List.takeWhile_append_dropWhile (p := p) (l := s))
  rw [List.drop_left] at h
  exact h.symm

/-- Put `c` in the place of every run of the class; `inRun` says whether one is passed. -/
def squeeze (p : α → Bool) (c : α) : Bool → List α → List α
  | _, [] => []
  | inRun, x :: s =>
    if p x then (if inRun then squeeze p c true s else c :: squeeze p c true s)
    else x :: squeeze p c false s

variable {c : α}

/-- Within a run the rest of the run is dropped. -/
theorem squeeze_true (s : List α) : squeeze p c true s = squeeze p c false (s.dropWhile p) := by
  induction s with
  | nil => rfl
  | cons x s ih =>
    by_cases hx : p x = true
    · rw [squeeze, if_pos hx, if_pos rfl, List.dropWhile_cons_of_pos hx, ih]
    · rw [squeeze, if_neg hx, List.dropWhile_cons_of_neg hx, squeeze, if_neg hx]

/-- Outside of the class nothing changes. -/
theorem squeeze_append {s : List α} (hs : ∀ x ∈ s, p x = false) (t : List α) :
    squeeze p c false (s ++ t) = s ++ squeeze p c false t := by
  induction s with
  | nil => rfl
  | cons x s ih =>
    rw [List.forall_mem_cons] at hs
    rw [List.cons_append, squeeze, if_neg (by rw [hs.1]; exact Bool.false_ne_true), ih hs.2,
      List.cons_append]

/-- A gap between words becomes one element. -/
theorem squeeze_gap {g t : List α} (hne : g ≠ []) (hg : ∀ x ∈ g, p x = true)
    (ht : ∀ x ∈ t.head?, p x = false) :
    squeeze p c false (g ++ t) = c :: squeeze p c false t := by
  obtain ⟨x, g, rfl⟩ := List.exists_cons_of_ne_nil hne
  rw [List.forall_mem_cons] at hg
  have hdrop : (g ++ t).dropWhile p = t := by
    rw [List.dropWhile_append_of_pos hg.2]
    cases t with
    | nil => rfl
    | cons y t => exact List.dropWhile_cons_of_neg (by rw [ht y rfl]; exact Bool.false_ne_true)
  rw [List.cons_append, squeeze, if_pos hg.1, if_neg Bool.false_ne_true, squeeze_true, hdrop]

/-- What is left after squeezing. -/
theorem mem_of_mem_squeeze {inRun : Bool} {s : List α} {x : α} (h : x ∈ squeeze p c inRun s) :
    x = c ∨ x ∈ s ∧ p x = false := by
  induction s generalizing inRun with
  | nil => exact absurd h List.not_mem_nil
  | cons y s ih =>
    have htail : ∀ {b}, x ∈ squeeze p c b s → x = c ∨ x ∈ y :: s ∧ p x = false := fun hx =>
      (ih hx).imp_right fun hs => ⟨List.mem_cons_of_mem y hs.1, hs.2⟩
    rw [squeeze] at h
    split at h
    · split at h
      · exact htail h
      · rcases List.mem_cons.mp h with h | h
        · exact .inl h
        · exact htail h
    · next hy =>
      rcases List.mem_cons.mp h with rfl | h
      · exact .inr ⟨List.mem_cons_self, Bool.eq_false_iff.mpr hy⟩
      · exact htail h

/-- A run of another class stays as it is. -/
theorem dropWhile_squeeze {q : α → Bool} (hpq : ∀ x, q x = true → p x = false) (hc : q c = false)
    (s : List α) : (squeeze p c false s).dropWhile q = squeeze p c false (s.dropWhile q) := by
  induction s with
  | nil => rfl
  | cons x s ih =>
    by_cases hx : q x = true
    · have hp := Bool.eq_false_iff.mp (hpq x hx)
      rw [squeeze, if_neg hp, List.dropWhile_cons_of_pos hx, List.dropWhile_cons_of_pos hx, ih]
    · rw [List.dropWhile_cons_of_neg hx, squeeze]
      split
      · rw [if_neg Bool.false_ne_true, List.dropWhile_cons_of_neg (Bool.eq_false_iff.mp hc)]
      · rw [List.dropWhile_cons_of_neg hx]

/-- A run of the class at the head is dropped before squeezing or after it. -/
theorem dropWhile_squeeze_self (hc : p c = true) (s : List α) :
    (squeeze p c false s).dropWhile p = squeeze p c false (s.dropWhile p) := by
  have hhead : ∀ s : List α, (∀ x ∈ s.head?, p x = false) →
      (squeeze p c false s).dropWhile p = squeeze p c false s := by
    intro s hs
    cases s with
    | nil => rfl
    | cons x s =>
      have hx := Bool.eq_false_iff.mp (hs x rfl)
      rw [squeeze, if_neg hx, List.dropWhile_cons_of_neg hx]
  cases s with
  | nil => rfl
  | cons x s =>
    by_cases hx : p x = true
    · rw [squeeze, if_pos hx, if_neg Bool.false_ne_true, List.dropWhile_cons_of_pos hc,
        squeeze_true, List.dropWhile_cons_of_pos hx]
      refine hhead _ fun y hy => ?_
      have hnot := List.head?_dropWhile_not p s
      rw [Option.mem_def.mp hy] at hnot
      exact hnot
    · rw [List.dropWhile_cons_of_neg hx]
      exact hhead _ fun y hy => by rw [← Option.some.inj hy]; exact Bool.eq_false_iff.mpr hx

end Spacing
