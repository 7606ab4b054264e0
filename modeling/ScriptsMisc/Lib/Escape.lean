import Mathlib.Data.List.Infix
import Mathlib.Tactic.Common

/-! # Escapes that are not escaped themselves

A letter is written as a code word, but a code word that stands in the text is left as it is.
Such an escape is not injective. Its collisions are described exactly: two texts are written
alike when they read alike once every code word is taken for its letter.
-/

namespace Escape

variable {α : Type*} [DecidableEq α]

omit [DecidableEq α] in
/-- Two maps that absorb each other identify the same elements. -/
theorem eq_iff_eq_of_absorb {f g : α → α} (hfg : ∀ x, f (g x) = f x) (hgf : ∀ x, g (f x) = g x)
    (x y : α) : f x = f y ↔ g x = g y :=
  ⟨fun h => by rw [← hgf x, h, hgf], fun h => by rw [← hfg x, h, hfg]⟩

/-! ## Code words -/

/-- A letter and the code word it is written as. The head of the code word stands nowhere else in
it, so two code words in a text never overlap. -/
structure Code (α : Type*) where
  letter : α
  head : α
  tail : List α
  letter_ne_head : letter ≠ head
  letter_notMem : letter ∉ tail
  head_notMem : head ∉ tail

/-- The code word. -/
def Code.word (code : Code α) : List α := code.head :: code.tail

/-- Write the code word for every letter. -/
def Code.encode (code : Code α) (s : List α) : List α :=
  s.flatMap fun x => if x = code.letter then code.word else [x]

/-- Read the text from left to right, the first `skip` letters left out. -/
def Code.decodeFrom (code : Code α) : (skip : ℕ) → List α → List α
  | _, [] => []
  | skip + 1, _ :: s => code.decodeFrom skip s
  | 0, x :: s =>
    if code.word.isPrefixOf (x :: s) then code.letter :: code.decodeFrom code.tail.length s
    else x :: code.decodeFrom 0 s

/-- Read every code word as its letter. -/
def Code.decode (code : Code α) (s : List α) : List α := code.decodeFrom 0 s

/-- Letters that are left to skip are not decoded. -/
theorem Code.decodeFrom_eq_decode_drop (code : Code α) (skip : ℕ) (s : List α) :
    code.decodeFrom skip s = code.decode (s.drop skip) := by
  induction s generalizing skip with
  | nil => cases skip <;> rfl
  | cons x s ih =>
    cases skip with
    | zero => rfl
    | succ skip => exact ih skip

@[simp] theorem Code.decode_nil (code : Code α) : code.decode [] = [] := rfl

@[simp] theorem Code.encode_nil (code : Code α) : code.encode [] = [] := rfl

/-- A code word is read as its letter. -/
theorem Code.decode_word_append (code : Code α) (s : List α) :
    code.decode (code.word ++ s) = code.letter :: code.decode s := by
  have hpre : code.word.isPrefixOf (code.head :: (code.tail ++ s)) = true :=
    List.isPrefixOf_iff_prefix.mpr ⟨s, rfl⟩
  rw [Code.word, List.cons_append, Code.decode, Code.decodeFrom, if_pos hpre,
    code.decodeFrom_eq_decode_drop, List.drop_left]

/-- A letter that starts no code word is read as itself. -/
theorem Code.decode_cons (code : Code α) {x : α} {s : List α} (h : ¬ code.word <+: x :: s) :
    code.decode (x :: s) = x :: code.decode s := by
  have hpre : ¬ code.word.isPrefixOf (x :: s) = true := fun hp =>
    h (List.isPrefixOf_iff_prefix.mp hp)
  rw [Code.decode, Code.decodeFrom, if_neg hpre, Code.decode]

/-- Text without the head of the code word is read as it is. -/
theorem Code.decode_eq_self (code : Code α) {s : List α} (h : code.head ∉ s) :
    code.decode s = s := by
  induction s with
  | nil => rfl
  | cons x s ih =>
    have hpre : ¬ code.word <+: x :: s := fun hp =>
      h ((List.cons_prefix_cons.mp hp).1 ▸ List.mem_cons_self)
    rw [code.decode_cons hpre, ih (fun hmem => h (List.mem_cons_of_mem _ hmem))]

/-- Parts are encoded one by one. -/
theorem Code.encode_append (code : Code α) (s t : List α) :
    code.encode (s ++ t) = code.encode s ++ code.encode t := List.flatMap_append

/-- The letter is encoded by its word. -/
theorem Code.encode_letter_cons (code : Code α) (s : List α) :
    code.encode (code.letter :: s) = code.word ++ code.encode s := by
  simp [Code.encode]

theorem Code.encode_cons (code : Code α) {x : α} (hx : x ≠ code.letter) (s : List α) :
    code.encode (x :: s) = x :: code.encode s := by
  simp [Code.encode, hx]

/-- Text without the letter is written as it is. -/
theorem Code.encode_eq_self (code : Code α) {s : List α} (h : code.letter ∉ s) :
    code.encode s = s := by
  induction s with
  | nil => rfl
  | cons x s ih =>
    rw [code.encode_cons (fun hx => h (hx ▸ List.mem_cons_self)),
      ih (fun hmem => h (List.mem_cons_of_mem _ hmem))]

/-- A letter that is written as a code word shows. -/
theorem Code.head_mem_encode (code : Code α) {s : List α} (h : code.letter ∈ s) :
    code.head ∈ code.encode s := by
  obtain ⟨s₁, s₂, rfl⟩ := List.append_of_mem h
  rw [code.encode_append, code.encode_letter_cons]
  exact List.mem_append_right _ List.mem_cons_self

/-- The word has none of the letters that are encoded. -/
theorem Code.encode_word (code : Code α) : code.encode code.word = code.word := by
  refine code.encode_eq_self fun h => ?_
  rcases List.mem_cons.mp h with h | h
  · exact code.letter_ne_head h
  · exact code.letter_notMem h

/-- A reading induction: the text is empty, starts with a code word, or starts with a letter that
starts none. -/
theorem Code.readInduction (code : Code α) {P : List α → Prop} (hnil : P [])
    (hword : ∀ s, P s → P (code.word ++ s))
    (hcons : ∀ x s, ¬ code.word <+: x :: s → P s → P (x :: s)) (s : List α) : P s := by
  induction hn : s.length using Nat.strong_induction_on generalizing s with
  | h n ih =>
    cases s with
    | nil => exact hnil
    | cons x s =>
      by_cases hpre : code.word <+: x :: s
      · obtain ⟨t, ht⟩ := hpre
        have hlen := congrArg List.length ht
        simp only [Code.word, List.length_append, List.length_cons] at hlen hn
        rw [← ht]
        exact hword t (ih _ (by omega) t rfl)
      · exact hcons x s hpre (ih _ (by simp only [List.length_cons] at hn; omega) s rfl)

/-- Decoding makes no difference to what is encoded afterwards. -/
theorem Code.encode_decode (code : Code α) (s : List α) :
    code.encode (code.decode s) = code.encode s := by
  induction s using code.readInduction with
  | hnil => rfl
  | hword s ih =>
    rw [code.decode_word_append, code.encode_letter_cons, code.encode_append, code.encode_word, ih]
  | hcons x s hpre ih =>
    rw [code.decode_cons hpre]
    by_cases hx : x = code.letter
    · rw [hx, code.encode_letter_cons, code.encode_letter_cons, ih]
    · rw [code.encode_cons hx, code.encode_cons hx, ih]

/-- Writing puts no code word at the front of a text, except for a letter. -/
theorem Code.word_prefix_of_encode (code : Code α) {x : α} {s : List α} (hx : x ≠ code.letter)
    (h : code.word <+: code.encode (x :: s)) : code.word <+: x :: s := by
  have hgen : ∀ w s : List α, code.head ∉ w → w <+: code.encode s → w <+: s := by
    intro w
    induction w with
    | nil => exact fun s _ _ => List.nil_prefix
    | cons a w ih =>
      intro s hhead hpre
      cases s with
      | nil => exact absurd (List.prefix_nil.mp hpre) (List.cons_ne_nil _ _)
      | cons y s =>
        by_cases hy : y = code.letter
        · rw [hy, code.encode_letter_cons, Code.word, List.cons_append,
            List.cons_prefix_cons] at hpre
          exact absurd (hpre.1 ▸ List.mem_cons_self) hhead
        · rw [code.encode_cons hy, List.cons_prefix_cons] at hpre
          exact List.cons_prefix_cons.mpr ⟨hpre.1,
            ih s (fun hmem => hhead (List.mem_cons_of_mem _ hmem)) hpre.2⟩
  rw [code.encode_cons hx, Code.word, List.cons_prefix_cons] at h
  exact List.cons_prefix_cons.mpr ⟨h.1, hgen code.tail s code.head_notMem h.2⟩

/-- Encoding makes no difference to what is decoded afterwards. -/
theorem Code.decode_encode (code : Code α) (s : List α) :
    code.decode (code.encode s) = code.decode s := by
  induction s using code.readInduction with
  | hnil => rfl
  | hword s ih =>
    rw [code.encode_append, code.encode_word, code.decode_word_append, code.decode_word_append, ih]
  | hcons x s hpre ih =>
    rw [code.decode_cons hpre]
    by_cases hx : x = code.letter
    · rw [hx, code.encode_letter_cons, code.decode_word_append, ih]
    · have hpre' : ¬ code.word <+: x :: code.encode s := by
        rw [← code.encode_cons hx]
        exact fun h => hpre (code.word_prefix_of_encode hx h)
      rw [code.encode_cons hx, code.decode_cons hpre', ih]

/-- Two texts are written alike exactly when they are read alike. -/
theorem Code.encode_eq_iff (code : Code α) (s t : List α) :
    code.encode s = code.encode t ↔ code.decode s = code.decode t :=
  eq_iff_eq_of_absorb code.encode_decode code.decode_encode s t

omit [DecidableEq α] in
/-- A word without `a` that starts a text ends before the first `a` of it. -/
theorem prefix_of_prefix_append_cons {a : α} {w s m : List α} (ha : a ∉ w)
    (h : w <+: s ++ a :: m) : w <+: s := by
  induction s generalizing w with
  | nil =>
    cases w with
    | nil => exact List.nil_prefix
    | cons b w => exact absurd ((List.cons_prefix_cons.mp h).1 ▸ List.mem_cons_self) ha
  | cons x s ih =>
    cases w with
    | nil => exact List.nil_prefix
    | cons b w =>
      obtain ⟨hb, htail⟩ := List.cons_prefix_cons.mp h
      exact List.cons_prefix_cons.mpr ⟨hb, ih (fun hmem => ha (List.mem_cons_of_mem _ hmem)) htail⟩

/-- A text in front of a mark that starts as the code word does, and is none, is read apart. -/
theorem Code.decode_append_mark (code : Code α) {m : List α} (hm : code.head ∉ m)
    (hne : ¬ code.tail <+: m) (s : List α) :
    code.decode (s ++ code.head :: m) = code.decode s ++ code.head :: m := by
  induction s using code.readInduction with
  | hnil =>
    have hword : ¬ code.word <+: code.head :: m := fun h =>
      hne (List.cons_prefix_cons.mp h).2
    rw [List.nil_append, code.decode_cons hword, code.decode_eq_self hm, code.decode_nil,
      List.nil_append]
  | hword s ih => rw [List.append_assoc, code.decode_word_append, ih, code.decode_word_append,
      List.cons_append]
  | hcons x s hpre ih =>
    have hpre' : ¬ code.word <+: x :: (s ++ code.head :: m) := by
      intro h
      obtain ⟨hx, htail⟩ := List.cons_prefix_cons.mp h
      -- the mark cannot start inside the code word
      exact hpre (List.cons_prefix_cons.mpr
        ⟨hx, prefix_of_prefix_append_cons code.head_notMem htail⟩)
    rw [List.cons_append, code.decode_cons hpre', ih, code.decode_cons hpre, List.cons_append]

/-- Only the empty text is read as the empty text. -/
theorem Code.decode_eq_nil_iff (code : Code α) (s : List α) : code.decode s = [] ↔ s = [] := by
  induction s using code.readInduction with
  | hnil => simp
  | hword s _ =>
    rw [code.decode_word_append]
    exact iff_of_false (List.cons_ne_nil _ _) (List.cons_ne_nil _ _)
  | hcons x s hpre _ => simp [code.decode_cons hpre]

/-- Nothing else is encoded as the empty text. -/
theorem Code.encode_eq_nil_iff (code : Code α) (s : List α) : code.encode s = [] ↔ s = [] := by
  rw [← code.decode_eq_nil_iff, code.decode_encode, code.decode_eq_nil_iff]

/-- Reading keeps a last letter that is no letter of the escape. -/
theorem Code.getLast?_decode_iff (code : Code α) {d : α} (hd : d ≠ code.letter)
    (hw : d ∉ code.word) (s : List α) :
    (code.decode s).getLast? = some d ↔ s.getLast? = some d := by
  have hcons : ∀ (x : α) (t : List α), t ≠ [] → (x :: t).getLast? = t.getLast? := by
    intro x t ht
    obtain ⟨y, t, rfl⟩ := List.exists_cons_of_ne_nil ht
    rfl
  induction s using code.readInduction with
  | hnil => simp
  | hword s ih =>
    rw [code.decode_word_append]
    by_cases hs : s = []
    · subst hs
      rw [code.decode_nil, List.append_nil]
      refine iff_of_false (by simpa using hd.symm) fun h => hw (List.mem_of_getLast? h)
    · obtain ⟨y, hy⟩ : ∃ y, s.getLast? = some y := ⟨_, List.getLast?_eq_some_getLast hs⟩
      rw [hcons _ _ (fun h => hs ((code.decode_eq_nil_iff s).mp h)), List.getLast?_append, hy,
        Option.some_or, ← hy]
      exact ih
  | hcons x s hpre ih =>
    rw [code.decode_cons hpre]
    by_cases hs : s = []
    · subst hs
      rfl
    · rw [hcons _ _ (fun h => hs ((code.decode_eq_nil_iff s).mp h)), hcons _ _ hs]
      exact ih

/-- A text that does not end with a separator is not written with one at its end. -/
theorem Code.getLast?_encode_ne (code : Code α) {sep : α} (hword : sep ∉ code.word) {s : List α}
    (h : s.getLast? ≠ some sep) : (code.encode s).getLast? ≠ some sep := by
  cases s using List.reverseRecOn with
  | nil => exact h
  | append_singleton s x =>
    by_cases hx : x = code.letter
    · subst hx
      have hlast : code.encode [code.letter] = code.word := by
        rw [code.encode_letter_cons]
        exact List.append_nil _
      rw [code.encode_append, hlast, List.getLast?_append]
      obtain ⟨y, hy⟩ : ∃ y, code.word.getLast? = some y :=
        ⟨_, List.getLast?_eq_some_getLast (List.cons_ne_nil _ _)⟩
      rw [hy, Option.some_or]
      exact fun hsep => hword (Option.some.inj hsep ▸ List.mem_of_getLast? hy)
    · rw [code.encode_append, code.encode_cons hx]
      simpa using h

/-! ## Segments -/

omit [DecidableEq α] in
/-- Apply `f` to every segment but the last and `g` to the last. -/
def mapSegments {β : Type*} (f g : α → β) : List α → List β
  | [] => []
  | [x] => [g x]
  | x :: y :: xs => f x :: mapSegments f g (y :: xs)

omit [DecidableEq α] in
/-- In front of others a segment is not the last one. -/
theorem mapSegments_cons {β : Type*} (f g : α → β) (x : α) {xs : List α} (h : xs ≠ []) :
    mapSegments f g (x :: xs) = f x :: mapSegments f g xs := by
  cases xs with
  | nil => exact absurd rfl h
  | cons y xs => rfl

omit [DecidableEq α] in
/-- Segment lists are mapped alike by `f` and `g` when they are by maps that identify the same
segments. -/
theorem mapSegments_eq_iff {β γ : Type*} {f g : α → β} {f' g' : α → γ}
    (hf : ∀ x y, f x = f y ↔ f' x = f' y) (hg : ∀ x y, g x = g y ↔ g' x = g' y)
    (xs ys : List α) : mapSegments f g xs = mapSegments f g ys ↔
      mapSegments f' g' xs = mapSegments f' g' ys := by
  induction xs generalizing ys with
  | nil => cases ys with
    | nil => simp
    | cons y ys => cases ys <;> simp [mapSegments]
  | cons x xs ih =>
    cases ys with
    | nil => cases xs <;> simp [mapSegments]
    | cons y ys =>
      have htail := ih ys
      cases xs with
      | nil => cases ys with
        | nil => simpa [mapSegments] using hg x y
        | cons z ys => cases ys <;> simp [mapSegments]
      | cons w xs => cases ys with
        | nil => cases xs <;> simp [mapSegments]
        | cons z ys =>
          simp only [mapSegments, List.cons.injEq]
          rw [hf x y, htail]

omit [DecidableEq α] in
/-- A map of the result is a map of both functions. -/
theorem map_mapSegments {β γ : Type*} (h : β → γ) (f g : α → β) (xs : List α) :
    (mapSegments f g xs).map h = mapSegments (h ∘ f) (h ∘ g) xs := by
  induction xs with
  | nil => rfl
  | cons x xs ih =>
    cases xs with
    | nil => rfl
    | cons y xs =>
      rw [mapSegments_cons f g x (List.cons_ne_nil y xs),
        mapSegments_cons _ _ x (List.cons_ne_nil y xs), List.map_cons, ih]
      rfl

omit [DecidableEq α] in
/-- Related segments are mapped alike by maps that take related segments to the same. -/
theorem mapSegments_congr {β γ : Type*} {r : α → β → Prop} {f g : α → γ} {f' g' : β → γ}
    (hf : ∀ x y, r x y → f x = f' y) (hg : ∀ x y, r x y → g x = g' y) {xs : List α} {ys : List β}
    (h : List.Forall₂ r xs ys) : mapSegments f g xs = mapSegments f' g' ys := by
  induction h with
  | nil => rfl
  | cons hxy hrest ih =>
    cases hrest with
    | nil => rw [mapSegments, mapSegments, hg _ _ hxy]
    | cons hxy' hrest' => rw [mapSegments, mapSegments, hf _ _ hxy, ih]

omit [DecidableEq α] in
theorem mapSegments_ne_nil {β : Type*} (f g : α → β) {xs : List α} (h : xs ≠ []) :
    mapSegments f g xs ≠ [] := by
  cases xs with
  | nil => exact absurd rfl h
  | cons x xs => cases xs <;> exact List.cons_ne_nil _ _

omit [DecidableEq α] in
/-- All segments but the last are mapped by the first function. -/
theorem dropLast_mapSegments {β : Type*} (f g : α → β) (xs : List α) :
    (mapSegments f g xs).dropLast = xs.dropLast.map f := by
  induction xs with
  | nil => rfl
  | cons x xs ih =>
    cases xs with
    | nil => rfl
    | cons y xs =>
      rw [mapSegments_cons f g x (List.cons_ne_nil y xs),
        List.dropLast_cons_of_ne_nil (mapSegments_ne_nil f g (List.cons_ne_nil y xs)), ih]
      rfl

omit [DecidableEq α] in
/-- The last one is mapped by the second. -/
theorem getLast?_mapSegments {β : Type*} (f g : α → β) (xs : List α) :
    (mapSegments f g xs).getLast? = xs.getLast?.map g := by
  induction xs with
  | nil => rfl
  | cons x xs ih =>
    cases xs with
    | nil => rfl
    | cons y xs =>
      obtain ⟨z, zs, hz⟩ :=
        List.exists_cons_of_ne_nil (mapSegments_ne_nil f g (List.cons_ne_nil y xs))
      rw [mapSegments_cons f g x (List.cons_ne_nil y xs)]
      rw [hz] at ih ⊢
      rw [List.getLast?_cons_cons, List.getLast?_cons_cons, ih]

omit [DecidableEq α] in
/-- The segments `xs` end inside `ys`: `same` compares the inner segments, and `ends` the last of
`xs` with one that others follow. -/
def endsWithin (same ends : α → α → Bool) : List α → List α → Bool
  | [x], y :: _ :: _ => ends x y
  | x :: x' :: xs, y :: ys => same x y && endsWithin same ends (x' :: xs) ys
  | _, _ => false

omit [DecidableEq α] in
/-- Segments that end inside others are written as a proper prefix. -/
theorem endsWithin_iff {β : Type*} {f g : α → β} {same ends : α → α → Bool}
    (hsame : ∀ x y, same x y = true ↔ f x = f y) (hends : ∀ x y, ends x y = true ↔ g x = f y)
    {xs : List α} (hne : xs ≠ []) (ys : List α) :
    endsWithin same ends xs ys = true ↔
      mapSegments f g xs <+: mapSegments f g ys ∧ mapSegments f g xs ≠ mapSegments f g ys := by
  induction xs generalizing ys with
  | nil => exact absurd rfl hne
  | cons x xs ih =>
    cases xs with
    | nil =>
      match ys with
      | [] => simp [endsWithin, mapSegments]
      | [y] => simp [endsWithin, mapSegments]
      | y :: y' :: ys =>
        have hlong := mapSegments_ne_nil f g (List.cons_ne_nil y' ys)
        rw [endsWithin, hends, mapSegments, mapSegments_cons f g y (List.cons_ne_nil y' ys),
          List.cons_prefix_cons, ne_eq, List.cons.injEq]
        simp [hlong.symm]
    | cons x' xs =>
      have hlong := mapSegments_ne_nil f g (List.cons_ne_nil x' xs)
      rw [mapSegments_cons f g x (List.cons_ne_nil x' xs)]
      match ys with
      | [] => simp [endsWithin, mapSegments]
      | [y] => simp [endsWithin, mapSegments, hlong]
      | y :: y' :: ys =>
        rw [endsWithin, Bool.and_eq_true, hsame, ih (List.cons_ne_nil x' xs),
          mapSegments_cons f g y (List.cons_ne_nil y' ys), List.cons_prefix_cons, ne_eq, ne_eq,
          List.cons.injEq]
        tauto

omit [DecidableEq α] in
/-- Prefixes are kept by maps that identify the same segments. -/
theorem map_prefix_map_iff {β γ : Type*} {f : α → β} {f' : α → γ}
    (hf : ∀ x y, f x = f y ↔ f' x = f' y) (xs ys : List α) :
    xs.map f <+: ys.map f ↔ xs.map f' <+: ys.map f' := by
  induction xs generalizing ys with
  | nil => simp
  | cons x xs ih =>
    cases ys with
    | nil => simp
    | cons y ys => simp only [List.map_cons, List.cons_prefix_cons, hf x y, ih ys]

omit [DecidableEq α] in
/-- Dropping the empty segments commutes with maps that keep a segment empty or not, when the last
segment is not empty. -/
theorem filter_mapSegments {f g : List α → List α} (hf : ∀ x, f x = [] ↔ x = [])
    (hg : ∀ x, g x = [] ↔ x = []) (xs : List (List α)) (hlast : xs.getLast? ≠ some []) :
    (mapSegments f g xs).filter (· ≠ []) = mapSegments f g (xs.filter (· ≠ [])) := by
  induction xs with
  | nil => rfl
  | cons x xs ih =>
    by_cases hxs : xs = []
    · subst hxs
      have hx : x ≠ [] := by simpa using hlast
      have hgx : g x ≠ [] := fun h => hx ((hg x).mp h)
      simp [mapSegments, hx, hgx]
    · obtain ⟨y, ys, rfl⟩ := List.exists_cons_of_ne_nil hxs
      have hlast' : (y :: ys).getLast? ≠ some [] := by
        rw [List.getLast?_cons_cons] at hlast
        exact hlast
      have hkeep : (y :: ys).filter (· ≠ []) ≠ [] := by
        intro hnil
        obtain ⟨z, hz⟩ : ∃ z, (y :: ys).getLast? = some z :=
          ⟨_, List.getLast?_eq_some_getLast hxs⟩
        have hmem := List.filter_eq_nil_iff.mp hnil z (List.mem_of_getLast? hz)
        exact hlast' (by rw [hz]; simpa using hmem)
      rw [mapSegments_cons f g x hxs]
      by_cases hx : x = []
      · have hfx : f x = [] := (hf x).mpr hx
        rw [List.filter_cons_of_neg (by simpa using hfx),
          List.filter_cons_of_neg (by simpa using hx), ih hlast']
      · have hfx : f x ≠ [] := fun h => hx ((hf x).mp h)
        rw [List.filter_cons_of_pos (by simpa using hfx),
          List.filter_cons_of_pos (by simpa using hx), mapSegments_cons f g x hkeep, ih hlast']

/-- Text without the separator lengthens the first segment. -/
theorem splitOn_append_of_notMem {sep : α} {w : List α} (hw : sep ∉ w) (t : List α) :
    (w ++ t).splitOn sep = (t.splitOn sep).modifyHead (w ++ ·) := by
  induction w with
  | nil =>
    obtain ⟨hd, tl, hsplit⟩ := List.exists_cons_of_ne_nil (List.splitOn_ne_nil sep t)
    rw [List.nil_append, hsplit]
    rfl
  | cons x w ih =>
    have hx : ¬ (x == sep) = true := by
      simpa using fun h : x = sep => hw (h ▸ List.mem_cons_self)
    rw [List.cons_append, List.splitOn_cons_eq_if_modifyHead, if_neg hx,
      ih (fun hmem => hw (List.mem_cons_of_mem _ hmem)), List.modifyHead_modifyHead]
    rfl

/-- A text whose first segment is empty and not the last starts with the separator. -/
theorem head?_of_splitOn {sep : α} {s seg : List α} {tl : List (List α)}
    (h : s.splitOn sep = [] :: seg :: tl) : s.head? = some sep := by
  cases s with
  | nil => simp at h
  | cons y s =>
    rw [List.splitOn_cons_eq_if_modifyHead] at h
    split at h
    · next hy => simpa using hy
    · obtain ⟨hd', tl', hsplit⟩ := List.exists_cons_of_ne_nil (List.splitOn_ne_nil sep s)
      simp [hsplit] at h

/-- Splitting commutes with writing code words that hold no separator. -/
theorem Code.splitOn_encode (code : Code α) {sep : α} (hletter : sep ≠ code.letter)
    (hword : sep ∉ code.word) (s : List α) :
    (code.encode s).splitOn sep = (s.splitOn sep).map code.encode := by
  induction s with
  | nil => simp
  | cons x s ih =>
    obtain ⟨hd, tl, hsplit⟩ := List.exists_cons_of_ne_nil (List.splitOn_ne_nil sep s)
    by_cases hx : x = code.letter
    · subst hx
      rw [code.encode_letter_cons, splitOn_append_of_notMem hword, ih,
        List.splitOn_cons_eq_if_modifyHead, if_neg (by simpa using fun h => hletter h.symm), hsplit]
      simp [code.encode_letter_cons]
    · rw [code.encode_cons hx, List.splitOn_cons_eq_if_modifyHead, ih,
        List.splitOn_cons_eq_if_modifyHead, hsplit]
      by_cases hsep : x = sep
      · simp [hsep]
      · simp [hsep, code.encode_cons hx]

/-! ## Letters written here and there -/

/-- Some letters of a text are written as code words. -/
inductive Code.Written (code : Code α) : List α → List α → Prop
  | nil : code.Written [] []
  | cons (x : α) {s t : List α} (h : code.Written s t) : code.Written (x :: s) (x :: t)
  | word {s t : List α} (h : code.Written s t) :
      code.Written (code.letter :: s) (code.word ++ t)

omit [DecidableEq α] in
theorem Code.written_refl (code : Code α) (s : List α) : code.Written s s := by
  induction s with
  | nil => exact .nil
  | cons x s ih => exact .cons x ih

/-- A text may be written in its code. -/
theorem Code.written_encode (code : Code α) (s : List α) : code.Written s (code.encode s) := by
  induction s with
  | nil => exact .nil
  | cons x s ih =>
    by_cases hx : x = code.letter
    · rw [hx, code.encode_letter_cons]
      exact .word ih
    · rw [code.encode_cons hx]
      exact .cons x ih

omit [DecidableEq α] in
/-- A common prefix makes no difference. -/
theorem Code.Written.append_left {code : Code α} {s t : List α} (h : code.Written s t)
    (w : List α) : code.Written (w ++ s) (w ++ t) := by
  induction w with
  | nil => exact h
  | cons x w ih => exact .cons x ih

omit [DecidableEq α] in
/-- A word without code letters stays as it is, and no other text is written as it. -/
theorem Code.Written.eq_iff {code : Code α} {s t : List α} (h : code.Written s t) {w : List α}
    (hletter : code.letter ∉ w) (hhead : code.head ∉ w) : t = w ↔ s = w := by
  induction h generalizing w with
  | nil => exact Iff.rfl
  | cons x h ih =>
    cases w with
    | nil => simp
    | cons y w =>
      rw [List.cons.injEq, List.cons.injEq]
      exact and_congr_right fun _ => ih (fun hmem => hletter (List.mem_cons_of_mem y hmem))
        fun hmem => hhead (List.mem_cons_of_mem y hmem)
  | word h ih =>
    refine iff_of_false ?_ ?_
    · rintro rfl
      exact hhead List.mem_cons_self
    · rintro rfl
      exact hletter List.mem_cons_self

/-- What is written in two ways is so segment by segment. -/
theorem Code.Written.splitOn {code : Code α} {s t : List α} (h : code.Written s t) (sep : α)
    (hletter : sep ≠ code.letter) (hword : sep ∉ code.word) :
    List.Forall₂ code.Written (s.splitOn sep) (t.splitOn sep) := by
  induction h with
  | nil => exact .cons .nil .nil
  | @cons x s t h ih =>
    obtain ⟨y, ys, hs⟩ := List.exists_cons_of_ne_nil (List.splitOn_ne_nil sep s)
    obtain ⟨z, zs, ht⟩ := List.exists_cons_of_ne_nil (List.splitOn_ne_nil sep t)
    rw [List.splitOn_cons_eq_if_modifyHead, List.splitOn_cons_eq_if_modifyHead, hs, ht]
    rw [hs, ht] at ih
    split
    · exact .cons .nil ih
    · cases ih with
      | cons hyz hrest => exact .cons (.cons x hyz) hrest
  | @word s t h ih =>
    obtain ⟨y, ys, hs⟩ := List.exists_cons_of_ne_nil (List.splitOn_ne_nil sep s)
    obtain ⟨z, zs, ht⟩ := List.exists_cons_of_ne_nil (List.splitOn_ne_nil sep t)
    rw [splitOn_append_of_notMem hword, List.splitOn_cons_eq_if_modifyHead, hs, ht,
      if_neg (by simpa using hletter.symm)]
    rw [hs, ht] at ih
    cases ih with
    | cons hyz hrest => exact .cons (.word hyz) hrest

/-! ## Marked segment ends -/

/-- A mark written between a `dot` and the separator behind it. -/
structure Mark (α : Type*) where
  dot : α
  sep : α
  text : List α
  dot_ne_sep : dot ≠ sep
  sep_notMem : sep ∉ text
  last : α
  text_getLast? : text.getLast? = some last
  last_ne_dot : last ≠ dot

/-- Write the mark between every `dot` and a separator behind it. -/
def Mark.write (m : Mark α) : List α → List α
  | [] => []
  | x :: s => if x = m.dot ∧ s.head? = some m.sep then x :: m.text ++ m.write s else x :: m.write s

/-- The mark on one segment. -/
def Mark.add (m : Mark α) (seg : List α) : List α :=
  if seg.getLast? = some m.dot then seg ++ m.text else seg

/-- A segment without the mark that stands behind its final `dot`. -/
def Mark.read (m : Mark α) (seg : List α) : List α :=
  if m.dot :: m.text <:+ seg then seg.take (seg.length - m.text.length) else seg

/-- The marks go to the segments that a separator ends. -/
theorem Mark.splitOn_write (m : Mark α) (s : List α) :
    (m.write s).splitOn m.sep = mapSegments m.add id (s.splitOn m.sep) := by
  induction s with
  | nil => simp [Mark.write, mapSegments]
  | cons x s ih =>
    obtain ⟨hd, tl, hsplit⟩ := List.exists_cons_of_ne_nil (List.splitOn_ne_nil m.sep s)
    by_cases hmark : x = m.dot ∧ s.head? = some m.sep
    · obtain ⟨t, rfl⟩ : ∃ t, s = m.sep :: t := by
        cases s with
        | nil => simp at hmark
        | cons y t => exact ⟨t, by simpa using hmark.2⟩
      have hw : m.sep ∉ x :: m.text := by
        rw [hmark.1]
        simpa using ⟨fun h => m.dot_ne_sep h.symm, m.sep_notMem⟩
      have hne := List.splitOn_ne_nil m.sep t
      have hself : (m.sep :: t).splitOn m.sep = [] :: t.splitOn m.sep := by
        rw [List.splitOn_cons_eq_if_modifyHead, if_pos (beq_self_eq_true _)]
      rw [Mark.write, if_pos hmark, splitOn_append_of_notMem hw, ih, hself,
        List.splitOn_cons_eq_if_modifyHead, hself,
        if_neg (by simpa using hmark.1 ▸ m.dot_ne_sep), List.modifyHead_cons,
        mapSegments_cons _ _ _ hne, mapSegments_cons _ _ _ hne]
      simp [Mark.add, hmark.1]
    · rw [Mark.write, if_neg hmark, List.splitOn_cons_eq_if_modifyHead, ih,
        List.splitOn_cons_eq_if_modifyHead, hsplit]
      by_cases hsep : x = m.sep
      · rw [if_pos (by simpa using hsep), if_pos (by simpa using hsep),
          mapSegments_cons _ _ _ (List.cons_ne_nil _ _)]
        rfl
      · rw [if_neg (by simpa using hsep), if_neg (by simpa using hsep), List.modifyHead_cons]
        cases tl with
        | nil => rfl
        | cons seg tl =>
          rw [mapSegments_cons _ _ _ (List.cons_ne_nil _ _), List.modifyHead_cons,
            mapSegments_cons _ _ _ (List.cons_ne_nil _ _)]
          congr 1
          cases hd with
          | cons y hd =>
            simp only [Mark.add, List.getLast?_cons_cons, List.cons_append]
            split <;> rfl
          | nil =>
            -- an empty segment ends at once, so the letter is not a marked `dot`
            have hdot : x ≠ m.dot := fun h => hmark ⟨h, head?_of_splitOn hsplit⟩
            simp [Mark.add, hdot]

/-- The last letter is not touched. -/
theorem Mark.getLast?_write (m : Mark α) (s : List α) : (m.write s).getLast? = s.getLast? := by
  induction s with
  | nil => rfl
  | cons x s ih =>
    cases s with
    | nil => simp [Mark.write]
    | cons y s =>
      have hlast : (m.write (y :: s)).getLast? =
          some ((y :: s).getLast (List.cons_ne_nil y s)) := by
        rw [ih, List.getLast?_eq_some_getLast]
      rw [Mark.write, List.getLast?_cons_cons, List.getLast?_eq_some_getLast (List.cons_ne_nil y s)]
      split
      · rw [List.getLast?_append, hlast, Option.some_or]
      · rw [List.getLast?_cons, hlast]
        rfl

/-- The mark goes to the last piece of the segment. -/
theorem Mark.splitOn_add (m : Mark α) {sep : α} (hdot : sep ≠ m.dot) (htext : sep ∉ m.text)
    (seg : List α) : (m.add seg).splitOn sep = mapSegments id m.add (seg.splitOn sep) := by
  have hnil : m.add [] = [] := by simp [Mark.add]
  induction seg with
  | nil => simp [hnil, mapSegments]
  | cons x seg ih =>
    cases seg with
    | nil =>
      by_cases hx : x = sep
      · subst hx
        simp [Mark.add, hdot, List.splitOn_cons_eq_if_modifyHead, mapSegments]
      · have hmem : sep ∉ m.add [x] := by
          rw [Mark.add]
          split <;> simp [Ne.symm hx, htext]
        have hmem' : sep ∉ [x] := by simpa using Ne.symm hx
        rw [List.splitOn_eq_singleton hmem, List.splitOn_eq_singleton hmem']
        rfl
    | cons y seg =>
      have hcons : ∀ ys : List α, ys ≠ [] → m.add (x :: ys) = x :: m.add ys := by
        intro ys hys
        obtain ⟨z, zs, rfl⟩ := List.exists_cons_of_ne_nil hys
        rw [Mark.add, Mark.add, List.getLast?_cons_cons]
        split <;> rfl
      obtain ⟨hd, tl, hsplit⟩ := List.exists_cons_of_ne_nil (List.splitOn_ne_nil sep (y :: seg))
      rw [hcons _ (List.cons_ne_nil y seg), List.splitOn_cons_eq_if_modifyHead x (m.add (y :: seg)),
        ih, List.splitOn_cons_eq_if_modifyHead x (y :: seg), hsplit]
      split
      · rw [mapSegments_cons _ _ _ (List.cons_ne_nil hd tl)]
        rfl
      · cases tl with
        | cons z tl =>
          rw [mapSegments_cons _ _ _ (List.cons_ne_nil z tl), List.modifyHead_cons,
            List.modifyHead_cons, mapSegments_cons _ _ _ (List.cons_ne_nil z tl)]
          rfl
        | nil =>
          -- a single piece is the whole segment
          have hpiece : hd ≠ [] := by
            have hjoin : [sep].intercalate ((y :: seg).splitOn sep) = y :: seg :=
              List.intercalate_splitOn sep
            rw [hsplit] at hjoin
            rintro rfl
            exact absurd hjoin (by simp)
          rw [mapSegments, List.modifyHead_cons, List.modifyHead_cons, mapSegments,
            hcons hd hpiece]

omit [DecidableEq α] in
/-- A marked segment ends as the mark does. -/
theorem Mark.getLast?_append_text (m : Mark α) (seg : List α) :
    (seg ++ m.text).getLast? = some m.last := by
  rw [List.getLast?_append, m.text_getLast?, Option.some_or]

/-- The mark is taken off after its dot. -/
theorem Mark.read_append_dot (m : Mark α) (seg : List α) :
    m.read (seg ++ m.dot :: m.text) = seg ++ [m.dot] := by
  have hsuf : m.dot :: m.text <:+ seg ++ m.dot :: m.text := List.suffix_append _ _
  rw [Mark.read, if_pos hsuf, List.append_cons, List.length_append, Nat.add_sub_cancel,
    List.take_left]

/-- A mark that is added is not read. -/
theorem Mark.read_add (m : Mark α) (seg : List α) : m.read (m.add seg) = m.read seg := by
  by_cases hdot : seg.getLast? = some m.dot
  · obtain ⟨ys, rfl⟩ := List.getLast?_eq_some_iff.mp hdot
    have hnot : ¬ m.dot :: m.text <:+ ys ++ [m.dot] := by
      rintro ⟨t, ht⟩
      have hlast := congrArg List.getLast? ht
      rw [List.append_cons, m.getLast?_append_text, hdot, Option.some.injEq] at hlast
      exact m.last_ne_dot hlast
    rw [Mark.add, if_pos hdot, ← List.append_cons, m.read_append_dot, Mark.read, if_neg hnot]
  · rw [Mark.add, if_neg hdot]

/-- Reading makes no difference to what is marked afterwards. -/
theorem Mark.add_read (m : Mark α) (seg : List α) : m.add (m.read seg) = m.add seg := by
  by_cases hsuf : m.dot :: m.text <:+ seg
  · obtain ⟨t, rfl⟩ := hsuf
    have hlast : ¬ (t ++ m.dot :: m.text).getLast? = some m.dot := by
      rw [List.append_cons, m.getLast?_append_text, Option.some.injEq]
      exact m.last_ne_dot
    rw [m.read_append_dot, Mark.add, if_pos (by simp), Mark.add, if_neg hlast, ← List.append_cons]
  · rw [Mark.read, if_neg hsuf]

/-- Two segments are marked alike exactly when they are read alike. -/
theorem Mark.add_eq_iff (m : Mark α) (s t : List α) : m.add s = m.add t ↔ m.read s = m.read t :=
  eq_iff_eq_of_absorb m.add_read m.read_add s t

end Escape
