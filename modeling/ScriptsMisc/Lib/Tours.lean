import ScriptsMisc.Lib.Reports

/-! # Checks on the way

A program goes from place to place and writes lines to a log about what it finds at some of them.
Its tour tells where it goes and what it visits there, without the log. A program that follows a
tour ends where the tour does, and its log has grown by the lines of the visits, in their order: so
nothing that it writes decides where it goes.
-/

namespace Tours

open Reports

variable {S P V E α : Type*}

/-! ## Tours -/

/-- From a place to the visits on the way and the place at the end, if there is one. -/
abbrev Tour (P V : Type*) := P → Option (List V × P)

/-- One tour after the other. -/
def Tour.andThen (g g' : Tour P V) : Tour P V := fun p =>
  (g p).bind fun x => (g' x.2).map fun y => (x.1 ++ y.1, y.2)

/-- A tour for each element of a list. -/
def Tour.each (g : α → Tour P V) : List α → Tour P V
  | [] => fun p => some ([], p)
  | x :: xs => (g x).andThen (Tour.each g xs)

/-- Three tours may be joined in either way. -/
theorem Tour.andThen_assoc (g g' g'' : Tour P V) :
    (g.andThen g').andThen g'' = g.andThen (g'.andThen g'') := by
  funext p
  simp only [Tour.andThen]
  cases g p with
  | none => rfl
  | some x =>
    simp only [Option.bind_some]
    cases g' x.2 with
    | none => rfl
    | some y => cases hz : g'' y.2 <;> simp [hz]

/-- A list in two parts makes two tours. -/
theorem Tour.each_append (g : α → Tour P V) (xs ys : List α) :
    Tour.each g (xs ++ ys) = (Tour.each g xs).andThen (Tour.each g ys) := by
  induction xs with
  | nil =>
    funext p
    exact Option.map_id'.symm
  | cons x xs ih => rw [List.cons_append, Tour.each, Tour.each, ih, Tour.andThen_assoc]

/-! ## Programs that follow them -/

/-- The place and the log of a program are kept apart. -/
structure Recorder (S P E : Type*) where
  place : S → P
  log : S → List E

/-- The program ends where the tour does, with the lines of its visits. -/
def Follows (R : Recorder S P E) (lines : V → Option (List E)) (f : S → Option S)
    (g : Tour P V) : Prop :=
  ∀ s, (f s).map (fun s' => (R.place s', R.log s')) = (g (R.place s)).bind fun x =>
    (collect lines x.1).map fun l => (x.2, R.log s ++ l)

variable {R : Recorder S P E} {lines : V → Option (List E)} {f f' : S → Option S}
  {g g' : Tour P V}

/-- A program that changes its place first. -/
theorem Follows.after {m : S → S} {h : P → P} (hplace : ∀ s, R.place (m s) = h (R.place s))
    (hlog : ∀ s, R.log (m s) = R.log s) (hf : Follows R lines f g) :
    Follows R lines (fun s => f (m s)) (fun p => g (h p)) := by
  intro s
  rw [hf (m s), hplace, hlog]

theorem follows_stay : Follows R lines some (fun p => some ([], p)) := by
  intro s
  simp [collect]

/-- A program that does not leave its place and writes the lines of a visit. -/
theorem follows_visit {v : P → V} (h : ∀ s, (f s).map (fun s' => (R.place s', R.log s')) =
    (lines (v (R.place s))).map fun l => (R.place s, R.log s ++ l)) :
    Follows R lines f (fun p => some ([v p], p)) := by
  intro s
  rw [h s]
  cases hlines : lines (v (R.place s)) <;> simp [collect, hlines]

/-- A value that is had at the place decides how to go on. -/
theorem Follows.value {o : P → Option α} {f : α → S → Option S} {g : α → Tour P V}
    (h : ∀ a, Follows R lines (f a) (g a)) :
    Follows R lines (fun s => (o (R.place s)).bind fun a => f a s)
      (fun p => (o p).bind fun a => g a p) := by
  intro s
  dsimp only
  cases o (R.place s) with
  | none => rfl
  | some a => exact h a s

/-- A sequence follows one tour after the other. -/
theorem Follows.andThen (hf : Follows R lines f g) (hf' : Follows R lines f' g') :
    Follows R lines (fun s => (f s).bind f') (g.andThen g') := by
  intro s
  have hs := hf s
  rw [Tour.andThen]
  dsimp only
  cases hg : g (R.place s) with
  | none =>
    rw [hg, Option.bind_none, Option.map_eq_none_iff] at hs
    simp [hs]
  | some x =>
    rw [hg, Option.bind_some] at hs
    cases hl : collect lines x.1 with
    | none =>
      rw [hl, Option.map_none, Option.map_eq_none_iff] at hs
      cases hg' : g' x.2 <;> simp [hs, hg', collect_append, hl]
    | some l =>
      rw [hl, Option.map_some, Option.map_eq_some_iff] at hs
      obtain ⟨s', hs', hview⟩ := hs
      obtain ⟨hplace, hlog⟩ := Prod.mk.inj hview
      rw [hs', Option.bind_some, hf' s', hplace, hlog]
      cases hg' : g' x.2 with
      | none => simp [hg']
      | some y =>
        cases hl' : collect lines y.1 <;> simp [hg', collect_append, hl, hl']

/-- A loop follows the tours of its rounds. -/
theorem Follows.each {f : S → α → Option S} {g : α → Tour P V}
    (h : ∀ x, Follows R lines (fun s => f s x) (g x)) (xs : List α) :
    Follows R lines (fun s => xs.foldlM f s) (Tour.each g xs) := by
  induction xs with
  | nil => exact follows_stay
  | cons x xs ih => exact (h x).andThen ih

/-- Where the program ends its tour has ended, with visits that have lines. -/
theorem Follows.exists_visits (h : Follows R lines f g) {s s' : S} (hf : f s = some s') :
    ∃ vs l, g (R.place s) = some (vs, R.place s') ∧ collect lines vs = some l ∧
      R.log s' = R.log s ++ l := by
  have hs := h s
  rw [hf, Option.map_some, eq_comm, Option.bind_eq_some_iff] at hs
  obtain ⟨⟨vs, p⟩, hg, hlines⟩ := hs
  obtain ⟨l, hl, hview⟩ := Option.map_eq_some_iff.mp hlines
  obtain ⟨hplace, hlog⟩ := Prod.mk.inj hview
  exact ⟨vs, l, hplace ▸ hg, hl, hlog.symm⟩

/-- What each round of a loop keeps the loop keeps. -/
theorem foldlM_keeps {f : S → α → Option S} {I : S → Prop}
    (hf : ∀ s x s', f s x = some s' → I s → I s') {xs : List α} {s s' : S}
    (h : xs.foldlM f s = some s') (hs : I s) : I s' := by
  induction xs generalizing s with
  | nil => exact Option.some.inj h ▸ hs
  | cons x xs ih =>
    obtain ⟨s₁, hround, hrest⟩ := Option.bind_eq_some_iff.mp h
    exact ih hrest (hf s x s₁ hround hs)

/-! ## Verdicts -/

/-- All lines are good when those of each visit are. -/
theorem collect_forall_iff {good : E → Prop} {vs : List V} :
    (∃ l, collect lines vs = some l ∧ ∀ e ∈ l, good e) ↔
      ∀ v ∈ vs, ∃ l, lines v = some l ∧ ∀ e ∈ l, good e := by
  induction vs with
  | nil => simp [collect]
  | cons v vs ih =>
    rw [List.forall_mem_cons, ← ih]
    constructor
    · rintro ⟨l, hl, hgood⟩
      obtain ⟨l₁, hv, hrest⟩ := Option.bind_eq_some_iff.mp hl
      obtain ⟨l₂, hvs, rfl⟩ := Option.map_eq_some_iff.mp hrest
      obtain ⟨hgood₁, hgood₂⟩ := List.forall_mem_append.mp hgood
      exact ⟨⟨l₁, hv, hgood₁⟩, l₂, hvs, hgood₂⟩
    · rintro ⟨⟨l₁, hv, hgood₁⟩, l₂, hvs, hgood₂⟩
      refine ⟨l₁ ++ l₂, ?_, List.forall_mem_append.mpr ⟨hgood₁, hgood₂⟩⟩
      rw [collect, hv, Option.bind_some, hvs, Option.map_some]

/-- A program ends with nothing but good lines exactly when it starts with such lines and its tour
ends with visits that all have such lines. -/
theorem Follows.good_iff (h : Follows R lines f g) (good : E → Prop) (s : S) :
    (∃ s', f s = some s' ∧ ∀ e ∈ R.log s', good e) ↔
      (∀ e ∈ R.log s, good e) ∧ ∃ vs p, g (R.place s) = some (vs, p) ∧
        ∀ v ∈ vs, ∃ l, lines v = some l ∧ ∀ e ∈ l, good e := by
  constructor
  · rintro ⟨s', hf, hgood⟩
    obtain ⟨vs, l, hg, hl, hlog⟩ := h.exists_visits hf
    rw [hlog] at hgood
    obtain ⟨hstart, hnew⟩ := List.forall_mem_append.mp hgood
    exact ⟨hstart, vs, _, hg, collect_forall_iff.mp ⟨l, hl, hnew⟩⟩
  · rintro ⟨hstart, vs, p, hg, hvisits⟩
    obtain ⟨l, hl, hnew⟩ := collect_forall_iff.mpr hvisits
    have hs := h s
    rw [hg, Option.bind_some, hl, Option.map_some, Option.map_eq_some_iff] at hs
    obtain ⟨s', hf, hview⟩ := hs
    refine ⟨s', hf, ?_⟩
    rw [(Prod.mk.inj hview).2]
    exact List.forall_mem_append.mpr ⟨hstart, hnew⟩

end Tours
