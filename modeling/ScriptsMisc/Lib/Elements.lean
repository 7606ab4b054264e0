import ScriptsMisc.Lib.Text

/-! # Elements found by their ids

A script gives ids to the elements of a document, maybe several to one element, of which the last
one stays. An id is looked up in document order.
-/

namespace Elements

variable {α ι : Type} [DecidableEq α]

/-- The id of an element after some assignments, the last one first. -/
def idOf (ids : List (α × ι)) (e : α) : Option ι := ids.lookup e

variable {ids : List (α × ι)} {e : α} {x : ι}

/-- The id of an element was given to it. -/
theorem mem_of_idOf (h : idOf ids e = some x) : (e, x) ∈ ids := by
  unfold idOf at h
  induction ids with
  | nil => simp at h
  | cons p ids ih =>
    rw [List.lookup_cons] at h
    by_cases he : e = p.1
    · rw [beq_iff_eq.mpr he] at h
      have hx : p.2 = x := by simpa using h
      rw [he, ← hx]
      exact List.mem_cons_self
    · rw [beq_eq_false_iff_ne.mpr he] at h
      exact List.mem_cons_of_mem _ (ih (by simpa using h))

/-- An element that only ever gets one id has it. -/
theorem idOf_of_unique (hmem : (e, x) ∈ ids) (hunique : ∀ y, (e, y) ∈ ids → y = x) :
    idOf ids e = some x := by
  have hsome : (idOf ids e).isSome = true := by
    unfold idOf
    induction ids with
    | nil => exact absurd hmem List.not_mem_nil
    | cons p ids ih =>
      rw [List.lookup_cons]
      by_cases he : e = p.1
      · rw [beq_iff_eq.mpr he]
        rfl
      · rw [beq_eq_false_iff_ne.mpr he]
        have hrest : (e, x) ∈ ids := by
          refine (List.mem_cons.mp hmem).resolve_left fun heq => he ?_
          rw [← heq]
        exact ih hrest fun y hy => hunique y (List.mem_cons_of_mem _ hy)
  obtain ⟨y, hy⟩ := Option.isSome_iff_exists.mp hsome
  rw [hy, hunique y (mem_of_idOf hy)]

variable [DecidableEq ι] {elements before after : List α}

/-- The first of the elements with an id. -/
def byId (elements : List α) (ids : List (α × ι)) (x : ι) : Option α :=
  elements.find? fun e => idOf ids e = some x

/-- The element that is found has the id. -/
theorem idOf_of_byId (h : byId elements ids x = some e) : idOf ids e = some x := by
  have hfound := List.find?_some h
  simpa using hfound

/-- An id that nothing before has is the id of the only element with it from there on. -/
theorem byId_append (hbefore : ∀ d ∈ before, idOf ids d ≠ some x) (hmem : e ∈ elements)
    (he : idOf ids e = some x) (hunique : ∀ d ∈ elements, idOf ids d = some x → d = e) :
    byId (before ++ (elements ++ after)) ids x = some e := by
  have hnone : byId before ids x = none := by
    apply List.find?_eq_none.mpr
    intro d hd
    simpa using hbefore d hd
  have hfound : byId elements ids x = some e := by
    have hsome : (byId elements ids x).isSome = true := by
      rw [byId, List.find?_isSome]
      exact ⟨e, hmem, by simpa using he⟩
    obtain ⟨d, hd⟩ := Option.isSome_iff_exists.mp hsome
    rw [hd, hunique d (List.mem_of_find?_eq_some hd) (idOf_of_byId hd)]
  unfold byId at hnone hfound ⊢
  rw [List.find?_append, List.find?_append, hnone, hfound]
  rfl

end Elements
