import Mathlib.Data.Finset.Basic
import Mathlib.Data.Finset.Card
import Mathlib.Data.Finset.Dedup
import Mathlib.Data.Set.Basic
import Mathlib.Logic.Relation
import Mathlib.Order.WellFounded

/-! # Exploration by rounds

A worklist is explored for a fixed number of rounds. The items of a round are taken in any order;
an item that is taken is visited and its successors not visited by then are collected for the next
round. The order decides which items are collected, and even which are taken twice, but not which
are visited in the end.
-/

namespace Rounds

variable {U : Type*} [DecidableEq U]

/-- The worklists of an exploration; `taken` records the items in the order they were taken. -/
structure State (U : Type*) where
  round : ℕ
  current : Finset U
  next : Finset U
  visited : Finset U
  taken : List U

/-- Start with the seeds as the first round. -/
def init (seeds : Finset U) : State U := ⟨0, seeds, ∅, ∅, []⟩

/-- Take `u` and collect those of its successors that are not visited. -/
def State.take (succ : U → List U) (s : State U) (u : U) : State U where
  round := s.round
  current := s.current.erase u
  next := s.next ∪ ((succ u).filter (· ∉ insert u s.visited)).toFinset
  visited := insert u s.visited
  taken := s.taken ++ [u]

/-- Enter the next round. -/
def State.advance (s : State U) : State U :=
  { s with round := s.round + 1, current := s.next, next := ∅ }

/-- One step of an exploration of `n` rounds. -/
inductive Step (succ : U → List U) (n : ℕ) : State U → State U → Prop
  | take {s : State U} {u : U} (hround : s.round < n) (hu : u ∈ s.current) :
      Step succ n s (s.take succ u)
  | advance {s : State U} (hround : s.round < n) (hempty : s.current = ∅) :
      Step succ n s s.advance

/-- The states a run of `n` rounds can reach. -/
def Reachable (succ : U → List U) (n : ℕ) (seeds : Finset U) : State U → Prop :=
  Relation.ReflTransGen (Step succ n) (init seeds)

/-- What holds at the start and is kept by every step holds in every reachable state. -/
theorem Reachable.invariant {succ : U → List U} {n : ℕ} {seeds : Finset U} {P : State U → Prop}
    (hinit : P (init seeds)) (hstep : ∀ s t, P s → Step succ n s t → P t) {s : State U}
    (h : Reachable succ n seeds s) : P s := by
  induction h with
  | refl => exact hinit
  | tail _ hst ih => exact hstep _ _ ih hst

/-! ## Distance from the seeds -/

/-- `w` is the end of a path of `k` steps from `u`. -/
inductive Path (succ : U → List U) : ℕ → U → U → Prop
  | refl (u : U) : Path succ 0 u u
  | tail {k : ℕ} {u v w : U} (h : Path succ k u v) (hw : w ∈ succ v) : Path succ (k + 1) u w

/-- The items at the end of a path of `k` steps from a seed. -/
def Level (succ : U → List U) (seeds : Finset U) (k : ℕ) (u : U) : Prop :=
  ∃ seed ∈ seeds, Path succ k seed u

omit [DecidableEq U] in
/-- A level is reached from the one before. -/
theorem Level.succ_iff {succ : U → List U} {seeds : Finset U} {k : ℕ} {w : U} :
    Level succ seeds (k + 1) w ↔ ∃ v, Level succ seeds k v ∧ w ∈ succ v := by
  constructor
  · rintro ⟨seed, hseed, hpath⟩
    cases hpath with
    | tail hpath hw => exact ⟨_, ⟨seed, hseed, hpath⟩, hw⟩
  · rintro ⟨v, ⟨seed, hseed, hpath⟩, hw⟩
    exact ⟨seed, hseed, hpath.tail hw⟩

omit [DecidableEq U] in
/-- The seeds are level zero. -/
theorem Level.zero_iff {succ : U → List U} {seeds : Finset U} {u : U} :
    Level succ seeds 0 u ↔ u ∈ seeds := by
  constructor
  · rintro ⟨seed, hseed, hpath⟩
    cases hpath
    exact hseed
  · exact fun hu => ⟨u, hu, .refl u⟩

/-- The worklists against the distance from the seeds, from both sides. -/
structure Bounded (succ : U → List U) (n : ℕ) (seeds : Finset U) (s : State U) : Prop where
  visited_level : ∀ u ∈ s.visited, ∃ k, (k < s.round ∨ k = s.round ∧ s.round < n) ∧
    Level succ seeds k u
  current_level : ∀ u ∈ s.current, Level succ seeds s.round u
  next_level : ∀ u ∈ s.next, Level succ seeds (s.round + 1) u
  level_visited : ∀ k < s.round, ∀ u, Level succ seeds k u → u ∈ s.visited
  level_current : ∀ u, Level succ seeds s.round u → u ∈ s.visited ∨ u ∈ s.current
  succ_listed : ∀ u ∈ s.visited, ∀ x ∈ succ u, x ∈ s.visited ∨ x ∈ s.current ∨ x ∈ s.next

omit [DecidableEq U] in
/-- At the start nothing is visited. -/
theorem bounded_init (succ : U → List U) (n : ℕ) (seeds : Finset U) :
    Bounded succ n seeds (init seeds) where
  visited_level u hu := absurd hu (Finset.notMem_empty u)
  current_level _ hu := Level.zero_iff.mpr hu
  next_level u hu := absurd hu (Finset.notMem_empty u)
  level_visited k hk := absurd hk (Nat.not_lt_zero k)
  level_current _ hu := Or.inr (Level.zero_iff.mp hu)
  succ_listed u hu := absurd hu (Finset.notMem_empty u)

/-- Taking an element keeps the bounds. -/
theorem Bounded.take {succ : U → List U} {n : ℕ} {seeds : Finset U} {s : State U}
    (h : Bounded succ n seeds s) {u : U} (hround : s.round < n) (hu : u ∈ s.current) :
    Bounded succ n seeds (s.take succ u) where
  visited_level v hv := by
    rcases Finset.mem_insert.mp hv with rfl | hv
    · exact ⟨s.round, Or.inr ⟨rfl, hround⟩, h.current_level v hu⟩
    · exact h.visited_level v hv
  current_level v hv := h.current_level v (Finset.mem_of_mem_erase hv)
  next_level v hv := by
    rcases Finset.mem_union.mp hv with hv | hv
    · exact h.next_level v hv
    · have hv' := List.mem_filter.mp (List.mem_toFinset.mp hv)
      exact Level.succ_iff.mpr ⟨u, h.current_level u hu, hv'.1⟩
  level_visited k hk v hv := Finset.mem_insert_of_mem (h.level_visited k hk v hv)
  level_current v hv := by
    by_cases hvu : v = u
    · subst hvu
      exact Or.inl (Finset.mem_insert_self v _)
    · exact (h.level_current v hv).imp Finset.mem_insert_of_mem
        (fun hc => Finset.mem_erase.mpr ⟨hvu, hc⟩)
  succ_listed v hv x hx := by
    by_cases hxu : x ∈ insert u s.visited
    · exact Or.inl hxu
    rcases Finset.mem_insert.mp hv with rfl | hv
    · refine Or.inr (Or.inr (Finset.mem_union_right _ (List.mem_toFinset.mpr ?_)))
      exact List.mem_filter.mpr ⟨hx, by simpa using hxu⟩
    · rcases h.succ_listed v hv x hx with hx | hx | hx
      · exact Or.inl (Finset.mem_insert_of_mem hx)
      · refine Or.inr (Or.inl (Finset.mem_erase.mpr ⟨?_, hx⟩))
        rintro rfl
        exact hxu (Finset.mem_insert_self x _)
      · exact Or.inr (Or.inr (Finset.mem_union_left _ hx))

omit [DecidableEq U] in
theorem Bounded.advance {succ : U → List U} {n : ℕ} {seeds : Finset U} {s : State U}
    (h : Bounded succ n seeds s) (hempty : s.current = ∅) :
    Bounded succ n seeds s.advance := by
  have hnone : ∀ u, u ∉ s.current := by
    intro u
    rw [hempty]
    exact Finset.notMem_empty u
  -- every item of the finished round is visited
  have hdone : ∀ u, Level succ seeds s.round u → u ∈ s.visited := fun u hu =>
    (h.level_current u hu).resolve_right (hnone u)
  refine ⟨fun u hu => ?_, fun u hu => h.next_level u hu,
    fun u hu => absurd hu (Finset.notMem_empty u), fun k hk u hu => ?_, fun u hu => ?_,
    fun u hu x hx => ?_⟩
  · obtain ⟨k, hk, hlevel⟩ := h.visited_level u hu
    refine ⟨k, Or.inl ?_, hlevel⟩
    change k < s.round + 1
    omega
  · rcases Nat.lt_succ_iff_lt_or_eq.mp hk with hk | rfl
    · exact h.level_visited k hk u hu
    · exact hdone u hu
  · obtain ⟨v, hv, hw⟩ := Level.succ_iff.mp hu
    rcases h.succ_listed v (hdone v hv) u hw with hx | hx | hx
    · exact Or.inl hx
    · exact absurd hx (hnone u)
    · exact Or.inr hx
  · rcases h.succ_listed u hu x hx with hx | hx | hx
    · exact Or.inl hx
    · exact absurd hx (hnone x)
    · exact Or.inr (Or.inl hx)

/-- The bounds hold in every state that is reached. -/
theorem Reachable.bounded {succ : U → List U} {n : ℕ} {seeds : Finset U} {s : State U}
    (h : Reachable succ n seeds s) : Bounded succ n seeds s := by
  refine h.invariant (bounded_init succ n seeds) fun s t hs hst => ?_
  cases hst with
  | take hround hu => exact hs.take hround hu
  | advance _ hempty => exact hs.advance hempty

/-- After the last round the visited items are those closer than `n` steps to a seed, whatever the
order in which they were taken. -/
theorem Reachable.mem_visited_iff {succ : U → List U} {n : ℕ} {seeds : Finset U} {s : State U}
    (h : Reachable succ n seeds s) (hend : s.round = n) (u : U) :
    u ∈ s.visited ↔ ∃ k < n, Level succ seeds k u := by
  constructor
  · intro hu
    obtain ⟨k, hk, hlevel⟩ := h.bounded.visited_level u hu
    exact ⟨k, by omega, hlevel⟩
  · rintro ⟨k, hk, hlevel⟩
    exact h.bounded.level_visited k (by omega) u hlevel

/-! ## Items taken twice -/

/-- Taking `u` collects nothing that is still waiting in the round and would be taken again. -/
def NoRepeat (succ : U → List U) (n : ℕ) (s : State U) (u : U) : Prop :=
  s.round + 1 < n → ∀ x ∈ succ u, x ∈ s.current.erase u → x ∈ insert u s.visited

/-- The items taken so far are the visited ones, each once, and none of them waits. -/
structure Fresh (n : ℕ) (s : State U) : Prop where
  nodup : s.taken.Nodup
  taken_visited : ∀ u ∈ s.taken, u ∈ s.visited
  current_unvisited : s.round < n → ∀ u ∈ s.current, u ∉ s.visited
  next_unvisited : s.round + 1 < n → ∀ u ∈ s.next, u ∉ s.visited ∧ u ∉ s.current

omit [DecidableEq U] in
/-- At the start nothing is taken. -/
theorem fresh_init (n : ℕ) (seeds : Finset U) : Fresh n (init seeds) where
  nodup := List.nodup_nil
  taken_visited _ hu := absurd hu List.not_mem_nil
  current_unvisited _ _ _ := Finset.notMem_empty _
  next_unvisited _ u hu := absurd hu (Finset.notMem_empty u)

/-- Taking an element that repeats nothing takes it once. -/
theorem Fresh.take {succ : U → List U} {n : ℕ} {s : State U} (h : Fresh n s) {u : U}
    (hround : s.round < n) (hu : u ∈ s.current) (hclean : NoRepeat succ n s u) :
    Fresh n (s.take succ u) where
  nodup := by
    have hnot : u ∉ s.taken := fun hmem =>
      h.current_unvisited hround u hu (h.taken_visited u hmem)
    exact List.nodup_append.mpr ⟨h.nodup, List.nodup_singleton u, fun a ha b hb hab => by
      rw [List.mem_singleton] at hb
      exact hnot (hb ▸ hab ▸ ha)⟩
  taken_visited v hv := by
    rcases List.mem_append.mp hv with hv | hv
    · exact Finset.mem_insert_of_mem (h.taken_visited v hv)
    · exact Finset.mem_insert.mpr (Or.inl (List.mem_singleton.mp hv))
  current_unvisited _ v hv := by
    obtain ⟨hvu, hv⟩ := Finset.mem_erase.mp hv
    intro hmem
    rcases Finset.mem_insert.mp hmem with hmem | hmem
    · exact hvu hmem
    · exact h.current_unvisited hround v hv hmem
  next_unvisited hlast v hv := by
    rcases Finset.mem_union.mp hv with hv | hv
    · obtain ⟨hvis, hcur⟩ := h.next_unvisited hlast v hv
      refine ⟨fun hmem => ?_, fun hmem => hcur (Finset.mem_of_mem_erase hmem)⟩
      rcases Finset.mem_insert.mp hmem with rfl | hmem
      · exact hcur hu
      · exact hvis hmem
    · obtain ⟨hsucc, hvis⟩ := List.mem_filter.mp (List.mem_toFinset.mp hv)
      have hvis : v ∉ insert u s.visited := by simpa using hvis
      exact ⟨hvis, fun hmem => hvis (hclean hlast v hsucc hmem)⟩

omit [DecidableEq U] in
theorem Fresh.advance {n : ℕ} {s : State U} (h : Fresh n s) : Fresh n s.advance where
  nodup := h.nodup
  taken_visited := h.taken_visited
  current_unvisited hround u hu := (h.next_unvisited hround u hu).1
  next_unvisited _ u hu := absurd hu (Finset.notMem_empty u)

/-- How often `x` has been taken or is sure to be taken yet. -/
def due (n : ℕ) (x : U) (s : State U) : ℕ :=
  s.taken.count x + (if x ∈ s.current ∧ s.round < n then 1 else 0) +
    if x ∈ s.next ∧ s.round + 1 < n then 1 else 0

/-- A step never takes back what is due. -/
theorem due_le_of_step {succ : U → List U} {n : ℕ} (x : U) {s t : State U}
    (h : Step succ n s t) : due n x s ≤ due n x t := by
  cases h with
  | @take u hround hu =>
    have hnext : x ∈ s.next → x ∈ (s.take succ u).next := Finset.mem_union_left _
    have hn : (if x ∈ s.next ∧ s.round + 1 < n then 1 else 0) ≤
        if x ∈ (s.take succ u).next ∧ s.round + 1 < n then 1 else 0 := by
      split
      · next hx => rw [if_pos ⟨hnext hx.1, hx.2⟩]
      · exact Nat.zero_le _
    have hc : s.taken.count x + (if x ∈ s.current ∧ s.round < n then 1 else 0) ≤
        (s.taken ++ [u]).count x +
          if x ∈ s.current.erase u ∧ s.round < n then 1 else 0 := by
      rw [List.count_append]
      by_cases hxu : x = u
      · -- what is taken moves from the round to the record
        subst hxu
        simp [hu, hround]
      · have hne : ¬ u = x := fun hux => hxu hux.symm
        simp [hxu, hne]
    exact Nat.add_le_add hc hn
  | advance hround hempty =>
    simp only [due, State.advance, hempty, Finset.notMem_empty, false_and, if_false,
      Nat.add_zero]
    exact le_rfl

theorem due_le_of_run {succ : U → List U} {n : ℕ} (x : U) {s t : State U}
    (h : Relation.ReflTransGen (Step succ n) s t) : due n x s ≤ due n x t := by
  induction h with
  | refl => exact le_rfl
  | tail _ hst ih => exact ih.trans (due_le_of_step x hst)

/-- A collected item that is still waiting is taken twice by every run that ends. -/
theorem not_nodup_of_repeat {succ : U → List U} {n : ℕ} {s t : State U} {u : U}
    (hrepeat : ¬ NoRepeat succ n s u)
    (hrun : Relation.ReflTransGen (Step succ n) (s.take succ u) t) (hend : t.round = n) :
    ¬ t.taken.Nodup := by
  simp only [NoRepeat, not_forall] at hrepeat
  obtain ⟨hlast, x, hsucc, hwait, hnot⟩ := hrepeat
  have hnext : x ∈ (s.take succ u).next :=
    Finset.mem_union_right _ (List.mem_toFinset.mpr (List.mem_filter.mpr
      ⟨hsucc, by simpa using hnot⟩))
  have hdue := due_le_of_run x hrun
  have htwo : 2 ≤ due n x (s.take succ u) := by
    have hc : x ∈ (s.take succ u).current ∧ (s.take succ u).round < n :=
      ⟨hwait, Nat.lt_of_succ_lt hlast⟩
    have hn : x ∈ (s.take succ u).next ∧ (s.take succ u).round + 1 < n := ⟨hnext, hlast⟩
    rw [due, if_pos hc, if_pos hn]
    omega
  have hcount : due n x t = t.taken.count x := by
    rw [due, if_neg (fun h => by omega), if_neg (fun h => by omega)]
    rfl
  intro hnodup
  have hle := List.nodup_iff_count_le_one.mp hnodup x
  omega

/-! ## Every run ends -/

/-- No run goes on for ever: a step finishes a round or takes an item of it. -/
theorem wellFounded_step (succ : U → List U) (n : ℕ) :
    WellFounded fun t s : State U => Step succ n s t := by
  refine Subrelation.wf ?_
    (InvImage.wf (fun s : State U => (n - s.round, s.current.card))
      (Prod.lex ⟨(· < ·), Nat.lt_wfRel.wf⟩ ⟨(· < ·), Nat.lt_wfRel.wf⟩).wf)
  intro t s hst
  cases hst with
  | take _ hu => exact Prod.Lex.right _ (Finset.card_erase_lt_of_mem hu)
  | advance hround _ =>
    refine Prod.Lex.left _ _ ?_
    change n - (s.round + 1) < n - s.round
    omega

end Rounds
