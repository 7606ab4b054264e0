import ScriptsMisc.Python.CrawlRuns

/-! # The pages on the disk

What a crawl leaves in the store. Pages are fetched in any order and several of them may go to one
file, so a file holds the page that was fetched for it last.
-/

namespace Crawler

open Urlparse SavePage

/-- The URL can be fetched, and its page goes to the file `p`. -/
def saves (web : Web) (p : Place) (u : Str) : Bool :=
  match web u, urlparse u with
  | some _, some curURL => fileOf curURL = p
  | _, _ => false

/-- The contents of the file `p` after these URLs were opened: the last page that went to it. -/
def contents (web : Web) (store : Store) (p : Place) (opened : List Str) : Option Str :=
  match (opened.filter (saves web p)).getLast? with
  | some u => web u
  | none => store.read p

/-- The last page that is saved in a file is its contents. -/
theorem contents_concat (web : Web) (store : Store) (p : Place) (opened : List Str) (u : Str) :
    contents web store p (opened ++ [u]) =
      if saves web p u then web u else contents web store p opened := by
  unfold contents
  cases hu : saves web p u with
  | true =>
    have hlast : (opened ++ [u]).filter (saves web p) = opened.filter (saves web p) ++ [u] := by
      simp [hu]
    rw [hlast, List.getLast?_concat, if_pos rfl]
  | false =>
    have hlast : (opened ++ [u]).filter (saves web p) = opened.filter (saves web p) := by
      simp [hu]
    rw [hlast, if_neg Bool.false_ne_true]

/-- The store agrees with what was opened so far. -/
def Stored (web : Web) (store : Store) (s : State) : Prop :=
  ∀ p, s.store.read p = contents web store p s.opened

/-- A step without an exception stores its page. -/
theorem Stored.step {web : Web} {crawlDegree : ℕ} {store : Store} {s t : State}
    {label : Option Str} (hs : Stored web store s) (h : Step web crawlDegree s label t)
    (hok : t.halted = false) : Stored web store t := by
  intro p
  cases h with
  | @fetchFails u hrun hpop hopen =>
    have hu : saves web p u = false := by rw [saves, hopen]
    show s.store.read p = contents web store p (s.opened ++ [u])
    rw [contents_concat, hu, hs p]
    rfl
  | @page u curHTML hrun hpop hopen =>
    cases hparse : urlparse u with
    | none =>
      rw [processPage_parseRaises s curHTML hparse] at hok
      cases hok
    | some curURL =>
      cases hsave : savePage s.store curURL curHTML with
      | none =>
        rw [processPage_saveRaises hparse hsave] at hok
        cases hok
      | some store' =>
        rw [processPage_saved hparse hsave]
        show store'.read p = contents web store p (s.opened ++ [u])
        have hu : saves web p u = decide (fileOf curURL = p) := by rw [saves, hopen, hparse]
        rw [contents_concat, hu, savePage_read hsave, hopen, hs p]
        by_cases hp : p = fileOf curURL
        · rw [if_pos hp, if_pos (decide_eq_true hp.symm)]
        · have hne : decide (fileOf curURL = p) = false := decide_eq_false fun h => hp h.symm
          rw [if_neg hp, hne, if_neg Bool.false_ne_true]
  | saveRaises => cases hok
  | nextRound => exact hs p

/-- So the store holds the pages of the run. -/
theorem Run.stored {web : Web} {crawlDegree : ℕ} {seeds : Finset Str} {store : Store} {s : State}
    (h : Run web crawlDegree (start seeds store) s) (hok : s.halted = false) :
    Stored web store s := by
  induction h with
  | start => exact fun p => rfl
  | step _ _ hst ih => exact (ih (step_cases hst).1.1).step hst hok

/-- The URLs that were opened are the crawled ones. -/
theorem Run.mem_opened_iff {web : Web} {crawlDegree : ℕ} {seeds : Finset Str} {store : Store}
    {s : State} (h : Run web crawlDegree (start seeds store) s) (u : Str) :
    u ∈ s.opened ↔ u ∈ s.crawled := by
  refine h.invariant (P := fun s => u ∈ s.opened ↔ u ∈ s.crawled) (by simp [start])
    fun s label t hs _ hst => ?_
  have hpop : ∀ v, u ∈ s.opened ++ [v] ↔ u ∈ insert v s.crawled := by
    intro v
    rw [List.mem_append, List.mem_singleton, Finset.mem_insert, hs, or_comm]
  obtain ⟨-, ⟨v, -, -, -, htake⟩ | ⟨v, -, -, -, -, -, hcrawled, hopened, -⟩ |
    ⟨-, -, -, hadv⟩⟩ := step_cases hst
  · have hopened : t.opened = s.opened ++ [v] := congrArg Rounds.State.taken htake
    have hcrawled : t.crawled = insert v s.crawled := congrArg Rounds.State.visited htake
    rw [hopened, hcrawled]
    exact hpop v
  · rw [hopened, hcrawled]
    exact hpop v
  · have hopened : t.opened = s.opened := congrArg Rounds.State.taken hadv
    have hcrawled : t.crawled = s.crawled := congrArg Rounds.State.visited hadv
    rw [hopened, hcrawled]
    exact hs

/-- A file that some opened page goes to holds one of these pages. -/
theorem contents_of_saves (store : Store) {web : Web} {p : Place} {opened : List Str} {u : Str}
    (hu : u ∈ opened) (hsaves : saves web p u = true) :
    ∃ v ∈ opened, saves web p v = true ∧ contents web store p opened = web v := by
  have hmem : u ∈ opened.filter (saves web p) := List.mem_filter.mpr ⟨hu, hsaves⟩
  cases hlast : (opened.filter (saves web p)).getLast? with
  | none =>
    rw [List.getLast?_eq_none_iff.mp hlast] at hmem
    exact absurd hmem List.not_mem_nil
  | some v =>
    obtain ⟨hv, hvsaves⟩ := List.mem_filter.mp (List.mem_of_getLast? hlast)
    refine ⟨v, hv, hvsaves, ?_⟩
    rw [contents, hlast]

/-- A file that no opened page goes to is left alone. -/
theorem contents_of_not_saves {web : Web} {store : Store} {p : Place} {opened : List Str}
    (h : ∀ u ∈ opened, saves web p u = false) : contents web store p opened = store.read p := by
  have hnone : opened.filter (saves web p) = [] :=
    List.filter_eq_nil_iff.mpr fun u hu => by simp [h u hu]
  rw [contents, hnone]
  rfl

/-- The URL is less than `crawlDegree` links away from a seed. -/
def Within (web : Web) (crawlDegree : ℕ) (seeds : Finset Str) (u : Str) : Prop :=
  ∃ k < crawlDegree, Rounds.Level (outLinks web) seeds k u

/-- As long as no exception ends a run, a file holds the page that was opened last among those that
go to it. When the run is over, the files written are those of the pages within the depth, whatever
the order in which the frontiers were popped; every other file is as it was. -/
theorem crawl_stores (web : Web) (crawlDegree : ℕ) (seeds : Finset Str) (store : Store) :
    (∀ s, Run web crawlDegree (start seeds store) s → s.halted = false →
      ∀ p, s.store.read p = contents web store p s.opened) ∧
    ∀ s, Run web crawlDegree (start seeds store) s → s.Done crawlDegree → ∀ p,
      (∀ u, Within web crawlDegree seeds u → saves web p u = true →
        ∃ v, Within web crawlDegree seeds v ∧ saves web p v = true ∧ s.store.read p = web v) ∧
      ((∀ u, Within web crawlDegree seeds u → saves web p u = false) →
        s.store.read p = store.read p) := by
  refine ⟨fun s hrun hok => hrun.stored hok, fun s hrun hdone p => ?_⟩
  have hstored : s.store.read p = contents web store p s.opened := hrun.stored hdone.1 p
  have hreach : Rounds.Reachable (outLinks web) crawlDegree seeds s.worklists :=
    hrun.worklists hdone.1
  have hopened : ∀ u, u ∈ s.opened ↔ Within web crawlDegree seeds u := fun u =>
    (hrun.mem_opened_iff u).trans (hreach.mem_visited_iff hdone.2 u)
  rw [hstored]
  constructor
  · intro u hwithin hsaves
    obtain ⟨v, hv, hvsaves, hread⟩ :=
      contents_of_saves store ((hopened u).mpr hwithin) hsaves
    exact ⟨v, (hopened v).mp hv, hvsaves, hread⟩
  · intro hnone
    exact contents_of_not_saves fun u hu => hnone u ((hopened u).mp hu)

/-- From `http://h/a` alone, two rounds write one file. -/
theorem crawl_stores_a :
    ∃ s, Run linkToB 2 (start {"http://h/a".toList} ⟨[], []⟩) s ∧ s.Done 2 ∧
      s.store.files.length = 1 ∧
      (∀ p, s.store.read p = contents linkToB ⟨[], []⟩ p s.opened) ∧
      ∀ p, (∀ u, Within linkToB 2 {"http://h/a".toList} u → saves linkToB p u = false) →
        s.store.read p = none := by
  have hrun : Run linkToB 2 (start {"http://h/a".toList} ⟨[], []⟩) _ :=
    .step (.step (.step (.step .start trivial
      (@Step.page linkToB 2 _ "http://h/a".toList _ ⟨rfl, by decide⟩ (by decide) rfl)) trivial
      (.nextRound ⟨by decide +kernel, by decide +kernel⟩ (by decide +kernel))) trivial
      (@Step.fetchFails linkToB 2 _ "http://h/b".toList ⟨by decide +kernel, by decide +kernel⟩
        (by decide +kernel) rfl)) trivial
      (.nextRound ⟨by decide +kernel, by decide +kernel⟩ (by decide +kernel))
  obtain ⟨hstored, hend⟩ := crawl_stores linkToB 2 {"http://h/a".toList} ⟨[], []⟩
  exact ⟨_, hrun, ⟨by decide +kernel, by decide +kernel⟩, by decide +kernel,
    hstored _ hrun (by decide +kernel),
    fun p => (hend _ hrun ⟨by decide +kernel, by decide +kernel⟩ p).2⟩

end Crawler
