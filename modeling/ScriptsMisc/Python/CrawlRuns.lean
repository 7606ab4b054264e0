import ScriptsMisc.Python.Crawler

/-! # Runs of the crawler

A step of the crawl loop that raises no exception is a step of an exploration by rounds over the
admitted links. What a run opens twice and what it has crawled in the end follow from there.
-/

namespace Crawler

open Urlparse SavePage

/-! ## The loop over the links -/

/-- The admitted links of a page that are not crawled. -/
def newLinks (curURL : ParseResult) (crawled : Finset Str) (links : List Str) : Finset Str :=
  ((admittedLinks curURL links).filter (· ∉ crawled)).toFinset

/-- A link that is rewritten is queued unless it was crawled. -/
theorem newLinks_cons_some {curURL linkURL : ParseResult} {crawled : Finset Str} {x y : Str}
    (hparse : urlparse x = some linkURL) (hrewrite : rewriteLink curURL linkURL x = some y)
    (links : List Str) :
    newLinks curURL crawled (x :: links) =
      (if y ∈ crawled then ∅ else {y}) ∪ newLinks curURL crawled links := by
  have hadm : admittedLinks curURL (x :: links) = y :: admittedLinks curURL links := by
    simp [admittedLinks, hparse, hrewrite]
  rw [newLinks, newLinks, hadm]
  by_cases hy : y ∈ crawled
  · simp [hy]
  · simp only [hy, List.filter_cons, not_false_eq_true, decide_true, if_true, if_false,
      List.toFinset_cons]
    rfl

/-- A link that is not rewritten queues nothing. -/
theorem newLinks_cons_none {curURL linkURL : ParseResult} {crawled : Finset Str} {x : Str}
    (hparse : urlparse x = some linkURL) (hrewrite : rewriteLink curURL linkURL x = none)
    (links : List Str) :
    newLinks curURL crawled (x :: links) = newLinks curURL crawled links := by
  simp [newLinks, admittedLinks, hparse, hrewrite]

/-- A loop that comes to its end has queued the new links. -/
theorem linkLoop_completed {curURL : ParseResult} {crawled newFrontier : Finset Str}
    {links : List Str} (h : (linkLoop curURL crawled links newFrontier).2 = true) :
    (linkLoop curURL crawled links newFrontier).1 =
      newFrontier ∪ newLinks curURL crawled links := by
  induction links generalizing newFrontier with
  | nil => simp [linkLoop, newLinks, admittedLinks]
  | cons x links ih =>
    rw [linkLoop] at h ⊢
    cases hparse : urlparse x with
    | none => simp [hparse] at h
    | some linkURL =>
      simp only [hparse] at h ⊢
      cases hrewrite : rewriteLink curURL linkURL x with
      | none =>
        simp only [hrewrite] at h ⊢
        rw [ih h, newLinks_cons_none hparse hrewrite]
      | some y =>
        simp only [hrewrite] at h ⊢
        rw [ih h, newLinks_cons_some hparse hrewrite]
        split
        · rw [Finset.empty_union]
        · rw [← Finset.union_assoc, Finset.union_comm newFrontier, Finset.insert_eq]

/-- A loop that is cut short has queued no more than that. -/
theorem linkLoop_subset (curURL : ParseResult) (crawled newFrontier : Finset Str)
    (links : List Str) :
    (linkLoop curURL crawled links newFrontier).1 ⊆
      newFrontier ∪ newLinks curURL crawled links := by
  induction links generalizing newFrontier with
  | nil => exact Finset.subset_union_left
  | cons x links ih =>
    rw [linkLoop]
    cases hparse : urlparse x with
    | none => exact Finset.subset_union_left
    | some linkURL =>
      simp only
      cases hrewrite : rewriteLink curURL linkURL x with
      | none =>
        rw [newLinks_cons_none hparse hrewrite]
        exact ih newFrontier
      | some y =>
        rw [newLinks_cons_some hparse hrewrite]
        refine (ih _).trans ?_
        split
        · rw [Finset.empty_union]
        · rw [← Finset.union_assoc, Finset.union_comm newFrontier, Finset.insert_eq]

/-! ## What a step does -/

/-- The worklists of the crawl loop. -/
def State.worklists (s : State) : Rounds.State Str :=
  ⟨s.cd, s.frontier, s.newFrontier, s.crawled, s.opened⟩

/-- A URL that `urlparse` cannot take ends the run before the page is saved. -/
theorem processPage_parseRaises (s : State) {u : Str} (curHTML : Str)
    (hparse : urlparse u = none) :
    processPage s u curHTML = { s.pop u with halted := true } := by
  simp only [processPage, hparse]

/-- A page that cannot be saved ends the run. -/
theorem processPage_saveRaises {s : State} {u curHTML : Str} {curURL : ParseResult}
    (hparse : urlparse u = some curURL) (hsave : savePage s.store curURL curHTML = none) :
    processPage s u curHTML = { s.pop u with halted := true } := by
  have hsave' : savePage (s.pop u).store curURL curHTML = none := hsave
  simp only [processPage, hparse, hsave']

/-- A page that is saved queues its links. -/
theorem processPage_saved {s : State} {u curHTML : Str} {curURL : ParseResult} {store : Store}
    (hparse : urlparse u = some curURL) (hsave : savePage s.store curURL curHTML = some store) :
    processPage s u curHTML =
      { s.pop u with
        store := store
        newFrontier :=
          (linkLoop curURL (insert u s.crawled) (findLinks curHTML) s.newFrontier).1
        halted :=
          !(linkLoop curURL (insert u s.crawled) (findLinks curHTML) s.newFrontier).2 } := by
  have hsave' : savePage (s.pop u).store curURL curHTML = some store := hsave
  simp only [processPage, hparse, hsave']
  rfl

/-- A step pops a page, with or without an exception on the way, or enters the next round. -/
theorem step_cases {web : Web} {crawlDegree : ℕ} {s t : State} {label : Option Str}
    (h : Step web crawlDegree s label t) :
    s.Running crawlDegree ∧
    ((∃ u ∈ s.frontier, label = some u ∧ t.halted = false ∧
        t.worklists = s.worklists.take (outLinks web) u) ∨
      (∃ u ∈ s.frontier, label = some u ∧ t.halted = true ∧ t.cd = s.cd ∧
        t.frontier = s.frontier.erase u ∧ t.crawled = insert u s.crawled ∧
        t.opened = s.opened ++ [u] ∧
        t.newFrontier ⊆ (s.worklists.take (outLinks web) u).next) ∨
      (label = none ∧ s.frontier = ∅ ∧ t.halted = false ∧
        t.worklists = s.worklists.advance)) := by
  cases h with
  | @fetchFails u hrun hpop hopen =>
    refine ⟨hrun, Or.inl ⟨u, hpop, rfl, hrun.1, ?_⟩⟩
    simp [State.worklists, State.pop, Rounds.State.take, outLinks, hopen]
  | @page u curHTML hrun hpop hopen =>
    refine ⟨hrun, ?_⟩
    cases hparse : urlparse u with
    | none =>
      -- `urlparse` raises at the page itself
      rw [processPage_parseRaises s curHTML hparse]
      exact Or.inr (Or.inl ⟨u, hpop, rfl, rfl, rfl, rfl, rfl, rfl, Finset.subset_union_left⟩)
    | some curURL =>
      cases hsave : savePage s.store curURL curHTML with
      | none =>
        rw [processPage_saveRaises hparse hsave]
        exact Or.inr (Or.inl ⟨u, hpop, rfl, rfl, rfl, rfl, rfl, rfl, Finset.subset_union_left⟩)
      | some store =>
        rw [processPage_saved hparse hsave]
        have hnext : (s.worklists.take (outLinks web) u).next =
            s.newFrontier ∪ newLinks curURL (insert u s.crawled) (findLinks curHTML) := by
          simp only [Rounds.State.take, outLinks, hopen, hparse]
          rfl
        cases hdone : (linkLoop curURL (insert u s.crawled) (findLinks curHTML)
          s.newFrontier).2 with
        | false =>
          -- `urlparse` raises at a link, when some may have been queued
          refine Or.inr (Or.inl ⟨u, hpop, rfl, rfl, rfl, rfl, rfl, rfl, ?_⟩)
          rw [hnext]
          exact linkLoop_subset _ _ _ _
        | true =>
          refine Or.inl ⟨u, hpop, rfl, rfl, ?_⟩
          simp only [State.worklists, linkLoop_completed hdone, ← hnext]
          rfl
  | @saveRaises u curHTML hrun hpop hopen =>
    exact ⟨hrun, Or.inr (Or.inl
      ⟨u, hpop, rfl, rfl, rfl, rfl, rfl, rfl, Finset.subset_union_left⟩)⟩
  | nextRound hrun hempty =>
    exact ⟨hrun, Or.inr (Or.inr ⟨rfl, hempty, hrun.1, rfl⟩)⟩

/-- Nothing is run after an exception. -/
theorem no_step_of_halted {web : Web} {crawlDegree : ℕ} {s : State} (hhalt : s.halted = true)
    (label : Option Str) (t : State) : ¬ Step web crawlDegree s label t := by
  intro hst
  exact absurd ((step_cases hst).1.1.symm.trans hhalt) Bool.false_ne_true

/-- Without an exception, a step is one of the exploration. -/
theorem Step.worklists {web : Web} {crawlDegree : ℕ} {s t : State} {label : Option Str}
    (h : Step web crawlDegree s label t) (hok : t.halted = false) :
    Rounds.Step (outLinks web) crawlDegree s.worklists t.worklists := by
  obtain ⟨hrun, ⟨u, hu, -, -, htake⟩ | ⟨u, -, -, hhalt, -⟩ | ⟨-, hempty, -, hadv⟩⟩ := step_cases h
  · rw [htake]
    exact .take hrun.2 hu
  · rw [hok] at hhalt
    exact absurd hhalt Bool.false_ne_true
  · rw [hadv]
    exact .advance hrun.2 hempty

/-- What the start has and each step keeps every state has. -/
theorem RunWhere.invariant {web : Web} {crawlDegree : ℕ} {cond : State → Option Str → Prop}
    {s₀ s : State} {P : State → Prop} (hinit : P s₀)
    (hstep : ∀ s label t, P s → cond s label → Step web crawlDegree s label t → P t)
    (h : RunWhere web crawlDegree cond s₀ s) : P s := by
  induction h with
  | start => exact hinit
  | step _ hcond hst ih => exact hstep _ _ _ ih hcond hst

/-- Without an exception, a run is one of the exploration. -/
theorem Run.worklists {web : Web} {crawlDegree : ℕ} {s t : State} (h : Run web crawlDegree s t)
    (hok : t.halted = false) :
    Relation.ReflTransGen (Rounds.Step (outLinks web) crawlDegree) s.worklists t.worklists := by
  induction h with
  | start => exact .refl
  | step _ _ hst ih => exact (ih (step_cases hst).1.1).tail (hst.worklists hok)

/-- A run that comes to a state without an exception started in one. -/
theorem Run.not_halted {web : Web} {crawlDegree : ℕ} {s t : State} (h : Run web crawlDegree s t)
    (hok : t.halted = false) : s.halted = false := by
  induction h with
  | start => exact hok
  | step _ _ hst ih => exact ih (step_cases hst).1.1

/-! ## URLs opened twice -/

/-- No link of the page about to be popped waits in the frontier, unless the links are not followed
any more. -/
def NoneWaits (web : Web) (crawlDegree : ℕ) (s : State) (label : Option Str) : Prop :=
  ∀ u ∈ label, s.cd + 1 < crawlDegree → ∀ x ∈ outLinks web u, x ≠ u → x ∉ s.frontier

/-- A page that does not wait is not taken again. -/
theorem noRepeat_of_noneWaits {web : Web} {crawlDegree : ℕ} {s : State} {u : Str}
    (h : NoneWaits web crawlDegree s (some u)) :
    Rounds.NoRepeat (outLinks web) crawlDegree s.worklists u := by
  intro hlast x hx hwait
  obtain ⟨hxu, hxs⟩ := Finset.mem_erase.mp hwait
  exact absurd hxs (h u rfl hlast x hx hxu)

/-- The invariant of runs in which no link waits: once an exception has ended the run, only what was
opened counts. -/
def OpenedOnce (crawlDegree : ℕ) (s : State) : Prop :=
  s.opened.Nodup ∧ (s.halted = false → Rounds.Fresh crawlDegree s.worklists)

/-- A step of a page that does not wait opens no page twice. -/
theorem OpenedOnce.step {web : Web} {crawlDegree : ℕ} {s t : State} {label : Option Str}
    (hs : OpenedOnce crawlDegree s) (hcond : NoneWaits web crawlDegree s label)
    (h : Step web crawlDegree s label t) : OpenedOnce crawlDegree t := by
  obtain ⟨hrun, ⟨u, hu, rfl, hok, htake⟩ | ⟨u, hu, rfl, hhalt, -, -, -, hopened, -⟩ |
    ⟨rfl, -, hok, hadv⟩⟩ := step_cases h
  · have hfresh := (hs.2 hrun.1).take hrun.2 hu (noRepeat_of_noneWaits hcond)
    rw [← htake] at hfresh
    exact ⟨hfresh.nodup, fun _ => hfresh⟩
  · have hfresh := (hs.2 hrun.1).take hrun.2 hu (noRepeat_of_noneWaits hcond)
    refine ⟨?_, fun hok => absurd (hok.symm.trans hhalt) Bool.false_ne_true⟩
    rw [hopened]
    exact hfresh.nodup
  · have hfresh := (hs.2 hrun.1).advance
    rw [← hadv] at hfresh
    exact ⟨hfresh.nodup, fun _ => hfresh⟩

/-- At the start no page is opened. -/
theorem openedOnce_start (crawlDegree : ℕ) (seeds : Finset Str) (store : Store) :
    OpenedOnce crawlDegree (start seeds store) :=
  ⟨List.nodup_nil, fun _ => Rounds.fresh_init crawlDegree seeds⟩

/-- A URL is opened once as long as no page is popped that links to a URL still waiting in the
frontier. The first page popped against that rule makes every run that ends open a URL twice. -/
theorem crawl_opens_once (web : Web) (crawlDegree : ℕ) (seeds : Finset Str) (store : Store) :
    (∀ s, RunWhere web crawlDegree (NoneWaits web crawlDegree) (start seeds store) s →
      s.opened.Nodup) ∧
    (∀ s u s' t, RunWhere web crawlDegree (NoneWaits web crawlDegree) (start seeds store) s →
      ¬ NoneWaits web crawlDegree s (some u) → Step web crawlDegree s (some u) s' →
      Run web crawlDegree s' t → t.Done crawlDegree → ¬ t.opened.Nodup) := by
  have hinv : ∀ s, RunWhere web crawlDegree (NoneWaits web crawlDegree) (start seeds store) s →
      OpenedOnce crawlDegree s := fun s h =>
    h.invariant (openedOnce_start crawlDegree seeds store) fun _ _ _ hs hcond hst =>
      hs.step hcond hst
  refine ⟨fun s h => (hinv s h).1, fun s u s' t hrun hwaits hst htail hdone => ?_⟩
  have hok : s'.halted = false := htail.not_halted hdone.1
  obtain ⟨hrunning, ⟨v, hv, hlabel, -, htake⟩ | ⟨v, -, -, hhalt, -⟩ | ⟨hlabel, -⟩⟩ := step_cases hst
  · obtain rfl := Option.some.inj hlabel
    refine Rounds.not_nodup_of_repeat (s := s.worklists) (u := u) (fun hno => hwaits ?_)
      (htake ▸ htail.worklists hdone.1) hdone.2
    intro v hv hlast x hx hxu hwait
    obtain rfl := Option.some.inj hv
    -- what waits in the frontier is not crawled, or it would have been opened twice before
    have hvisited := hno hlast x hx (Finset.mem_erase.mpr ⟨hxu, hwait⟩)
    rcases Finset.mem_insert.mp hvisited with rfl | hvisited
    · exact hxu rfl
    · exact ((hinv s hrun).2 hrunning.1).current_unvisited hrunning.2 x hwait hvisited
  · exact absurd (hok.symm.trans hhalt) Bool.false_ne_true
  · exact absurd hlabel (by simp)

/-- `http://h/a` links to `http://h/b`, which cannot be fetched. -/
def linkToB : Web := fun u =>
  if u = "http://h/a".toList then some "<a href=\"/b\">".toList else none

/-- Popped in the order `b`, `a`, both are opened once. -/
theorem crawl_opens_once_b_a :
    ∃ s, RunWhere linkToB 2 (NoneWaits linkToB 2)
        (start {"http://h/a".toList, "http://h/b".toList} ⟨[], []⟩) s ∧
      s.opened = ["http://h/b".toList, "http://h/a".toList] ∧ s.opened.Nodup := by
  have hrun : RunWhere linkToB 2 (NoneWaits linkToB 2)
      (start {"http://h/a".toList, "http://h/b".toList} ⟨[], []⟩) _ :=
    .step (.step .start
      (fun u hu _ x hx => by
        obtain rfl := Option.some.inj hu
        exact absurd hx (List.not_mem_nil))
      (@Step.fetchFails linkToB 2 _ "http://h/b".toList ⟨rfl, by decide⟩ (by decide) rfl))
      (fun u hu _ x hx _ => by
        obtain rfl := Option.some.inj hu
        revert x
        decide +kernel)
      (@Step.page linkToB 2 _ "http://h/a".toList _ ⟨rfl, by decide⟩ (by decide) rfl)
  exact ⟨_, hrun, by decide +kernel, (crawl_opens_once linkToB 2 _ _).1 _ hrun⟩

/-- Popped in the order `a`, `b`, the URL `http://h/b` is queued again and opened twice. -/
theorem crawl_opens_twice :
    ∃ s, Run linkToB 2 (start {"http://h/a".toList, "http://h/b".toList} ⟨[], []⟩) s ∧
      s.opened = ["http://h/a".toList, "http://h/b".toList, "http://h/b".toList] ∧
      ¬ s.opened.Nodup := by
  refine ⟨_, .step (.step (.step (.step .start trivial
    (@Step.page linkToB 2 _ "http://h/a".toList _ ⟨rfl, by decide⟩ (by decide) rfl)) trivial
    (@Step.fetchFails linkToB 2 _ "http://h/b".toList ⟨?_, ?_⟩ ?_ rfl)) trivial
    (.nextRound ⟨?_, ?_⟩ ?_)) trivial
    (@Step.fetchFails linkToB 2 _ "http://h/b".toList ⟨?_, ?_⟩ ?_ rfl), ?_, ?_⟩
  all_goals decide +kernel

/-! ## What is crawled in the end -/

/-- A run that has not ended goes on. -/
theorem exists_step {web : Web} {crawlDegree : ℕ} {s : State} (hs : s.Running crawlDegree) :
    ∃ label t, Step web crawlDegree s label t := by
  rcases s.frontier.eq_empty_or_nonempty with hempty | ⟨u, hu⟩
  · exact ⟨none, _, .nextRound hs hempty⟩
  · cases hopen : web u with
    | none => exact ⟨some u, _, .fetchFails hs hu hopen⟩
    | some curHTML => exact ⟨some u, _, .page hs hu hopen⟩

/-- No run goes on for ever: an exception ends it, and without one it explores by rounds. -/
theorem wellFounded_step (web : Web) (crawlDegree : ℕ) :
    WellFounded fun t s : State => ∃ label, Step web crawlDegree s label t := by
  have hacc : ∀ w : Rounds.State Str, ∀ s : State, s.worklists = w →
      Acc (fun t s : State => ∃ label, Step web crawlDegree s label t) s := by
    intro w
    induction w using (Rounds.wellFounded_step (outLinks web) crawlDegree).induction with
    | _ w ih =>
      rintro s rfl
      refine ⟨s, fun t ⟨label, hst⟩ => ?_⟩
      cases hhalt : t.halted with
      | false => exact ih t.worklists (hst.worklists hhalt) t rfl
      | true =>
        -- nothing runs after an exception
        exact ⟨t, fun r ⟨label', hst'⟩ => absurd hst' (no_step_of_halted hhalt label' r)⟩
  exact ⟨fun s => hacc s.worklists s rfl⟩

/-- A run that is over has crawled the URLs less than `crawlDegree` links away from a seed, whatever
the order in which the frontiers were popped; and every run that no exception ends comes to that. -/
theorem crawled_eq_reachable (web : Web) (crawlDegree : ℕ) (seeds : Finset Str)
    (hdegree : 1 ≤ crawlDegree) :
    (∀ store s, Run web crawlDegree (start seeds store) s → s.Done crawlDegree →
      ∀ u, u ∈ s.crawled ↔ ∃ k ≤ crawlDegree - 1, Rounds.Level (outLinks web) seeds k u) ∧
    (∀ store store' s t, Run web crawlDegree (start seeds store) s → s.Done crawlDegree →
      Run web crawlDegree (start seeds store') t → t.Done crawlDegree → s.crawled = t.crawled) ∧
    (∀ s : State, s.Running crawlDegree → ∃ label t, Step web crawlDegree s label t) ∧
    WellFounded fun t s : State => ∃ label, Step web crawlDegree s label t := by
  have hcrawled : ∀ store s, Run web crawlDegree (start seeds store) s → s.Done crawlDegree →
      ∀ u, u ∈ s.crawled ↔ ∃ k ≤ crawlDegree - 1, Rounds.Level (outLinks web) seeds k u := by
    intro store s hrun hdone u
    have hreach : Rounds.Reachable (outLinks web) crawlDegree seeds s.worklists :=
      hrun.worklists hdone.1
    refine (hreach.mem_visited_iff hdone.2 u).trans ?_
    refine exists_congr fun k => and_congr_left fun _ => ?_
    omega
  refine ⟨hcrawled, fun store store' s t hs hsdone ht htdone => ?_, fun s hs => exists_step hs,
    wellFounded_step web crawlDegree⟩
  ext u
  rw [hcrawled store s hs hsdone, hcrawled store' t ht htdone]

/-- From `http://h/a` alone, two rounds crawl `http://h/a` and `http://h/b`. -/
theorem crawled_eq_reachable_a :
    ∃ s, Run linkToB 2 (start {"http://h/a".toList} ⟨[], []⟩) s ∧ s.Done 2 ∧
      s.crawled = {"http://h/a".toList, "http://h/b".toList} ∧
      ∀ u, u ∈ s.crawled ↔
        ∃ k ≤ 1, Rounds.Level (outLinks linkToB) {"http://h/a".toList} k u := by
  have hrun : Run linkToB 2 (start {"http://h/a".toList} ⟨[], []⟩) _ :=
    .step (.step (.step (.step .start trivial
      (@Step.page linkToB 2 _ "http://h/a".toList _ ⟨rfl, by decide⟩ (by decide) rfl)) trivial
      (.nextRound ⟨by decide +kernel, by decide +kernel⟩ (by decide +kernel))) trivial
      (@Step.fetchFails linkToB 2 _ "http://h/b".toList ⟨by decide +kernel, by decide +kernel⟩
        (by decide +kernel) rfl)) trivial
      (.nextRound ⟨by decide +kernel, by decide +kernel⟩ (by decide +kernel))
  refine ⟨_, hrun, ⟨by decide +kernel, by decide +kernel⟩, by decide +kernel, ?_⟩
  exact (crawled_eq_reachable linkToB 2 _ (by decide)).1 _ _ hrun
    ⟨by decide +kernel, by decide +kernel⟩

/-- A step in which `savePage` raises no exception. -/
def SavingStep (web : Web) (crawlDegree : ℕ) (s t : State) : Prop :=
  ∃ label, Step web crawlDegree s label t ∧ ∀ u ∈ label, ∀ curHTML, web u = some curHTML →
    t = processPage s u curHTML ∧
      ∀ curURL, urlparse u = some curURL → savePage s.store curURL curHTML ≠ none

/-- A step that opens a page saves it, if it can be saved. -/
theorem savingStep_page {web : Web} {crawlDegree : ℕ} {s : State} {u curHTML : Str}
    (hrun : s.Running crawlDegree) (hpop : u ∈ s.frontier) (hopen : web u = some curHTML)
    (hsave : ∀ curURL, urlparse u = some curURL → savePage s.store curURL curHTML ≠ none) :
    SavingStep web crawlDegree s (processPage s u curHTML) := by
  refine ⟨some u, .page hrun hpop hopen, fun v hv html hhtml => ?_⟩
  obtain rfl := Option.some.inj hv
  obtain rfl := Option.some.inj (hopen.symm.trans hhtml)
  exact ⟨rfl, hsave⟩

/-- A step that cannot open its page saves nothing. -/
theorem savingStep_fetchFails {web : Web} {crawlDegree : ℕ} {s : State} {u : Str}
    (hrun : s.Running crawlDegree) (hpop : u ∈ s.frontier) (hopen : web u = none) :
    SavingStep web crawlDegree s (s.pop u) := by
  refine ⟨some u, .fetchFails hrun hpop hopen, fun v hv html hhtml => ?_⟩
  obtain rfl := Option.some.inj hv
  exact absurd (hopen.symm.trans hhtml) (by simp)

/-- `http://h/a` has a link with an opening bracket alone, and `http://h/b` cannot be fetched. -/
def openBracket : Web := fun u =>
  if u = "http://h/a".toList then some "<a href=\"http://[\">".toList else none

/-- `urlparse` raises at the link, outside the `try`, when the page is saved already: what is
crawled when the loop ends depends on the order in which the seeds are popped, and `http://h/b`
may be missing although it is a seed. -/
theorem crawled_depends_on_order :
    ∃ s t, Relation.ReflTransGen (SavingStep openBracket 1)
        (start {"http://h/a".toList, "http://h/b".toList} ⟨[], []⟩) s ∧
      Relation.ReflTransGen (SavingStep openBracket 1)
        (start {"http://h/a".toList, "http://h/b".toList} ⟨[], []⟩) t ∧
      (∀ label r, ¬ Step openBracket 1 s label r) ∧ (∀ label r, ¬ Step openBracket 1 t label r) ∧
      s.crawled = {"http://h/a".toList} ∧
      t.crawled = {"http://h/a".toList, "http://h/b".toList} ∧
      ∀ u, u ∈ t.crawled ↔ ∃ k ≤ 0, Rounds.Level (outLinks openBracket)
        {"http://h/a".toList, "http://h/b".toList} k u := by
  -- popped first, `http://h/a` ends the run before `http://h/b` is popped
  have hfirst : SavingStep openBracket 1
      (start {"http://h/a".toList, "http://h/b".toList} ⟨[], []⟩) _ :=
    savingStep_page (u := "http://h/a".toList) ⟨rfl, by decide⟩ (by decide) rfl (by decide +kernel)
  have hb : SavingStep openBracket 1
      (start {"http://h/a".toList, "http://h/b".toList} ⟨[], []⟩) _ :=
    savingStep_fetchFails (u := "http://h/b".toList) ⟨rfl, by decide⟩ (by decide) rfl
  have ha : SavingStep openBracket 1
      ((start {"http://h/a".toList, "http://h/b".toList} ⟨[], []⟩).pop "http://h/b".toList) _ :=
    savingStep_page (u := "http://h/a".toList) ⟨rfl, by decide⟩ (by decide) rfl (by decide +kernel)
  refine ⟨_, _, .single hfirst, .tail (.single hb) ha, no_step_of_halted (by decide +kernel),
    no_step_of_halted (by decide +kernel), by decide +kernel, by decide +kernel, fun u => ?_⟩
  have hseeds : (processPage ((start {"http://h/a".toList, "http://h/b".toList} ⟨[], []⟩).pop
      "http://h/b".toList) "http://h/a".toList "<a href=\"http://[\">".toList).crawled =
      {"http://h/a".toList, "http://h/b".toList} := by decide +kernel
  simp only [hseeds, Nat.le_zero, exists_eq_left, Rounds.Level.zero_iff]

end Crawler
