import ScriptsMisc.Python.CrawlRuns

/-! # The hosts of a crawl

Links are compared with the page's host and completed by string concatenation. Which links stay on
the hosts of the seeds, and what follows for a whole crawl.
-/

namespace Crawler

open Urlparse SavePage

/-- The host of a seed. -/
def SeedHost (seeds : Finset Str) (netloc : Str) : Prop :=
  ∃ seed ∈ seeds, ∃ seedURL, urlparse seed = some seedURL ∧ seedURL.netloc = netloc

/-- A URL with the host of a seed. -/
def OnSeedHost (seeds : Finset Str) (u : Str) : Prop :=
  ∃ url, urlparse u = some url ∧ SeedHost seeds url.netloc

/-- Every URL that is queued or crawled has the host of a seed. -/
def OnHosts (seeds : Finset Str) (s : State) : Prop :=
  ∀ u ∈ s.frontier ∪ s.newFrontier ∪ s.crawled, OnSeedHost seeds u

/-- Absolute http(s) URLs. -/
def AbsoluteSeeds (seeds : Finset Str) : Prop :=
  ∀ seed ∈ seeds, ∃ seedURL, urlparse seed = some seedURL ∧
    (seedURL.scheme = "http".toList ∨ seedURL.scheme = "https".toList) ∧ seedURL.netloc ≠ []

/-- An admitted link stays on the hosts: if it has a scheme, it also has an authority; if it has
none, it is not protocol-relative, and what it puts directly behind the page's host, up to the first
`/`, `?` or `#`, completes the host of a seed. -/
def LinkStays (seeds : Finset Str) (curURL : ParseResult) (x : Str) : Prop :=
  ∀ linkURL, urlparse x = some linkURL →
    (linkURL.netloc = [] ∨ linkURL.netloc = curURL.netloc) →
    if linkURL.scheme = [] then
      linkURL.netloc = [] ∧ SeedHost seeds (curURL.netloc ++ x.takeWhile authorityChar)
    else linkURL.netloc ≠ []

/-- The links of the page about to be popped stay on the hosts. -/
def LinksStay (web : Web) (seeds : Finset Str) (_ : State) (label : Option Str) : Prop :=
  ∀ u ∈ label, ∀ curHTML curURL, web u = some curHTML → urlparse u = some curURL →
    ∀ x ∈ findLinks curHTML, LinkStays seeds curURL x

/-- A URL that `linkLoop` may complete links with. -/
def Absolute (seeds : Finset Str) (u : Str) : Prop :=
  ∃ url, urlparse u = some url ∧ url.scheme ≠ [] ∧ SeedHost seeds url.netloc

/-- An absolute URL of a seed host is on one. -/
theorem Absolute.onSeedHost {seeds : Finset Str} {u : Str} (h : Absolute seeds u) :
    OnSeedHost seeds u := by
  obtain ⟨url, hparse, -, hhost⟩ := h
  exact ⟨url, hparse, hhost⟩

/-- The seeds are such URLs. -/
theorem AbsoluteSeeds.absolute {seeds : Finset Str} (hseeds : AbsoluteSeeds seeds) {seed : Str}
    (h : seed ∈ seeds) : Absolute seeds seed := by
  obtain ⟨url, hparse, hscheme, -⟩ := hseeds seed h
  refine ⟨url, hparse, ?_, seed, h, url, hparse, rfl⟩
  rcases hscheme with hscheme | hscheme
  · rw [hscheme]
    decide
  · rw [hscheme]
    decide

/-- A seed host has a name. -/
theorem AbsoluteSeeds.netloc_ne_nil {seeds : Finset Str} (hseeds : AbsoluteSeeds seeds)
    {netloc : Str} (h : SeedHost seeds netloc) : netloc ≠ [] := by
  obtain ⟨seed, hseed, url, hparse, rfl⟩ := h
  obtain ⟨url', hparse', -, hne⟩ := hseeds seed hseed
  rw [hparse] at hparse'
  exact Option.some.inj hparse' ▸ hne

/-- The brackets in its name are balanced. -/
theorem SeedHost.not_unbalanced {seeds : Finset Str} {netloc : Str} (h : SeedHost seeds netloc) :
    ¬ Unbalanced netloc := by
  obtain ⟨seed, -, url, hparse, rfl⟩ := h
  exact not_unbalanced_of_urlparse hparse

/-! ## One link -/

/-- A URL completed with a scheme has the host of a seed exactly when the text behind the two
slashes starts with one. -/
theorem onSeedHost_append_iff {seeds : Finset Str} {scheme : Str} (hne : scheme ≠ [])
    (hchars : ∀ c ∈ scheme, schemeChar c = true) (rest : Str) :
    OnSeedHost seeds (scheme ++ "://".toList ++ rest) ↔
      SeedHost seeds (rest.takeWhile authorityChar) := by
  constructor
  · rintro ⟨url, hparse, hhost⟩
    obtain ⟨-, rfl⟩ := (urlparse_append hne hchars).mp hparse
    exact hhost
  · intro hhost
    exact ⟨_, (urlparse_append hne hchars).mpr ⟨hhost.not_unbalanced, rfl⟩, hhost⟩

/-- What is queued for a link has a scheme. -/
theorem scheme_ne_nil_of_rewriteLink {curURL linkURL : ParseResult} {x y : Str}
    (hscheme : curURL.scheme ≠ []) (hchars : ∀ c ∈ curURL.scheme, schemeChar c = true)
    (hlink : urlparse x = some linkURL) (hrewrite : rewriteLink curURL linkURL x = some y)
    {url : ParseResult} (hparse : urlparse y = some url) : url.scheme ≠ [] := by
  rw [rewriteLink] at hrewrite
  split at hrewrite
  · split at hrewrite
    · obtain rfl := Option.some.inj hrewrite
      obtain ⟨-, rfl⟩ := (urlparse_append hscheme hchars).mp hparse
      rwa [parseRest_scheme, ne_eq, List.map_eq_nil_iff]
    · next hne =>
      obtain rfl := Option.some.inj hrewrite
      rw [hlink] at hparse
      exact Option.some.inj hparse ▸ hne
  · exact absurd hrewrite (by simp)

/-- What is queued for a link has the host of a seed exactly when the link stays. -/
theorem onSeedHost_rewriteLink_iff {seeds : Finset Str} (hseeds : AbsoluteSeeds seeds)
    {u x y : Str} {curURL linkURL : ParseResult} (hcur : urlparse u = some curURL)
    (hscheme : curURL.scheme ≠ []) (hhost : SeedHost seeds curURL.netloc)
    (hlink : urlparse x = some linkURL) (hrewrite : rewriteLink curURL linkURL x = some y) :
    OnSeedHost seeds y ↔ LinkStays seeds curURL x := by
  have hadmitted : linkURL.netloc = [] ∨ linkURL.netloc = curURL.netloc := by
    by_contra h
    rw [rewriteLink, if_neg h] at hrewrite
    exact absurd hrewrite (by simp)
  have hstays : LinkStays seeds curURL x ↔
      if linkURL.scheme = [] then
        linkURL.netloc = [] ∧ SeedHost seeds (curURL.netloc ++ x.takeWhile authorityChar)
      else linkURL.netloc ≠ [] := by
    refine ⟨fun h => h linkURL hlink hadmitted, fun h linkURL' hlink' _ => ?_⟩
    rw [hlink] at hlink'
    exact Option.some.inj hlink' ▸ h
  rw [hstays]
  rw [rewriteLink, if_pos hadmitted] at hrewrite
  by_cases hrelative : linkURL.scheme = []
  · rw [if_pos hrelative] at hrewrite ⊢
    obtain rfl := Option.some.inj hrewrite
    rw [onSeedHost_append_iff hscheme (urlparse_scheme_chars hcur)]
    by_cases hnetloc : linkURL.netloc = []
    · rw [if_pos hnetloc, List.takeWhile_append_of_pos (urlparse_netloc_chars hcur)]
      exact ⟨fun h => ⟨hnetloc, h⟩, fun h => h.2⟩
    · -- a second pair of slashes leaves no authority
      obtain ⟨rest, rfl⟩ := exists_eq_slashes hlink hrelative hnetloc
      rw [if_neg hnetloc]
      refine iff_of_false (fun h => hseeds.netloc_ne_nil h ?_) fun h => hnetloc h.1
      rfl
  · rw [if_neg hrelative] at hrewrite ⊢
    obtain rfl := Option.some.inj hrewrite
    constructor
    · rintro ⟨url, hparse, h⟩
      rw [hlink] at hparse
      obtain rfl := Option.some.inj hparse
      exact hseeds.netloc_ne_nil h
    · intro hne
      exact ⟨linkURL, hlink, (hadmitted.resolve_left hne) ▸ hhost⟩

/-! ## Whole runs -/

/-- What an opened page queues. -/
theorem mem_outLinks {web : Web} {u y : Str} :
    y ∈ outLinks web u ↔ ∃ curHTML curURL x linkURL, web u = some curHTML ∧
      urlparse u = some curURL ∧ x ∈ findLinks curHTML ∧ urlparse x = some linkURL ∧
      rewriteLink curURL linkURL x = some y := by
  constructor
  · intro h
    simp only [outLinks] at h
    split at h
    · next curHTML curURL hopen hparse =>
      obtain ⟨x, hx, hbind⟩ := List.mem_filterMap.mp h
      obtain ⟨linkURL, hlink, hrewrite⟩ := Option.bind_eq_some_iff.mp hbind
      exact ⟨curHTML, curURL, x, linkURL, hopen, hparse, hx, hlink, hrewrite⟩
    · exact absurd h List.not_mem_nil
  · rintro ⟨curHTML, curURL, x, linkURL, hopen, hparse, hx, hlink, hrewrite⟩
    simp only [outLinks, hopen, hparse]
    exact List.mem_filterMap.mpr ⟨x, hx, Option.bind_eq_some_iff.mpr ⟨linkURL, hlink, hrewrite⟩⟩

/-- The invariant of runs whose links stay. -/
def AllAbsolute (seeds : Finset Str) (s : State) : Prop :=
  ∀ u ∈ s.frontier ∪ s.newFrontier ∪ s.crawled, Absolute seeds u

/-- Links that stay lead to absolute URLs of seed hosts. -/
theorem absolute_of_mem_outLinks {web : Web} {seeds : Finset Str} (hseeds : AbsoluteSeeds seeds)
    {s : State} {u y : Str} (hu : Absolute seeds u) (hcond : LinksStay web seeds s (some u))
    (hy : y ∈ outLinks web u) : Absolute seeds y := by
  obtain ⟨curHTML, curURL, x, linkURL, hopen, hparse, hx, hlink, hrewrite⟩ := mem_outLinks.mp hy
  obtain ⟨url, hparse', hscheme, hhost⟩ := hu
  rw [hparse] at hparse'
  obtain rfl := Option.some.inj hparse'
  obtain ⟨url, hy, hyhost⟩ := (onSeedHost_rewriteLink_iff hseeds hparse hscheme hhost hlink
    hrewrite).mpr (hcond u rfl curHTML curURL hopen hparse x hx)
  exact ⟨url, hy, scheme_ne_nil_of_rewriteLink hscheme (urlparse_scheme_chars hparse) hlink hrewrite
    hy, hyhost⟩

/-- A step whose links stay keeps all queued URLs such. -/
theorem AllAbsolute.step {web : Web} {crawlDegree : ℕ} {seeds : Finset Str}
    (hseeds : AbsoluteSeeds seeds) {s t : State} {label : Option Str} (hs : AllAbsolute seeds s)
    (hcond : LinksStay web seeds s label) (h : Step web crawlDegree s label t) :
    AllAbsolute seeds t := by
  -- popping `u` moves it from the frontier to the crawled URLs and queues some of its links
  have hpop : ∀ u ∈ s.frontier, label = some u → t.frontier = s.frontier.erase u →
      t.crawled = insert u s.crawled →
      t.newFrontier ⊆ (s.worklists.take (outLinks web) u).next → AllAbsolute seeds t := by
    rintro u hu rfl hfrontier hcrawled hnext v hv
    have hold : ∀ v, v ∈ s.frontier ∨ v ∈ s.newFrontier ∨ v ∈ s.crawled → Absolute seeds v := by
      intro v hv
      apply hs v
      rw [Finset.mem_union, Finset.mem_union]
      tauto
    rw [hfrontier, hcrawled, Finset.mem_union, Finset.mem_union, Finset.mem_insert] at hv
    rcases hv with (hv | hv) | rfl | hv
    · exact hold v (Or.inl (Finset.mem_of_mem_erase hv))
    · rcases Finset.mem_union.mp (hnext hv) with hv | hv
      · exact hold v (Or.inr (Or.inl hv))
      · have hlink := (List.mem_filter.mp (List.mem_toFinset.mp hv)).1
        exact absolute_of_mem_outLinks hseeds (hold u (Or.inl hu)) hcond hlink
    · exact hold v (Or.inl hu)
    · exact hold v (Or.inr (Or.inr hv))
  obtain ⟨-, ⟨u, hu, hlabel, -, htake⟩ |
    ⟨u, hu, hlabel, -, -, hfrontier, hcrawled, -, hnext⟩ | ⟨-, hempty, -, hadv⟩⟩ := step_cases h
  · exact hpop u hu hlabel (congrArg Rounds.State.current htake)
      (congrArg Rounds.State.visited htake)
      (congrArg Rounds.State.next htake ▸ Finset.Subset.refl _)
  · exact hpop u hu hlabel hfrontier hcrawled hnext
  · intro v hv
    apply hs v
    have hfrontier : t.frontier = s.newFrontier := congrArg Rounds.State.current hadv
    have hnew : t.newFrontier = ∅ := congrArg Rounds.State.next hadv
    have hcrawled : t.crawled = s.crawled := congrArg Rounds.State.visited hadv
    rw [hfrontier, hnew, hcrawled, Finset.union_empty] at hv
    rwa [hempty, Finset.empty_union]

/-- At the start the seeds are queued. -/
theorem allAbsolute_start {seeds : Finset Str} (hseeds : AbsoluteSeeds seeds) (store : Store) :
    AllAbsolute seeds (start seeds store) := by
  intro u hu
  apply hseeds.absolute
  simpa [start] using hu

/-- A crawl that starts from absolute http(s) URLs stays on their hosts as long as the links of the
pages it pops stay, and it leaves them with the first page it processes that has another link. -/
theorem crawl_stays_on_hosts (web : Web) (crawlDegree : ℕ) (seeds : Finset Str) (store : Store)
    (hseeds : AbsoluteSeeds seeds) :
    (∀ s, RunWhere web crawlDegree (LinksStay web seeds) (start seeds store) s →
      OnHosts seeds s) ∧
    (∀ s u t, RunWhere web crawlDegree (LinksStay web seeds) (start seeds store) s →
      ¬ LinksStay web seeds s (some u) → Step web crawlDegree s (some u) t → t.halted = false →
      ¬ OnHosts seeds t) := by
  have hinv : ∀ s, RunWhere web crawlDegree (LinksStay web seeds) (start seeds store) s →
      AllAbsolute seeds s := fun s h =>
    h.invariant (allAbsolute_start hseeds store) fun _ _ _ hs hcond hst => hs.step hseeds hcond hst
  refine ⟨fun s h u hu => (hinv s h u hu).onSeedHost, fun s u t hrun hleaves hst hok hhosts => ?_⟩
  refine hleaves fun v hv curHTML curURL hopen hparse x hx linkURL hlink hadmitted => ?_
  obtain rfl := Option.some.inj hv
  obtain ⟨y, hrewrite⟩ : ∃ y, rewriteLink curURL linkURL x = some y := by
    rw [rewriteLink, if_pos hadmitted]
    split
    · exact ⟨_, rfl⟩
    · exact ⟨_, rfl⟩
  obtain ⟨-, ⟨w, hw, hlabel, -, htake⟩ | ⟨w, -, -, hhalt, -⟩ | ⟨hlabel, -⟩⟩ := step_cases hst
  · obtain rfl := Option.some.inj hlabel
    have hu : Absolute seeds u := hinv s hrun u
      (Finset.mem_union_left _ (Finset.mem_union_left _ hw))
    -- the link is crawled already or has been queued
    have hmem : y ∈ t.frontier ∪ t.newFrontier ∪ t.crawled := by
      have hnext : t.newFrontier = _ := congrArg Rounds.State.next htake
      have hcrawled : t.crawled = insert u s.crawled := congrArg Rounds.State.visited htake
      by_cases hy : y ∈ insert u s.crawled
      · exact Finset.mem_union_right _ (hcrawled ▸ hy)
      · refine Finset.mem_union_left _ (Finset.mem_union_right _ ?_)
        rw [hnext]
        refine Finset.mem_union_right _ (List.mem_toFinset.mpr (List.mem_filter.mpr ⟨?_, ?_⟩))
        · exact mem_outLinks.mpr ⟨curHTML, curURL, x, linkURL, hopen, hparse, hx, hlink, hrewrite⟩
        · simpa [State.worklists] using hy
    obtain ⟨url, hparse', hscheme, hhost⟩ := hu
    rw [hparse] at hparse'
    obtain rfl := Option.some.inj hparse'
    exact (onSeedHost_rewriteLink_iff hseeds hparse hscheme hhost hlink hrewrite).mp
      (hhosts y hmem) linkURL hlink hadmitted
  · exact absurd (hok.symm.trans hhalt) Bool.false_ne_true
  · exact absurd hlabel (by simp)

/-- The link from `http://h/a` to `/b` stays on the host. -/
theorem crawl_stays_on_hosts_a :
    ∃ s, RunWhere linkToB 2 (LinksStay linkToB {"http://h/a".toList})
        (start {"http://h/a".toList} ⟨[], []⟩) s ∧
      "http://h/b".toList ∈ s.newFrontier ∧ OnHosts {"http://h/a".toList} s := by
  have hparse : urlparse "http://h/a".toList =
      some ⟨"http".toList, "h".toList, "/a".toList, [], [], []⟩ := by decide
  have hlink : urlparse "/b".toList = some ⟨[], [], "/b".toList, [], [], []⟩ := by decide
  have hlinks : findLinks "<a href=\"/b\">".toList = ["/b".toList] := by decide +kernel
  have hrun : RunWhere linkToB 2 (LinksStay linkToB {"http://h/a".toList})
      (start {"http://h/a".toList} ⟨[], []⟩) _ :=
    .step .start
      (fun u hu curHTML curURL hopen hcur x hx linkURL hx' _ => by
        obtain rfl := Option.some.inj hu
        obtain rfl : "<a href=\"/b\">".toList = curHTML := Option.some.inj hopen
        obtain rfl := Option.some.inj (hparse.symm.trans hcur)
        rw [hlinks, List.mem_singleton] at hx
        obtain rfl := hx
        obtain rfl := Option.some.inj (hlink.symm.trans hx')
        rw [if_pos rfl]
        exact ⟨rfl, _, Finset.mem_singleton_self _, _, hparse, by decide⟩)
      (@Step.page linkToB 2 _ "http://h/a".toList _ ⟨rfl, by decide⟩ (by decide) rfl)
  refine ⟨_, hrun, by decide +kernel, (crawl_stays_on_hosts linkToB 2 _ _ ?_).1 _ hrun⟩
  intro seed hseed
  obtain rfl := Finset.mem_singleton.mp hseed
  exact ⟨_, hparse, Or.inl rfl, by decide⟩

/-- A page with one link, to `page.html`. -/
def linkToPage : Web := fun _ => some "<a href=\"page.html\">".toList

/-- The link `page.html` on `http://h.org/` is queued as `http://h.orgpage.html`. -/
theorem crawl_leaves_hosts :
    AbsoluteSeeds {"http://h.org/".toList} ∧
    ∃ s, Run linkToPage 3 (start {"http://h.org/".toList} ⟨[], []⟩) s ∧
      "http://h.orgpage.html".toList ∈ s.newFrontier ∧ ¬ OnHosts {"http://h.org/".toList} s := by
  have hparse : urlparse "http://h.org/".toList =
      some ⟨"http".toList, "h.org".toList, "/".toList, [], [], []⟩ := by decide
  have hpage : urlparse "http://h.orgpage.html".toList =
      some ⟨"http".toList, "h.orgpage.html".toList, [], [], [], []⟩ := by decide
  refine ⟨fun seed hseed => ?_, ?_⟩
  · obtain rfl := Finset.mem_singleton.mp hseed
    exact ⟨_, hparse, Or.inl rfl, by decide⟩
  have hrun : Run linkToPage 3 (start {"http://h.org/".toList} ⟨[], []⟩) _ :=
    .step .start trivial
      (@Step.page linkToPage 3 _ "http://h.org/".toList _ ⟨rfl, by decide⟩ (by decide) rfl)
  have hmem : "http://h.orgpage.html".toList ∈
      (processPage (start {"http://h.org/".toList} ⟨[], []⟩) "http://h.org/".toList
        "<a href=\"page.html\">".toList).newFrontier := by decide +kernel
  refine ⟨_, hrun, hmem, fun hhosts => ?_⟩
  obtain ⟨url, hurl, seed, hseed, seedURL, hseedURL, hnetloc⟩ :=
    hhosts _ (Finset.mem_union_left _ (Finset.mem_union_right _ hmem))
  obtain rfl := Finset.mem_singleton.mp hseed
  rw [← Option.some.inj (hpage.symm.trans hurl), ← Option.some.inj (hparse.symm.trans hseedURL)]
    at hnetloc
  exact absurd hnetloc (by decide)

end Crawler
