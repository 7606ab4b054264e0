import ScriptsMisc.Lib.Rounds
import ScriptsMisc.Python.SavePage

/-! # The web crawler

`web-crawler.py` crawls a set of seeds to a fixed depth. `frontier.pop()` yields an arbitrary
element, so the loop is a step relation; the label of a step is the page it opens.
-/

namespace Crawler

open Urlparse SavePage

/-! ## Links -/

/-- `.` of a Python pattern. -/
def pyDot (c : Char) : Bool := c != '\n'

/-- `l`, the pattern of a link: `<a\s*href=['|"](.*?)['"].*?>`. -/
def linkPattern : Regex.Pat :=
  .seq (.lit "<a".toList) <| .seq (.star true Text.isSpace) <| .seq (.lit "href=".toList) <|
  .seq (.cls fun c => c == '\'' || c == '|' || c == '"') <|
  .seq (.group (.star false pyDot)) <| .seq (.cls fun c => c == '\'' || c == '"') <|
  .seq (.star false pyDot) (.chr '>')

/-- `re.findall(l, curHTML)`: what the group of each match captured. -/
def findLinks (curHTML : Str) : List Str :=
  (Regex.findAll linkPattern curHTML).map fun m => m.groups.headD []

/-- The URL that is queued for a link `x` of the page at `curURL`, parsed as `linkURL`; `none` for
a link to another host. -/
def rewriteLink (curURL linkURL : ParseResult) (x : Str) : Option Str :=
  if linkURL.netloc = [] ∨ linkURL.netloc = curURL.netloc then
    if linkURL.scheme = [] then
      let x := if linkURL.netloc = [] then curURL.netloc ++ x else x
      some (curURL.scheme ++ "://".toList ++ x)
    else some x
  else none

/-- The loop over the links of a page, with the set it fills; `false` says that `urlparse` raised
an exception at a link. -/
def linkLoop (curURL : ParseResult) (crawled : Finset Str) :
    List Str → Finset Str → Finset Str × Bool
  | [], newFrontier => (newFrontier, true)
  | x :: links, newFrontier =>
    match urlparse x with
    | none => (newFrontier, false)
    | some linkURL =>
      match rewriteLink curURL linkURL x with
      | some x =>
        -- the rest of `frontier` is not asked
        linkLoop curURL crawled links
          (if x ∈ crawled then newFrontier else insert x newFrontier)
      | none => linkLoop curURL crawled links newFrontier

/-! ## The crawl loop -/

/-- What `urllib2.urlopen(u).read()` yields for each `u`; `none` is a failure. -/
abbrev Web := Str → Option Str

/-- The variables of the loop; `opened` lists the URLs passed to `urlopen`, `halted` says that an
exception ended the run. -/
structure State where
  cd : ℕ
  frontier : Finset Str
  newFrontier : Finset Str
  crawled : Finset Str
  opened : List Str
  store : Store
  halted : Bool

/-- The state in which the loop starts. -/
def start (seeds : Finset Str) (store : Store) : State := ⟨0, seeds, ∅, ∅, [], store, false⟩

/-- `frontier.pop()`, `crawled.add(curPage)` and the call of `urlopen`. -/
def State.pop (s : State) (curPage : Str) : State :=
  { s with
    frontier := s.frontier.erase curPage
    crawled := insert curPage s.crawled
    opened := s.opened ++ [curPage] }

/-- A page that was fetched: it is saved and its links are queued. -/
def processPage (s : State) (curPage curHTML : Str) : State :=
  let s := s.pop curPage
  match urlparse curPage with
  | none => { s with halted := true }
  | some curURL =>
    match savePage s.store curURL curHTML with
    | none => { s with halted := true }
    | some store =>
      let (newFrontier, completed) := linkLoop curURL s.crawled (findLinks curHTML) s.newFrontier
      { s with store := store, newFrontier := newFrontier, halted := !completed }

/-- The run is in one of the `crawlDegree` rounds. -/
def State.Running (s : State) (crawlDegree : ℕ) : Prop := s.halted = false ∧ s.cd < crawlDegree

/-- The loop has ended without an exception. -/
def State.Done (s : State) (crawlDegree : ℕ) : Prop := s.halted = false ∧ s.cd = crawlDegree

/-- One step of the loop. -/
inductive Step (web : Web) (crawlDegree : ℕ) : State → Option Str → State → Prop
  | fetchFails {s : State} {curPage : Str} (hrun : s.Running crawlDegree)
      (hpop : curPage ∈ s.frontier) (hopen : web curPage = none) :
      Step web crawlDegree s (some curPage) (s.pop curPage)
  | page {s : State} {curPage curHTML : Str} (hrun : s.Running crawlDegree)
      (hpop : curPage ∈ s.frontier) (hopen : web curPage = some curHTML) :
      Step web crawlDegree s (some curPage) (processPage s curPage curHTML)
  -- the disk refuses the page for a reason of its own
  | saveRaises {s : State} {curPage curHTML : Str} (hrun : s.Running crawlDegree)
      (hpop : curPage ∈ s.frontier) (hopen : web curPage = some curHTML) :
      Step web crawlDegree s (some curPage) { s.pop curPage with halted := true }
  | nextRound {s : State} (hrun : s.Running crawlDegree) (hempty : s.frontier = ∅) :
      Step web crawlDegree s none
        { s with cd := s.cd + 1, frontier := s.newFrontier, newFrontier := ∅ }

/-- A run all of whose steps meet a condition on the state before the step and its label. -/
inductive RunWhere (web : Web) (crawlDegree : ℕ) (cond : State → Option Str → Prop) (s₀ : State) :
    State → Prop
  | start : RunWhere web crawlDegree cond s₀ s₀
  | step {s t : State} {label : Option Str} (hrun : RunWhere web crawlDegree cond s₀ s)
      (hcond : cond s label) (hstep : Step web crawlDegree s label t) :
      RunWhere web crawlDegree cond s₀ t

/-- A run of the crawler. -/
abbrev Run (web : Web) (crawlDegree : ℕ) : State → State → Prop :=
  RunWhere web crawlDegree fun _ _ => True

/-! ## Admitted links -/

/-- The rewritten, admitted links of a page. -/
def admittedLinks (curURL : ParseResult) (links : List Str) : List Str :=
  links.filterMap fun x => (urlparse x).bind fun linkURL => rewriteLink curURL linkURL x

/-- The rewritten, admitted links of the page at `u`; none when it cannot be fetched. -/
def outLinks (web : Web) (u : Str) : List Str :=
  match web u, urlparse u with
  | some curHTML, some curURL => admittedLinks curURL (findLinks curHTML)
  | _, _ => []

end Crawler
