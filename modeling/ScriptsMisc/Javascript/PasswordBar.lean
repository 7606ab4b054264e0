import ScriptsMisc.Javascript.PasswordEncoding

/-! # The password bar as a state machine

The user script arms the password fields of a page: a focused or clicked field opens the bar.
Leaving the bar for the field disarms the field, and its blur arms it again. The handlers share
one global, `passwordInput`, and fire each other through the focus they move.
-/

namespace PasswordBar

open PasswordEncoding

/-- The text of an `onfocus` or `onclick` attribute; `own` is what the page had there. -/
inductive ShowAttr where
  | own
  | empty
  | showPasswordBar
deriving DecidableEq, Repr

/-- The text of an `onblur` attribute. -/
inductive BlurAttr where
  | own
  | empty
  | resetPasswordFieldAction
deriving DecidableEq, Repr

/-- The attributes of a password field that the script writes. -/
structure Field where
  onfocus : ShowAttr
  onclick : ShowAttr
  onblur : BlurAttr
deriving DecidableEq, Repr

/-- Where the focus is: in a password field, in one of the inputs of the bar, or elsewhere. -/
inductive Focus (n : ℕ) where
  | field (i : Fin n)
  | bar
  | elsewhere
deriving DecidableEq, Repr

/-- The page: `barShown` is `display` of `passwordEncodeWrapper`. -/
structure Page (n : ℕ) where
  fields : Fin n → Field
  passwordInput : Option (Fin n)
  focus : Focus n
  barShown : Bool

variable {n : ℕ}

def Page.setOnfocus (s : Page n) (i : Fin n) (value : ShowAttr) : Page n :=
  { s with fields := Function.update s.fields i { s.fields i with onfocus := value } }

def Page.setOnclick (s : Page n) (i : Fin n) (value : ShowAttr) : Page n :=
  { s with fields := Function.update s.fields i { s.fields i with onclick := value } }

def Page.setOnblur (s : Page n) (i : Fin n) (value : BlurAttr) : Page n :=
  { s with fields := Function.update s.fields i { s.fields i with onblur := value } }

/-! ## The handlers -/

def resetPasswordFieldAction (s : Page n) : Page n :=
  match s.passwordInput with
  | none => s
  | some i => ((s.setOnblur i .empty).setOnclick i .showPasswordBar).setOnfocus i .showPasswordBar

/-- The element that has the focus runs its `onblur`; the inputs of the bar have none. -/
def fireBlur (s : Page n) : Page n :=
  match s.focus with
  | .field i =>
    match (s.fields i).onblur with
    | .resetPasswordFieldAction => resetPasswordFieldAction s
    | .own | .empty => s
  | .bar | .elsewhere => s

/-- `document.getElementById('vigenerePassKey').focus ()`. -/
def focusBar (s : Page n) : Page n :=
  if s.focus = .bar then s else { fireBlur s with focus := .bar }

def showPasswordBar (elem : Fin n) (s : Page n) : Page n :=
  focusBar { s with passwordInput := some elem, barShown := true }

/-- What an `onfocus` or `onclick` of field `i` does when it fires. -/
def runShow (attr : ShowAttr) (i : Fin n) (s : Page n) : Page n :=
  match attr with
  | .showPasswordBar => showPasswordBar i s
  | .own | .empty => s

/-- Field `i` takes the focus: the blur of the old element comes first. -/
def focusField (i : Fin n) (s : Page n) : Page n :=
  if s.focus = .field i then s
  else
    let s := { fireBlur s with focus := .field i }
    runShow (s.fields i).onfocus i s

/-- The focus leaves for something that is neither a password field nor in the bar. -/
def leave (s : Page n) : Page n := { fireBlur s with focus := .elsewhere }

/-- An undefined `passwordInput` throws at the first line. -/
def focusPassword (s : Page n) : Page n :=
  match s.passwordInput with
  | none => s
  | some i =>
    let s := focusField i (s.setOnfocus i .empty)
    (s.setOnclick i .empty).setOnblur i .resetPasswordFieldAction

def hidePassKey (s : Page n) : Page n := { s with barShown := false }

def closeToolBar (s : Page n) : Page n := focusPassword (hidePassKey s)

/-- What `generatePass` does to the page. Neither a written value nor a prompt touches an
attribute or the focus. -/
def runEffect (s : Page n) : Effect → Page n
  | .hidePassKey => hidePassKey s
  | .focusPassword => focusPassword s
  | .setPasswordInput _ => s
  | .prompt _ _ => s

/-! ## Loading the page and the events after it -/

/-- The loop that arms the fields. -/
def arm (s : Page n) : Page n :=
  (List.finRange n).foldl
    (fun s i => (s.setOnfocus i .showPasswordBar).setOnclick i .showPasswordBar) s

/-- The page when the script is done. What `passwordInput` and the focus are by then is up to
the browser and the page. -/
def load (passwordInput : Option (Fin n)) (focus : Focus n) : Page n :=
  arm { fields := fun _ => ⟨.own, .own, .own⟩, passwordInput := passwordInput, focus := focus,
        barShown := false }

/-- What the user does. `key` is a key released in one of the two inputs of the bar. -/
inductive Event (n : ℕ) where
  | focus (i : Fin n)
  | click (i : Fin n)
  | leave
  | enterBar
  | key (keyCode : ℕ) (vigenerePassKey domain : Str)
  | clickShow (vigenerePassKey domain : Str)
  | clickClose
deriving DecidableEq, Repr

/-- One event. A click focuses the field before its `onclick` fires; the bar is only there to be
clicked while it is shown, and only an element with the focus gets keys. -/
def step (s : Page n) : Event n → Page n
  | .focus i => focusField i s
  | .click i =>
    let s := focusField i s
    runShow (s.fields i).onclick i s
  | .leave => leave s
  | .enterBar => if s.barShown = true then focusBar s else s
  | .key keyCode vigenerePassKey domain =>
    if s.focus = .bar then (generatePass keyCode true vigenerePassKey domain).foldl runEffect s
    else s
  | .clickShow vigenerePassKey domain =>
    if s.barShown = true then (generatePass 0 false vigenerePassKey domain).foldl runEffect s
    else s
  | .clickClose => if s.barShown = true then closeToolBar s else s

/-! ## Armed and released fields -/

/-- The field opens the bar, and leaving it does nothing to it. -/
def Field.Armed (f : Field) : Prop :=
  f.onfocus = .showPasswordBar ∧ f.onclick = .showPasswordBar ∧
    f.onblur ≠ .resetPasswordFieldAction

/-- Field `i` is the one in use: its blur will arm it again. -/
def Page.InUse (s : Page n) (i : Fin n) : Prop :=
  s.passwordInput = some i ∧ s.focus = .field i ∧
    (s.fields i).onblur = .resetPasswordFieldAction

def Page.AllArmed (s : Page n) : Prop := ∀ i, (s.fields i).Armed

/-- No field is left disarmed. -/
def Page.Settled (s : Page n) : Prop := ∀ i, (s.fields i).Armed ∨ s.InUse i

/-- Fields that are all armed are settled. -/
theorem Page.AllArmed.settled {s : Page n} (h : s.AllArmed) : s.Settled := fun i => Or.inl (h i)

/-- A write to field `i` is not seen at another field. -/
theorem setOnfocus_of_ne (s : Page n) {i j : Fin n} (hji : j ≠ i) (value : ShowAttr) :
    (s.setOnfocus i value).fields j = s.fields j := Function.update_of_ne hji _ _

/-- The other fields keep their attributes. -/
theorem setOnclick_of_ne (s : Page n) {i j : Fin n} (hji : j ≠ i) (value : ShowAttr) :
    (s.setOnclick i value).fields j = s.fields j := Function.update_of_ne hji _ _

theorem setOnblur_of_ne (s : Page n) {i j : Fin n} (hji : j ≠ i) (value : BlurAttr) :
    (s.setOnblur i value).fields j = s.fields j := Function.update_of_ne hji _ _

/-- Arming the fields arms them all. -/
theorem arm_allArmed (s : Page n) (hblur : ∀ i, (s.fields i).onblur = .own) :
    (arm s).AllArmed := by
  -- the fields already passed are armed, the others still have their own blur
  have hloop : ∀ (is : List (Fin n)) (s : Page n),
      (∀ i, (s.fields i).Armed ∨ (s.fields i).onblur = .own ∧ i ∈ is) →
      (is.foldl (fun s i => (s.setOnfocus i .showPasswordBar).setOnclick i .showPasswordBar)
        s).AllArmed := by
    intro is
    induction is with
    | nil => exact fun s hs i => (hs i).resolve_right (fun h => absurd h.2 List.not_mem_nil)
    | cons i is ih =>
      intro s hs
      apply ih
      intro j
      by_cases hji : j = i
      · subst hji
        left
        have hown : (s.fields j).onblur ≠ .resetPasswordFieldAction := by
          rcases hs j with harmed | ⟨hblur, -⟩
          · exact harmed.2.2
          · rw [hblur]
            exact BlurAttr.noConfusion
        simpa [Field.Armed, Page.setOnfocus, Page.setOnclick] using hown
      · rw [setOnclick_of_ne _ hji, setOnfocus_of_ne _ hji]
        rcases hs j with harmed | ⟨hblur, hmem⟩
        · exact Or.inl harmed
        · exact Or.inr ⟨hblur, (List.mem_cons.mp hmem).resolve_left hji⟩
  exact hloop _ s fun i => Or.inr ⟨hblur i, List.mem_finRange i⟩

/-! ## What the handlers keep -/

/-- The blur of the element with the focus arms the field in use, and there is no other. -/
theorem fireBlur_allArmed {s : Page n} (h : s.Settled) : (fireBlur s).AllArmed := by
  intro i
  rcases h i with harmed | ⟨hinput, hfocus, hblur⟩
  · unfold fireBlur
    split
    · next j hfocus =>
      split
      · next hblur =>
        -- field `j` has the focus and is in use
        obtain ⟨hinput, -, -⟩ := (h j).resolve_left (fun hj => hj.2.2 hblur)
        unfold resetPasswordFieldAction
        rw [hinput]
        by_cases hij : i = j
        · subst hij
          simp [Field.Armed, Page.setOnfocus, Page.setOnclick, Page.setOnblur]
        · show ((Page.setOnfocus _ j _).fields i).Armed
          rw [setOnfocus_of_ne _ hij, setOnclick_of_ne _ hij, setOnblur_of_ne _ hij]
          exact harmed
      · exact harmed
      · exact harmed
    · exact harmed
    · exact harmed
  · simp [fireBlur, hfocus, hblur, resetPasswordFieldAction, hinput, Field.Armed,
      Page.setOnfocus, Page.setOnclick, Page.setOnblur]

/-- Moving the focus to the bar leaves the fields settled. -/
theorem focusBar_settled {s : Page n} (h : s.Settled) : (focusBar s).Settled := by
  unfold focusBar
  split
  · exact h
  · exact Page.AllArmed.settled (fireBlur_allArmed h)

/-- The bar opens for field `i` when no other field is in use. -/
theorem showPasswordBar_settled {s : Page n} {i : Fin n} (h : s.Settled)
    (honly : ∀ j, s.InUse j → j = i) : (showPasswordBar i s).Settled := by
  apply focusBar_settled
  intro j
  rcases h j with harmed | huse
  · exact Or.inl harmed
  · obtain rfl := honly j huse
    exact Or.inr ⟨rfl, huse.2⟩

/-- Showing the bar for the field in use leaves the fields settled. -/
theorem runShow_settled {s : Page n} {i : Fin n} (attr : ShowAttr) (h : s.Settled)
    (honly : ∀ j, s.InUse j → j = i) : (runShow attr i s).Settled := by
  cases attr with
  | showPasswordBar => exact showPasswordBar_settled h honly
  | own => exact h
  | empty => exact h

/-- A field that is in use has the focus. -/
theorem eq_of_inUse {s : Page n} {i j : Fin n} (hfocus : s.focus = .field i)
    (huse : s.InUse j) : j = i :=
  (Focus.field.inj (hfocus.symm.trans huse.2.1)).symm

/-- No armed field is in use. -/
theorem not_inUse_of_allArmed {s : Page n} (h : s.AllArmed) (j : Fin n) : ¬ s.InUse j :=
  fun huse => (h j).2.2 huse.2.2

/-- Losing the focus does not change the field that is filled in. -/
theorem fireBlur_passwordInput (s : Page n) : (fireBlur s).passwordInput = s.passwordInput := by
  unfold fireBlur resetPasswordFieldAction
  split
  · split
    · split <;> rfl
    · rfl
    · rfl
  · rfl
  · rfl

/-- The bar is shown for its field. -/
theorem showPasswordBar_passwordInput (i : Fin n) (s : Page n) :
    (showPasswordBar i s).passwordInput = some i := by
  unfold showPasswordBar focusBar
  split
  · rfl
  · exact fireBlur_passwordInput _

/-- Moving the focus to a field leaves the fields settled. -/
theorem focusField_settled {s : Page n} (i : Fin n) (h : s.Settled) :
    (focusField i s).Settled := by
  unfold focusField
  split
  · exact h
  · have harmed : Page.AllArmed { fireBlur s with focus := .field i } := fireBlur_allArmed h
    exact runShow_settled _ harmed.settled fun j huse =>
      absurd huse (not_inUse_of_allArmed harmed j)

/-- Once field `i` was focused no other field is in use. -/
theorem eq_of_inUse_focusField {s : Page n} {i j : Fin n} (h : s.Settled)
    (huse : (focusField i s).InUse j) : j = i := by
  unfold focusField at huse
  split at huse
  · next hfocus => exact eq_of_inUse hfocus huse
  · have harmed : Page.AllArmed { fireBlur s with focus := .field i } := fireBlur_allArmed h
    dsimp only [runShow] at huse
    split at huse
    · exact Option.some.inj (huse.1.symm.trans (showPasswordBar_passwordInput i _))
    · exact absurd huse (not_inUse_of_allArmed harmed j)
    · exact absurd huse (not_inUse_of_allArmed harmed j)

/-- Without its `onfocus` the field held in `passwordInput` takes the focus and nothing else
happens: the element that had it is no other field in use. -/
theorem focusField_of_empty {s : Page n} {i : Fin n} (h : s.Settled)
    (hinput : s.passwordInput = some i) :
    focusField i (s.setOnfocus i .empty) =
      { s.setOnfocus i .empty with focus := .field i } := by
  unfold focusField
  split
  · next hfocus => rw [← hfocus]
  · next hfocus =>
    have hblur : fireBlur (s.setOnfocus i .empty) = s.setOnfocus i .empty := by
      unfold fireBlur
      split
      · next j hj =>
        have hji : j ≠ i := by
          rintro rfl
          exact hfocus hj
        rw [setOnfocus_of_ne s hji]
        split
        · next hreset =>
          have huse := (h j).resolve_left (fun harmed => harmed.2.2 hreset)
          exact absurd (Option.some.inj (huse.1.symm.trans hinput)) hji
        · rfl
        · rfl
      · rfl
      · rfl
    have hempty : ((s.setOnfocus i .empty).fields i).onfocus = .empty := by
      simp [Page.setOnfocus]
    simp only [hblur, hempty, runShow]

/-- The field held in `passwordInput` is the one in use afterwards. -/
theorem focusPassword_settled {s : Page n} (h : s.Settled) : (focusPassword s).Settled := by
  unfold focusPassword
  split
  · exact h
  · next i hinput =>
    rw [focusField_of_empty h hinput]
    intro j
    by_cases hji : j = i
    · subst hji
      refine Or.inr ⟨hinput, rfl, ?_⟩
      simp [Page.setOnblur]
    · left
      have harmed := (h j).resolve_right
        (fun huse => hji (Option.some.inj (huse.1.symm.trans hinput)))
      rw [setOnblur_of_ne _ hji, setOnclick_of_ne _ hji]
      show ((s.setOnfocus i .empty).fields j).Armed
      rw [setOnfocus_of_ne s hji]
      exact harmed

/-- Every effect of an event leaves the fields settled. -/
theorem runEffect_settled {s : Page n} (e : Effect) (h : s.Settled) :
    (runEffect s e).Settled := by
  cases e with
  | hidePassKey => exact h
  | focusPassword => exact focusPassword_settled h
  | setPasswordInput value => exact h
  | prompt message value => exact h

theorem foldl_runEffect_settled {s : Page n} (es : List Effect) (h : s.Settled) :
    (es.foldl runEffect s).Settled := by
  induction es generalizing s with
  | nil => exact h
  | cons e es ih => exact ih (runEffect_settled e h)

/-- Every event leaves each field armed or in use. -/
theorem step_settled {s : Page n} (e : Event n) (h : s.Settled) : (step s e).Settled := by
  cases e with
  | focus i => exact focusField_settled i h
  | click i =>
    exact runShow_settled _ (focusField_settled i h) fun j huse => eq_of_inUse_focusField h huse
  | leave => exact Page.AllArmed.settled (fireBlur_allArmed h)
  | enterBar =>
    dsimp only [step]
    split
    · exact focusBar_settled h
    · exact h
  | key keyCode vigenerePassKey domain =>
    dsimp only [step]
    split
    · exact foldl_runEffect_settled _ h
    · exact h
  | clickShow vigenerePassKey domain =>
    dsimp only [step]
    split
    · exact foldl_runEffect_settled _ h
    · exact h
  | clickClose =>
    dsimp only [step]
    split
    · exact focusPassword_settled h
    · exact h

/-- In every state between two events each field opens the bar when it is focused or clicked, or
it is the field held in `passwordInput`, has the focus and will be armed by its blur. -/
theorem armed_or_inUse (passwordInput : Option (Fin n)) (focus : Focus n)
    (events : List (Event n)) (i : Fin n) :
    ((events.foldl step (load passwordInput focus)).fields i).Armed ∨
      (events.foldl step (load passwordInput focus)).InUse i := by
  have hload : (load passwordInput focus).Settled :=
    (arm_allArmed _ fun _ => rfl).settled
  -- the induction is on the events, from any settled page
  have hrun : ∀ (events : List (Event n)) (s : Page n), s.Settled →
      (events.foldl step s).Settled := by
    intro events
    induction events with
    | nil => exact fun s hs => hs
    | cons e events ih => exact fun s hs => ih _ (step_settled e hs)
  exact hrun events _ hload i

example : ([.click 0, .key 65 ['s'] ['g'], .key 13 ['s'] ['g']].foldl step
    (load (n := 2) none .elsewhere)).focus = .field 0 := by decide

end PasswordBar
