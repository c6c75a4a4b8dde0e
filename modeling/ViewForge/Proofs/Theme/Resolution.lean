import ViewForge.Proofs.Theme.Chain

/-! What a themed value comes to, told by the values that it leads to: it refers to an item, the
value of that item may refer to another, and so on. A chain that ends soon enough gives the value at
its end, changed by everything on the way, the last first; any other chain gives an error. -/
namespace ViewForge

section Chains

variable {α : Type} (item? : α → Option String) (value? : String → Option α)

/-- From the first value the chain comes to the last, through those that are listed: each of them
refers to an item, whose value is the next. -/
inductive Leads : α → List α → α → Prop where
  | here (a : α) : Leads a [] a
  | step {a b last : α} {item : String} {passed : List α} (refers : item? a = some item)
      (given : value? item = some b) (rest : Leads b passed last) : Leads a (a :: passed) last

structure Evaluated {β : Type} (theme : String) (finish : List α → α → Option β) (start : α)
    (answer : Result β) : Prop where
  ends : ∀ passed last, Leads item? value? start passed last → item? last = none →
    passed.length ≤ 16 → ∃ v, finish passed last = some v ∧ answer = .ok v
  missing : ∀ passed last item, Leads item? value? start passed last → item? last = some item →
    passed.length < 16 → value? item = none → answer = .error (.themedItemNotFound theme item)
  deeper : ∀ passed last item, Leads item? value? start passed last → item? last = some item →
    passed.length = 16 → answer = .error (LiveContext.cyclic item)
  around : ∀ before turn loop, Leads item? value? start before turn →
    Leads item? value? turn loop turn → loop ≠ [] →
    ∃ item, answer = .error (LiveContext.cyclic item)
  settled : ∃ passed last, Leads item? value? start passed last ∧
    (item? last = none ∧ passed.length ≤ 16 ∨ ∃ item, item? last = some item ∧
      (passed.length < 16 ∧ value? item = none ∨ passed.length = 16))

structure Unfolds {β : Type} (theme : String) (finish : List α → α → Option β)
    (run : Nat → α → Result β) : Prop where
  ends : ∀ a steps, item? a = none → ∃ v, finish [] a = some v ∧ run steps a = .ok v
  stops : ∀ a item, item? a = some item → run 0 a = .error (LiveContext.cyclic item)
  lost : ∀ a item steps, item? a = some item → value? item = none →
    run (steps + 1) a = .error (.themedItemNotFound theme item)
  goes : ∀ a b item steps, item? a = some item → value? item = some b →
    ∃ f : β → β, run (steps + 1) a = (run steps b).map f ∧
      ∀ passed last, finish (a :: passed) last = (finish passed last).map f

variable {item?} {value?} {a b c : α} {passed more : List α}

theorem leadsFurther (first : Leads item? value? a passed b)
    (rest : Leads item? value? b more c) : Leads item? value? a (passed ++ more) c := by
  induction first with
  | here => exact rest
  | step refers given _ ih => exact .step refers given (ih rest)

/- Whatever a chain passes refers to an item. -/
theorem leadsBefore (leads : Leads item? value? a passed b) {n : Nat} (within : n < passed.length) :
    ∃ some' last item, Leads item? value? a some' last ∧ some'.length = n ∧
      item? last = some item := by
  induction leads generalizing n with
  | here => simp at within
  | @step a b last item passed refers given rest ih =>
    cases n with
    | zero => exact ⟨[], a, item, .here a, rfl, refers⟩
    | succ n =>
      obtain ⟨before, x, other, early, long, again⟩ := ih (Nat.lt_of_succ_lt_succ within)
      exact ⟨a :: before, x, other, .step refers given early, by simp [long], again⟩

/- A chain that comes back goes on as long as one likes. -/
theorem leadsAround (leads : Leads item? value? a passed a) (turns : passed ≠ []) (n : Nat) :
    ∃ long, Leads item? value? a long a ∧ n < long.length := by
  have some' : 0 < passed.length := List.length_pos_iff.mpr turns
  induction n with
  | zero => exact ⟨passed, leads, some'⟩
  | succ n ih =>
    obtain ⟨long, around, longer⟩ := ih
    refine ⟨long ++ passed, leadsFurther around leads, ?_⟩
    rw [List.length_append]
    omega

/- Within any number of steps a chain has ended, is lost, or could go on. -/
theorem leadsSettled (start : α) (n : Nat) : ∃ passed last, Leads item? value? start passed last ∧
    (item? last = none ∧ passed.length ≤ n ∨ ∃ item, item? last = some item ∧
      (passed.length < n ∧ value? item = none ∨ passed.length = n)) := by
  induction n generalizing start with
  | zero =>
    refine ⟨[], start, .here start, ?_⟩
    cases refers : item? start with
    | none => exact .inl ⟨rfl, Nat.le_refl 0⟩
    | some item => exact .inr ⟨item, rfl, .inr rfl⟩
  | succ n ih =>
    cases refers : item? start with
    | none => exact ⟨[], start, .here start, .inl ⟨refers, Nat.zero_le _⟩⟩
    | some item =>
      cases given : value? item with
      | none =>
        exact ⟨[], start, .here start, .inr ⟨item, refers, .inl ⟨Nat.succ_pos n, given⟩⟩⟩
      | some next =>
        obtain ⟨passed, last, rest, outcome⟩ := ih next
        refine ⟨start :: passed, last, .step refers given rest, ?_⟩
        simpa using outcome

section Run

variable {β : Type} {theme : String} {finish : List α → α → Option β} {run : Nat → α → Result β}

theorem runEnds (unfolds : Unfolds item? value? theme finish run)
    (leads : Leads item? value? a passed b) (ends : item? b = none) {steps : Nat}
    (room : passed.length ≤ steps) : ∃ v, finish passed b = some v ∧ run steps a = .ok v := by
  induction leads generalizing steps with
  | here a => exact unfolds.ends a steps ends
  | @step a b last item passed refers given rest ih =>
    obtain ⟨steps, rfl⟩ := Nat.exists_eq_add_one_of_ne_zero (Nat.ne_zero_of_lt room)
    obtain ⟨v, finished, ok⟩ := ih ends (Nat.le_of_succ_le_succ room)
    obtain ⟨f, next, wraps⟩ := unfolds.goes a b item steps refers given
    exact ⟨f v, by rw [wraps, finished]; rfl, by rw [next, ok]; rfl⟩

theorem runLost (unfolds : Unfolds item? value? theme finish run)
    (leads : Leads item? value? a passed b) {item : String} (refers : item? b = some item)
    (none : value? item = none) {steps : Nat} (room : passed.length < steps) :
    run steps a = .error (.themedItemNotFound theme item) := by
  obtain ⟨steps, rfl⟩ := Nat.exists_eq_add_one_of_ne_zero (Nat.ne_zero_of_lt room)
  induction leads generalizing steps with
  | here a => exact unfolds.lost a item steps refers none
  | @step a b last other passed goes given rest ih =>
    obtain ⟨steps, rfl⟩ := Nat.exists_eq_add_one_of_ne_zero
      (Nat.ne_zero_of_lt (Nat.lt_of_succ_lt_succ room))
    obtain ⟨f, next, _⟩ := unfolds.goes a b other (steps + 1) goes given
    rw [next, ih refers steps (Nat.lt_of_succ_lt_succ room)]
    rfl

theorem runStops (unfolds : Unfolds item? value? theme finish run)
    (leads : Leads item? value? a passed b) {item : String} (refers : item? b = some item) :
    run passed.length a = .error (LiveContext.cyclic item) := by
  induction leads with
  | here a => exact unfolds.stops a item refers
  | @step a b last other passed goes given rest ih =>
    obtain ⟨f, next, _⟩ := unfolds.goes a b other passed.length goes given
    rw [List.length_cons, next, ih refers]
    rfl

theorem runEvaluated (unfolds : Unfolds item? value? theme finish run) (start : α) :
    Evaluated item? value? theme finish start (run 16 start) where
  ends _ _ leads ends room := runEnds unfolds leads ends room
  missing _ _ _ leads refers room none := runLost unfolds leads refers none room
  deeper _ _ _ leads refers long := long ▸ runStops unfolds leads refers
  around before turn loop leads returns turns := by
    obtain ⟨long, around, longer⟩ := leadsAround returns turns 16
    have whole := leadsFurther leads around
    obtain ⟨passed, last, item, early, exact, refers⟩ := leadsBefore whole (n := 16) (by
      rw [List.length_append]
      omega)
    exact ⟨item, exact ▸ runStops unfolds early refers⟩
  settled := leadsSettled start 16

theorem evaluatedMap {γ : Type} {start : α} {answer : Result β} (f : β → γ)
    (evaluated : Evaluated item? value? theme finish start answer) :
    Evaluated item? value? theme (fun passed last => (finish passed last).map f) start
      (answer.map f) where
  ends passed last leads ends room := by
    obtain ⟨v, finished, ok⟩ := evaluated.ends passed last leads ends room
    exact ⟨f v, by rw [finished]; rfl, by rw [ok]; rfl⟩
  missing passed last item leads refers room none := by
    rw [evaluated.missing passed last item leads refers room none]
    rfl
  deeper passed last item leads refers long := by
    rw [evaluated.deeper passed last item leads refers long]
    rfl
  around before turn loop leads returns turns := by
    obtain ⟨item, failed⟩ := evaluated.around before turn loop leads returns turns
    exact ⟨item, by rw [failed]; rfl⟩
  settled := evaluated.settled

end Run

end Chains

def Color.Base.adjusted? : Color.Base → List Color.Modifier → Option LiveColor
  | .rgba channels, modifiers => some (.rgba (modifiers.foldl Color.Modifier.apply channels))
  | .named name, modifiers =>
    some (.rgba (modifiers.foldl Color.Modifier.apply (LiveContext.namedChannels name)))
  | .system name, modifiers => some (.system name modifiers)
  | .themed _, _ => none

/-- The last colour's own adjustments come first, then those of the colours that led to it. -/
def Color.finished? (passed : List Color) (last : Color) : Option LiveColor :=
  last.base.adjusted? ((last :: passed.reverse).flatMap (·.modifiers))

def Font.finished? (_ : List Font) : Font → Option LiveValue
  | .system weight size => some (.font none weight size)
  | .named name size => some (.font (some name) .regular size)
  | .themed _ => none

def Image.finished? (_ : List Image) : Image → Option LiveValue
  | .named name => some (.image name)
  | .themed _ => none

theorem Color.Base.adjustedMore (base : Color.Base) (before more : List Color.Modifier) :
    base.adjusted? (before ++ more) = (base.adjusted? before).map (LiveColor.adjust more) := by
  cases base <;> simp [adjusted?, LiveColor.adjust, Color.applyAll]

namespace LiveContext

variable (context : LiveContext)

theorem colorUnfolds : Unfolds Application.colorReference?
    (context.values.colors.get? context.theme) context.theme Color.finished? context.color where
  ends c steps ends := by
    obtain ⟨base, modifiers⟩ := c
    cases base with
    | themed item => cases ends
    | _ => cases steps <;> exact ⟨_, rfl, by simp [color, LiveColor.adjust, Color.applyAll]⟩
  stops c item refers := by
    obtain ⟨base, modifiers⟩ := c
    cases base with
    | themed name =>
      cases refers
      rfl
    | _ => cases refers
  lost c item steps refers none := by
    obtain ⟨base, modifiers⟩ := c
    cases base with
    | themed name =>
      cases refers
      simp only [color, none, missing]
    | _ => cases refers
  goes c next item steps refers given := by
    obtain ⟨base, modifiers⟩ := c
    cases base with
    | themed name =>
      cases refers
      refine ⟨LiveColor.adjust modifiers, by simp only [color, given], fun passed last => ?_⟩
      rw [Color.finished?, Color.finished?, ← Color.Base.adjustedMore]
      simp
    | _ => cases refers

theorem fontUnfolds : Unfolds Application.fontReference?
    (context.values.fonts.get? context.theme) context.theme Font.finished? context.font where
  ends f steps ends := by
    cases f with
    | themed item => cases ends
    | _ => cases steps <;> exact ⟨_, rfl, rfl⟩
  stops f item refers := by
    cases f with
    | themed name =>
      cases refers
      rfl
    | _ => cases refers
  lost f item steps refers none := by
    cases f with
    | themed name =>
      cases refers
      simp only [font, none, missing]
    | _ => cases refers
  goes f next item steps refers given := by
    cases f with
    | themed name =>
      cases refers
      refine ⟨id, ?_, fun passed last => by cases last <;> rfl⟩
      simp only [font, given]
      cases context.font steps next <;> rfl
    | _ => cases refers

theorem imageUnfolds : Unfolds Application.imageReference?
    (context.values.images.get? context.theme) context.theme Image.finished? context.image where
  ends i steps ends := by
    cases i with
    | themed item => cases ends
    | named name => cases steps <;> exact ⟨_, rfl, rfl⟩
  stops i item refers := by
    cases i with
    | themed name =>
      cases refers
      rfl
    | named name => cases refers
  lost i item steps refers none := by
    cases i with
    | themed name =>
      cases refers
      simp only [image, none, missing]
    | named name => cases refers
  goes i next item steps refers given := by
    cases i with
    | themed name =>
      cases refers
      refine ⟨id, ?_, fun passed last => by cases last <;> rfl⟩
      simp only [image, given]
      cases context.image steps next <;> rfl
    | named name => cases refers

/- Colours of views and of layers, fonts and images. -/
theorem themedEvaluated :
    (∀ c, Evaluated Application.colorReference? (context.values.colors.get? context.theme)
      context.theme (fun passed last => (Color.finished? passed last).map LiveValue.color) c
      ((Value.color c).live context)) ∧
    (∀ c, Evaluated Application.colorReference? (context.values.colors.get? context.theme)
      context.theme (fun passed last => (Color.finished? passed last).map LiveValue.color) c
      ((Value.layerColor c).live context)) ∧
    (∀ f, Evaluated Application.fontReference? (context.values.fonts.get? context.theme)
      context.theme Font.finished? f ((Value.font f).live context)) ∧
    ∀ i, Evaluated Application.imageReference? (context.values.images.get? context.theme)
      context.theme Image.finished? i ((Value.image i).live context) := by
  have colors : ∀ c, Evaluated Application.colorReference?
      (context.values.colors.get? context.theme) context.theme
      (fun passed last => (Color.finished? passed last).map LiveValue.color) c
      ((context.color 16 c).map LiveValue.color) := fun c =>
    evaluatedMap LiveValue.color (runEvaluated (colorUnfolds context) c)
  refine ⟨fun c => ?_, fun c => ?_, fun f => ?_, fun i => ?_⟩
  · rw [Value.live]
    exact colors c
  · rw [Value.live]
    exact colors c
  · rw [Value.live]
    exact runEvaluated (fontUnfolds context) f
  · rw [Value.live]
    exact runEvaluated (imageUnfolds context) i

example (own first second : Color.Modifier) :
    (Value.color ⟨.themed "tint", [own]⟩).live ⟨"day", { colors := [
      ("tint", [("day", ⟨.themed "base", [second]⟩)]),
      ("base", [("day", ⟨.system "label", [first]⟩)])] }⟩ =
      .ok (.color (.system "label" [first, second, own])) := rfl

end LiveContext

end ViewForge
