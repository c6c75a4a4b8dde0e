import Mathlib.Data.List.Forall2
import ViewForge.Task

/-! Tasks by their outcomes. A run that succeeds is taken apart call by call; two runs that make the
same calls are followed side by side. Later proofs look at tasks through these lemmas alone. -/
namespace ViewForge

theorem Result.bindOk {ε α β : Type} {x : Except ε α} {f : α → Except ε β} {b : β} :
    (x >>= f) = .ok b ↔ ∃ a, x = .ok a ∧ f a = .ok b := by
  cases x with
  | error e => simp [bind, Except.bind]
  | ok a => simp [bind, Except.bind]

theorem Result.bindError {ε α β : Type} {x : Except ε α} {f : α → Except ε β} {e : ε} :
    (x >>= f) = .error e ↔ x = .error e ∨ ∃ a, x = .ok a ∧ f a = .error e := by
  cases x with
  | error e => simp [bind, Except.bind]
  | ok a => simp [bind, Except.bind]

theorem Result.mapOk {ε α β : Type} {x : Except ε α} {f : α → β} {b : β} :
    x.map f = .ok b ↔ ∃ a, x = .ok a ∧ f a = b := by
  cases x with
  | error e => simp [Except.map]
  | ok a => simp [Except.map]

theorem Result.mapError {ε α β : Type} {x : Except ε α} {f : α → β} {e : ε} :
    x.map f = .error e ↔ x = .error e := by
  cases x <;> simp [Except.map]

def Result.Fails {α : Type} (fail : Error → Prop) (x : Result α) : Prop :=
  ∀ e, x = .error e → fail e

theorem Result.failsOk {α : Type} {fail : Error → Prop} (a : α) : Fails fail (.ok a) :=
  fun _ same => by cases same

theorem Result.failsError {α : Type} {fail : Error → Prop} {e : Error} (failed : fail e) :
    Fails fail (.error e : Result α) :=
  fun _ same => by
    cases same
    exact failed

theorem Result.failsBind {α β : Type} {fail : Error → Prop} {x : Result α} {f : α → Result β}
    (first : x.Fails fail) (rest : ∀ a, (f a).Fails fail) : (x >>= f).Fails fail := by
  intro e failed
  rcases Result.bindError.mp failed with here | ⟨a, _, later⟩
  · exact first e here
  · exact rest a e later

theorem Result.failsMap {α β : Type} {fail : Error → Prop} {x : Result α} {f : α → β}
    (given : x.Fails fail) : Fails fail (x.map f) :=
  fun e failed => given e (Result.mapError.mp failed)

theorem Result.failsEach {α β : Type} {fail : Error → Prop} {f : α → Result β} {xs : List α}
    (each : ∀ a ∈ xs, (f a).Fails fail) : (xs.mapM f).Fails fail := by
  induction xs with
  | nil => exact failsOk []
  | cons x rest ih =>
    obtain ⟨here, later⟩ := List.forall_mem_cons.mp each
    rw [List.mapM_cons]
    exact failsBind here fun b => failsBind (ih later) fun bs => failsOk _

theorem Result.okGetD {α : Type} {x : Result α} (ok : x.isOk = true) (other : α) :
    x = .ok (x.toOption.getD other) := by
  cases x with
  | error e => cases ok
  | ok a => rfl

theorem Result.anyOk {α : Type} {x : Result α} {p : α → Bool} (holds : x.toOption.any p = true) :
    ∃ a, x = .ok a ∧ p a = true := by
  cases x with
  | error e => cases holds
  | ok a => exact ⟨a, rfl, holds⟩

theorem Result.okGives {α σ : Type} {x : Result α × σ} (ok : x.1.isOk = true) :
    ∃ a t, x = (.ok a, t) := by
  obtain ⟨outcome, t⟩ := x
  cases outcome with
  | error e => cases ok
  | ok a => exact ⟨a, t, rfl⟩

theorem Result.outcomeOk {α σ : Type} {x : Result α × σ} {a : α} (ok : x.1 = .ok a) :
    x = (.ok a, x.2) := Prod.ext ok rfl

theorem Result.mapMOk {ε α β : Type} {f : α → Except ε β} {xs : List α} {ys : List β}
    (ok : xs.mapM f = .ok ys) : List.Forall₂ (fun x y => f x = .ok y) xs ys := by
  induction xs generalizing ys with
  | nil => cases ok; exact .nil
  | cons x xs ih =>
    rw [List.mapM_cons] at ok
    obtain ⟨y, hy, ok⟩ := Result.bindOk.mp ok
    obtain ⟨tail, ht, last⟩ := Result.bindOk.mp ok
    cases last
    exact .cons hy (ih ht)

theorem Result.mapMEach {ε α β : Type} {f : α → Except ε β} {xs : List α} {ys : List β}
    (each : List.Forall₂ (fun x y => f x = .ok y) xs ys) : xs.mapM f = .ok ys := by
  induction each with
  | nil => rfl
  | cons first _ ih =>
    rw [List.mapM_cons, first, ih]
    rfl

theorem Result.mapMSucceeds {α β : Type} {f : α → Result β} {xs : List α}
    (each : ∀ x ∈ xs, ∃ y, f x = .ok y) : ∃ ys, xs.mapM f = .ok ys := by
  induction xs with
  | nil => exact ⟨[], rfl⟩
  | cons x rest ih =>
    obtain ⟨⟨y, first⟩, others⟩ := List.forall_mem_cons.mp each
    obtain ⟨ys, more⟩ := ih others
    exact ⟨y :: ys, by rw [List.mapM_cons, first, more]; rfl⟩

theorem Result.mapMCons {ε α β : Type} {f : α → Except ε β} {x : α} {xs : List α} {zs : List β} :
    (x :: xs).mapM f = .ok zs ↔
      ∃ a as, f x = .ok a ∧ xs.mapM f = .ok as ∧ zs = a :: as := by
  rw [List.mapM_cons]
  constructor
  · intro ok
    obtain ⟨a, here, ok⟩ := Result.bindOk.mp ok
    obtain ⟨as, later, last⟩ := Result.bindOk.mp ok
    cases last
    exact ⟨a, as, here, later, rfl⟩
  · rintro ⟨a, as, here, later, rfl⟩
    exact Result.bindOk.mpr ⟨a, here, Result.bindOk.mpr ⟨as, later, rfl⟩⟩

theorem Result.mapMAppend {ε α β : Type} {f : α → Except ε β} {xs ys : List α} {zs : List β} :
    (xs ++ ys).mapM f = .ok zs ↔
      ∃ as bs, xs.mapM f = .ok as ∧ ys.mapM f = .ok bs ∧ zs = as ++ bs := by
  rw [List.mapM_append]
  constructor
  · intro ok
    obtain ⟨as, left, ok⟩ := Result.bindOk.mp ok
    obtain ⟨bs, right, last⟩ := Result.bindOk.mp ok
    cases last
    exact ⟨as, bs, left, right, rfl⟩
  · rintro ⟨as, bs, left, right, rfl⟩
    exact Result.bindOk.mpr ⟨as, left, Result.bindOk.mpr ⟨bs, right, rfl⟩⟩

theorem Result.mapMPerm {α β : Type} {f : α → Result β} {as bs : List α} {xs : List β}
    (order : as.Perm bs) (ok : as.mapM f = .ok xs) : ∃ ys, bs.mapM f = .ok ys ∧ xs.Perm ys := by
  induction order generalizing xs with
  | nil => exact ⟨xs, ok, .refl _⟩
  | cons a _ ih =>
    rw [List.mapM_cons] at ok ⊢
    obtain ⟨x, first, ok⟩ := Result.bindOk.mp ok
    obtain ⟨rest, others, last⟩ := Result.bindOk.mp ok
    cases last
    obtain ⟨ys, again, perm⟩ := ih others
    exact ⟨x :: ys, by rw [first, again]; rfl, perm.cons x⟩
  | swap a b rest =>
    rw [List.mapM_cons] at ok
    obtain ⟨y, second, ok⟩ := Result.bindOk.mp ok
    obtain ⟨tail, ok, last⟩ := Result.bindOk.mp ok
    rw [List.mapM_cons] at ok
    obtain ⟨x, first, ok⟩ := Result.bindOk.mp ok
    obtain ⟨zs, others, final⟩ := Result.bindOk.mp ok
    cases last
    cases final
    exact ⟨x :: y :: zs, by simp only [List.mapM_cons, first, second, others]; rfl, .swap x y zs⟩
  | trans _ _ one two =>
    obtain ⟨ys, first, left⟩ := one ok
    obtain ⟨zs, second, right⟩ := two first
    exact ⟨zs, second, left.trans right⟩

theorem Result.inFileOk {α : Type} {x : Result α} {path : String} {a : α}
    (ok : x.inFile path = .ok a) : x = .ok a := by
  cases x with
  | error e => cases ok
  | ok b => exact ok

theorem forallLeft {α β : Type} {R : α → β → Prop} {xs : List α} {ys : List β}
    (each : List.Forall₂ R xs ys) {x : α} (member : x ∈ xs) : ∃ y ∈ ys, R x y := by
  induction each with
  | nil => simp at member
  | @cons a b _ _ first _ ih =>
    rcases List.mem_cons.mp member with rfl | later
    · exact ⟨b, List.mem_cons_self, first⟩
    · obtain ⟨y, inside, related⟩ := ih later
      exact ⟨y, List.mem_cons_of_mem _ inside, related⟩

theorem forallRight {α β : Type} {R : α → β → Prop} {xs : List α} {ys : List β}
    (each : List.Forall₂ R xs ys) {y : β} (member : y ∈ ys) : ∃ x ∈ xs, R x y :=
  forallLeft each.flip member

namespace Task

variable {σ τ α β : Type}

@[simp] theorem outcomePure (a : α) (s : σ) : outcome (pure a) s = (.ok a, s) := rfl

@[simp] theorem outcomeThrow (e : Error) (s : σ) :
    outcome (throw e : Task σ α) s = (.error e, s) := rfl

@[simp] theorem outcomeGet (s : σ) : outcome (get : Task σ σ) s = (.ok s, s) := rfl

@[simp] theorem outcomeSet (s t : σ) : outcome (set t : Task σ PUnit) s = (.ok ⟨⟩, t) := rfl

@[simp] theorem outcomeModify (f : σ → σ) (s : σ) :
    outcome (modify f : Task σ PUnit) s = (.ok ⟨⟩, f s) := rfl

@[simp] theorem outcomeLift (x : Result α) (s : σ) : outcome (liftM x : Task σ α) s = (x, s) := rfl

@[simp] theorem outcomeObserved (x : Task σ α) (s : σ) :
    outcome x.observed s = (.ok (x.outcome s).1, (x.outcome s).2) := rfl

theorem outcomeBind (x : Task σ α) (f : α → Task σ β) (s : σ) :
    (x >>= f).outcome s = match x.outcome s with
      | (.ok a, t) => (f a).outcome t
      | (.error e, t) => (.error e, t) := by
  change (ExceptT.bindCont f (x.outcome s).1 : StateM σ (Result β)) (x.outcome s).2 = _
  obtain ⟨result, t⟩ := x.outcome s
  cases result <;> rfl

theorem bindOk {x : Task σ α} {f : α → Task σ β} {s t : σ} {a : α} (ok : x.outcome s = (.ok a, t)) :
    (x >>= f).outcome s = (f a).outcome t := by rw [outcomeBind, ok]

theorem bindError {x : Task σ α} {f : α → Task σ β} {s t : σ} {e : Error}
    (failed : x.outcome s = (.error e, t)) : (x >>= f).outcome s = (.error e, t) := by
  rw [outcomeBind, failed]

theorem bindGives {x : Task σ α} {f : α → Task σ β} {s u : σ} {b : β} :
    (x >>= f).outcome s = (.ok b, u) ↔
      ∃ a t, x.outcome s = (.ok a, t) ∧ (f a).outcome t = (.ok b, u) := by
  rw [outcomeBind]
  obtain ⟨result, t⟩ := x.outcome s
  cases result with
  | ok a =>
    constructor
    · intro ok
      exact ⟨a, t, rfl, ok⟩
    · rintro ⟨_, _, same, ok⟩
      cases same
      exact ok
  | error e => simp

@[simp] theorem modifyBind (f : σ → σ) (next : PUnit → Task σ β) (s : σ) :
    ((modify f : Task σ PUnit) >>= next).outcome s = (next ⟨⟩).outcome (f s) := bindOk rfl

@[simp] theorem getBind (next : σ → Task σ β) (s : σ) :
    ((get : Task σ σ) >>= next).outcome s = (next s).outcome s := bindOk rfl

theorem liftGives {x : Result α} {s t : σ} {a : α}
    (ok : (liftM x : Task σ α).outcome s = (.ok a, t)) : x = .ok a ∧ t = s := by
  simpa [eq_comm] using ok

theorem liftBindGives {x : Result α} {f : α → Task σ β} {s u : σ} {b : β}
    (ok : ((liftM x : Task σ α) >>= f).outcome s = (.ok b, u)) :
    ∃ a, x = .ok a ∧ (f a).outcome s = (.ok b, u) := by
  obtain ⟨a, t, lifted, rest⟩ := bindGives.mp ok
  obtain ⟨same, rfl⟩ := liftGives lifted
  exact ⟨a, same, rest⟩

theorem inFileOutcome (path : String) (task : Task σ α) (s : σ) :
    (inFile path task).outcome s = ((task.outcome s).1.inFile path, (task.outcome s).2) := by
  simp only [inFile, outcome, tryCatch, tryCatchThe, MonadExceptOf.tryCatch, ExceptT.tryCatch,
    ExceptT.run, ExceptT.mk, StateT.run_bind]
  cases run : StateT.run task s with
  | mk result t => cases result <;> rfl

/- The steps of a fold or of a traversal that succeeds all succeed, each from where the one before
it has ended. -/
theorem foldlGives {f : β → α → Task σ β} {a : α} {as : List α} {b c : β} {s u : σ} :
    ((a :: as).foldlM f b).outcome s = (.ok c, u) ↔
      ∃ m t, (f b a).outcome s = (.ok m, t) ∧ (as.foldlM f m).outcome t = (.ok c, u) := by
  rw [List.foldlM_cons]
  exact bindGives

theorem foldlSucceeds {f : β → α → Task σ β} {as : List α}
    (each : ∀ a ∈ as, ∀ b s, ∃ c t, (f b a).outcome s = (.ok c, t)) (b : β) (s : σ) :
    ∃ c t, (as.foldlM f b).outcome s = (.ok c, t) := by
  induction as generalizing b s with
  | nil => exact ⟨b, s, rfl⟩
  | cons a as ih =>
    obtain ⟨m, t, first⟩ := each a List.mem_cons_self b s
    obtain ⟨c, u, rest⟩ := ih (fun x member => each x (List.mem_cons_of_mem _ member)) m t
    exact ⟨c, u, foldlGives.mpr ⟨m, t, first, rest⟩⟩

theorem foldlGivesEach {f : β → α → Task σ β} {as : List α} {b c : β} {s u : σ}
    (ok : (as.foldlM f b).outcome s = (.ok c, u)) {a : α} (member : a ∈ as) :
    ∃ m t n v, (f m a).outcome t = (.ok n, v) := by
  induction as generalizing b s with
  | nil => simp at member
  | cons x xs ih =>
    obtain ⟨m, t, first, rest⟩ := foldlGives.mp ok
    rcases List.mem_cons.mp member with rfl | inside
    · exact ⟨b, s, m, t, first⟩
    · exact ih rest inside

theorem foldlFails {f : β → α → Task σ β} {as : List α} {b : β} {s : σ} {e : Error}
    (failed : ((as.foldlM f b).outcome s).1 = .error e) :
    ∃ a ∈ as, ∃ m t, ((f m a).outcome t).1 = .error e := by
  induction as generalizing b s with
  | nil => cases failed
  | cons a as ih =>
    rw [List.foldlM_cons, outcomeBind] at failed
    cases run : (f b a).outcome s with
    | mk result t =>
      rw [run] at failed
      cases result with
      | error other => exact ⟨a, List.mem_cons_self, b, s, by rw [run]; exact failed⟩
      | ok m =>
        obtain ⟨x, inside, n, u, again⟩ := ih failed
        exact ⟨x, List.mem_cons_of_mem _ inside, n, u, again⟩

theorem bindFails {x : Task σ α} {f : α → Task σ β} {s : σ} {e : Error}
    (failed : ((x >>= f).outcome s).1 = .error e) :
    (x.outcome s).1 = .error e ∨
      ∃ a t, x.outcome s = (.ok a, t) ∧ ((f a).outcome t).1 = .error e := by
  rw [outcomeBind] at failed
  cases run : x.outcome s with
  | mk result t =>
    rw [run] at failed
    cases result with
    | error other =>
      cases failed
      exact .inl rfl
    | ok a => exact .inr ⟨a, t, rfl, failed⟩

theorem mapFails {f : α → Task σ β} {as : List α} {s : σ} {e : Error}
    (failed : ((as.mapM f).outcome s).1 = .error e) :
    ∃ a ∈ as, ∃ t, ((f a).outcome t).1 = .error e := by
  induction as generalizing s with
  | nil => cases failed
  | cons a as ih =>
    rw [List.mapM_cons] at failed
    rcases bindFails failed with here | ⟨_, t, _, failed⟩
    · exact ⟨a, List.mem_cons_self, s, here⟩
    · rcases bindFails failed with later | ⟨_, _, _, pure⟩
      · obtain ⟨x, inside, u, again⟩ := ih later
        exact ⟨x, List.mem_cons_of_mem _ inside, u, again⟩
      · cases pure

theorem foldlCarries {f g : β → α → Task σ β} {as : List α}
    (each : ∀ a ∈ as, ∀ b c s t, (f b a).outcome s = (.ok c, t) → (g b a).outcome s = (.ok c, t))
    {b c : β} {s t : σ} (ok : (as.foldlM f b).outcome s = (.ok c, t)) :
    (as.foldlM g b).outcome s = (.ok c, t) := by
  induction as generalizing b s with
  | nil => exact ok
  | cons a as ih =>
    obtain ⟨here, later⟩ := List.forall_mem_cons.mp each
    obtain ⟨m, u, first, others⟩ := foldlGives.mp ok
    exact foldlGives.mpr ⟨m, u, here _ _ _ _ first, ih later others⟩

theorem foldlKeeps {f : β → α → Task σ β} {I : β → σ → Prop} {as : List α}
    (each : ∀ a ∈ as, ∀ b s c u, I b s → (f b a).outcome s = (.ok c, u) → I c u) {b c : β}
    {s u : σ} (holds : I b s) (ok : (as.foldlM f b).outcome s = (.ok c, u)) : I c u := by
  induction as generalizing b s with
  | nil =>
    simp only [List.foldlM_nil, outcomePure, Prod.mk.injEq, Except.ok.injEq] at ok
    obtain ⟨rfl, rfl⟩ := ok
    exact holds
  | cons a as ih =>
    obtain ⟨m, t, first, rest⟩ := foldlGives.mp ok
    have next := each a List.mem_cons_self b s m t holds first
    exact ih (fun x member => each x (List.mem_cons_of_mem _ member)) next rest

theorem mapGives {f : α → Task σ β} {a : α} {as : List α} {bs : List β} {s u : σ}
    (ok : ((a :: as).mapM f).outcome s = (.ok bs, u)) :
    ∃ b t rest, (f a).outcome s = (.ok b, t) ∧ (as.mapM f).outcome t = (.ok rest, u) ∧
      bs = b :: rest := by
  rw [List.mapM_cons] at ok
  obtain ⟨b, t, first, ok⟩ := bindGives.mp ok
  obtain ⟨rest, v, others, last⟩ := bindGives.mp ok
  simp only [outcomePure, Prod.mk.injEq, Except.ok.injEq] at last
  obtain ⟨rfl, rfl⟩ := last
  exact ⟨b, t, rest, first, others, rfl⟩

theorem mapGivesEach {f : α → Task σ β} {as : List α} {bs : List β} {s u : σ}
    (ok : (as.mapM f).outcome s = (.ok bs, u)) {b : β} (member : b ∈ bs) :
    ∃ a ∈ as, ∃ t v, (f a).outcome t = (.ok b, v) := by
  induction as generalizing bs s with
  | nil =>
    cases ok
    simp at member
  | cons a as ih =>
    obtain ⟨first, t, rest, own, others, rfl⟩ := mapGives ok
    rcases List.mem_cons.mp member with rfl | later
    · exact ⟨a, List.mem_cons_self, s, t, own⟩
    · obtain ⟨x, inside, run⟩ := ih others later
      exact ⟨x, List.mem_cons_of_mem _ inside, run⟩

section Both

variable {γ δ : Type}

/-- When both runs succeed, from states that belong together, what they give belongs together, and
so do the states in which they end. -/
def Meets (R : σ → τ → Prop) (P : α → β → Prop) (x : Task σ α) (y : Task τ β) : Prop :=
  ∀ s t a u b v, R s t → x.outcome s = (.ok a, u) → y.outcome t = (.ok b, v) → P a b ∧ R u v

variable {R : σ → τ → Prop} {P : α → β → Prop} {Q : γ → δ → Prop}

theorem meetsPure {a : α} {b : β} (related : P a b) :
    Meets R P (pure a : Task σ α) (pure b : Task τ β) := by
  intro s t _ _ _ _ together left right
  cases left
  cases right
  exact ⟨related, together⟩

theorem meetsLift {x : Result α} {y : Result β}
    (related : ∀ a b, x = .ok a → y = .ok b → P a b) :
    Meets R P (liftM x : Task σ α) (liftM y : Task τ β) := by
  intro s t a u b v together left right
  obtain ⟨found, rfl⟩ := liftGives left
  obtain ⟨found', rfl⟩ := liftGives right
  exact ⟨related a b found found', together⟩

theorem meetsSame (x : Result γ) : Meets R Eq (liftM x : Task σ γ) (liftM x : Task τ γ) :=
  meetsLift fun _ _ left right => Except.ok.inj (left.symm.trans right)

theorem meetsBind {x : Task σ α} {y : Task τ β} {f : α → Task σ γ} {g : β → Task τ δ}
    (first : Meets R P x y) (rest : ∀ a b, P a b → Meets R Q (f a) (g b)) :
    Meets R Q (x >>= f) (y >>= g) := by
  intro s t c u d v together left right
  obtain ⟨a, s', run, left⟩ := bindGives.mp left
  obtain ⟨b, t', run', right⟩ := bindGives.mp right
  obtain ⟨related, between⟩ := first s t a s' b t' together run run'
  exact rest a b related s' t' c u d v between left right

theorem meetsFold {f : γ → α → Task σ γ} {g : δ → α → Task τ δ} {as : List α}
    (each : ∀ a ∈ as, ∀ c d, Q c d → Meets R Q (f c a) (g d a)) {c : γ} {d : δ}
    (related : Q c d) : Meets R Q (as.foldlM f c) (as.foldlM g d) := by
  induction as generalizing c d with
  | nil => exact meetsPure related
  | cons a as ih =>
    rw [List.foldlM_cons, List.foldlM_cons]
    refine meetsBind (each a List.mem_cons_self c d related) fun m n next => ?_
    exact ih (fun x member => each x (List.mem_cons_of_mem _ member)) next

theorem meetsMap {f : α → Task σ γ} {g : α → Task τ γ} {as : List α}
    (each : ∀ a ∈ as, Meets R Eq (f a) (g a)) : Meets R Eq (as.mapM f) (as.mapM g) := by
  induction as with
  | nil => exact meetsPure rfl
  | cons a as ih =>
    have later := ih fun x member => each x (List.mem_cons_of_mem _ member)
    rw [List.mapM_cons, List.mapM_cons]
    refine meetsBind (each a List.mem_cons_self) fun b _ same => ?_
    exact meetsBind later fun bs _ rest => meetsPure (by rw [same, rest])

/- A run that fails meets every other. -/
theorem meetsThrow (e : Error) (y : Task τ β) : Meets R P (throw e : Task σ α) y := by
  intro s t a u b v _ left
  cases left

theorem meetsOutcome {x y : Task σ α} (meets : Meets Eq Eq x y) {s : σ} {a b : α}
    (left : (x.outcome s).1 = .ok a) (right : (y.outcome s).1 = .ok b) : a = b :=
  (meets s s a _ b _ rfl (Prod.ext left rfl) (Prod.ext right rfl)).1

end Both

def Keeps (I : σ → Prop) (P : α → Prop) (x : Task σ α) : Prop :=
  ∀ s, I s → I (x.outcome s).2 ∧ ∀ a, (x.outcome s).1 = .ok a → P a

variable {I : σ → Prop} {P : α → Prop} {Q : β → Prop}

theorem keepsPure {a : α} (given : P a) : Keeps I P (pure a) := by
  intro s holds
  refine ⟨holds, fun b same => ?_⟩
  cases same
  exact given

theorem keepsThrow (e : Error) : Keeps I P (throw e : Task σ α) := by
  intro s holds
  exact ⟨holds, fun a same => by cases same⟩

theorem keepsLift {x : Result α} (given : ∀ a, x = .ok a → P a) :
    Keeps I P (liftM x : Task σ α) := fun _ holds => ⟨holds, given⟩

theorem keepsModify {f : σ → σ} {P : PUnit → Prop} (given : P ⟨⟩) (kept : ∀ s, I s → I (f s)) :
    Keeps I P (modify f : Task σ PUnit) := fun s holds => ⟨kept s holds, fun _ _ => given⟩

theorem keepsGet : Keeps I I (get : Task σ σ) := by
  intro s holds
  refine ⟨holds, fun t same => ?_⟩
  cases same
  exact holds

theorem keepsTrue {x : Task σ α} : Keeps (fun _ => True) (fun _ => True) x :=
  fun _ _ => ⟨trivial, fun _ _ => trivial⟩

theorem keepsEnd {x : Task σ α} (kept : Keeps I P x) {s t : σ} (holds : I s) {a : α}
    (run : x.outcome s = (.ok a, t)) : I t := by
  have last := (kept s holds).1
  rwa [run] at last

theorem keepsBind {x : Task σ α} {f : α → Task σ β} (first : Keeps I P x)
    (rest : ∀ a, P a → Keeps I Q (f a)) : Keeps I Q (x >>= f) := by
  intro s holds
  obtain ⟨kept, gives⟩ := first s holds
  rw [outcomeBind]
  cases run : x.outcome s with
  | mk result t =>
    rw [run] at kept gives
    cases result with
    | error e => exact ⟨kept, fun b same => by cases same⟩
    | ok a => exact rest a (gives a rfl) t kept

theorem keepsLiftBind {x : Result α} {f : α → Task σ β} (rest : ∀ a, Keeps I Q (f a)) :
    Keeps I Q ((liftM x : Task σ α) >>= f) :=
  keepsBind (P := fun _ => True) (keepsLift fun _ _ => trivial) fun a _ => rest a

theorem keepsFold {f : β → α → Task σ β} {as : List α}
    (each : ∀ a ∈ as, ∀ b, Q b → Keeps I Q (f b a)) {b : β} (given : Q b) :
    Keeps I Q (as.foldlM f b) := by
  induction as generalizing b with
  | nil => exact keepsPure given
  | cons a as ih =>
    rw [List.foldlM_cons]
    refine keepsBind (each a List.mem_cons_self b given) fun m next => ?_
    exact ih (fun x member => each x (List.mem_cons_of_mem _ member)) next

theorem keepsEach {f : α → Task σ PUnit} {as : List α}
    (each : ∀ a ∈ as, Keeps I (fun _ => True) (f a)) : Keeps I (fun _ => True) (as.forM f) := by
  induction as with
  | nil => exact keepsPure trivial
  | cons a as ih =>
    rw [List.forM]
    refine keepsBind (each a List.mem_cons_self) fun _ _ => ?_
    exact ih fun x member => each x (List.mem_cons_of_mem _ member)

/-- From a state where `pre` holds the task gives what satisfies `post`, or fails with an error that
satisfies `fail`. -/
def Triple (pre : σ → Prop) (x : Task σ α) (post : α → σ → Prop) (fail : Error → Prop) : Prop :=
  ∀ s, pre s → (∀ a t, x.outcome s = (.ok a, t) → post a t) ∧
    ∀ e, (x.outcome s).1 = .error e → fail e

section Triple

variable {pre : σ → Prop} {fail : Error → Prop}

theorem triplePure {a : α} {post : α → σ → Prop} (given : ∀ s, pre s → post a s) :
    Triple pre (pure a) post fail := by
  intro s holds
  constructor
  · intro b t same
    cases same
    exact given s holds
  · intro e same
    cases same

theorem tripleThrow {e : Error} {post : α → σ → Prop} (failed : fail e) :
    Triple pre (throw e : Task σ α) post fail := by
  intro s _
  constructor
  · intro a t same
    cases same
  · intro other same
    cases same
    exact failed

theorem tripleLift {x : Result α} {post : α → σ → Prop}
    (given : ∀ a, x = .ok a → ∀ s, pre s → post a s) (failed : x.Fails fail) :
    Triple pre (liftM x : Task σ α) post fail := by
  intro s holds
  constructor
  · intro a t same
    obtain ⟨found, rfl⟩ := liftGives same
    exact given a found _ holds
  · exact failed

theorem tripleBind {x : Task σ α} {f : α → Task σ β} {post : β → σ → Prop} (mid : α → σ → Prop)
    (first : Triple pre x mid fail) (rest : ∀ a, Triple (mid a) (f a) post fail) :
    Triple pre (x >>= f) post fail := by
  intro s holds
  obtain ⟨gives, fails⟩ := first s holds
  constructor
  · intro b u ok
    obtain ⟨a, t, here, later⟩ := bindGives.mp ok
    exact (rest a t (gives a t here)).1 b u later
  · intro e failed
    rcases bindFails failed with here | ⟨a, t, here, later⟩
    · exact fails e here
    · exact (rest a t (gives a t here)).2 e later

theorem tripleOf {x : Task σ α} {pre' : σ → Prop} {post post' : α → σ → Prop}
    {fail' : Error → Prop} (triple : Triple pre x post fail) (before : ∀ s, pre' s → pre s)
    (after : ∀ a t, post a t → post' a t) (failing : ∀ e, fail e → fail' e) :
    Triple pre' x post' fail' := by
  intro s holds
  obtain ⟨gives, fails⟩ := triple s (before s holds)
  exact ⟨fun a t ok => after a t (gives a t ok), fun e same => failing e (fails e same)⟩

theorem tripleSome {ι : Type} {x : Task σ α} {pre : ι → σ → Prop} {post : α → σ → Prop}
    (triple : ∀ i, Triple (pre i) x post fail) : Triple (fun s => ∃ i, pre i s) x post fail :=
  fun s ⟨i, holds⟩ => triple i s holds

/- What does not hang on the state can be assumed. -/
theorem tripleGiven {x : Task σ α} {given : Prop} {post : α → σ → Prop}
    (triple : given → Triple pre x post fail) : Triple (fun s => given ∧ pre s) x post fail :=
  fun s holds => triple holds.1 s holds.2

theorem tripleGet {f : σ → Task σ β} {post : β → σ → Prop}
    (rest : ∀ s, pre s → Triple (· = s) (f s) post fail) :
    Triple pre ((get : Task σ σ) >>= f) post fail := by
  intro s holds
  rw [getBind]
  exact rest s holds s rfl

theorem tripleModify {g : σ → σ} {f : PUnit → Task σ β} {mid : σ → Prop} {post : β → σ → Prop}
    (changed : ∀ s, pre s → mid (g s)) (rest : Triple mid (f ⟨⟩) post fail) :
    Triple pre ((modify g : Task σ PUnit) >>= f) post fail := by
  intro s holds
  rw [modifyBind]
  exact rest (g s) (changed s holds)

theorem tripleFold {f : β → α → Task σ β} {I : β → σ → Prop} {as : List α}
    (each : ∀ a ∈ as, ∀ b, Triple (I b) (f b a) I fail) (b : β) :
    Triple (I b) (as.foldlM f b) I fail := by
  induction as generalizing b with
  | nil => exact triplePure fun _ holds => holds
  | cons a as ih =>
    obtain ⟨here, later⟩ := List.forall_mem_cons.mp each
    rw [List.foldlM_cons]
    exact tripleBind I (here b) (ih later)

end Triple

end Task
end ViewForge
