import ViewForge.Proofs.Element.Ids
import ViewForge.Proofs.Element.Steps

/-! Elements without ids among elements with them. Ids are given out in document order, so that a
number is free when an element gets it and may be the id of an element that comes later. -/
namespace ViewForge
open Markup (Node)

namespace Element

/-- What the id of an element depends on. A scope is the number of the elements up to the one that
has the component in it, and nought in the component of the file. -/
structure Place where
  scope : Nat
  component : String
  tag : String
  given : Option String
  deriving DecidableEq

mutual

def places (scope : Nat) (component : String) (before : Nat) : Node → List Place
  | ⟨tag, attributes, children, _⟩ =>
    ⟨scope, component, tag, (attributes.lookup "id").map Text.trim⟩ ::
      if (Widget.ofTag? tag).isSome then placesAll scope component (before + 1) children
      else placesBody (before + 1) tag (before + 1) children

def placesAll (scope : Nat) (component : String) (before : Nat) : List Node → List Place
  | [] => []
  | node :: rest =>
    let here := places scope component before node
    here ++ placesAll scope component (before + here.length) rest

def placesBody (scope : Nat) (component : String) (before : Nat) : List Node → List Place
  | [] => []
  | node :: rest =>
    if Blocks.tags.contains node.name then placesBody scope component before rest
    else
      let here := places scope component before node
      here ++ placesBody scope component (before + here.length) rest

end

structure Numbered where
  place : Place
  number : Nat
  deriving DecidableEq

def Numbered.id (x : Numbered) : String :=
  x.place.given.getD (idBase x.place.tag ++ toString x.number)

def idsIn (scope : Nat) (done : List Numbered) : List String :=
  (done.filter (·.place.scope == scope)).map Numbered.id

def lastNumber (count : String → Nat) (tag : String) : List Numbered → Nat
  | [] => count tag
  | x :: done =>
    if x.place.given = none ∧ x.place.tag = tag then x.number else lastNumber count tag done

/-- Every element without an id has got the first number after the last one of its tag that is free
in its component. -/
inductive Numbering (count : String → Nat) : List Numbered → Prop where
  | nobody : Numbering count []
  | given {done : List Numbered} {place : Place} {id : String} (before : Numbering count done)
      (own : place.given = some id) : Numbering count (⟨place, 0⟩ :: done)
  | counted {done : List Numbered} {place : Place} {n : Nat} (before : Numbering count done)
      (none : place.given = none)
      (first : FirstFree (idBase place.tag) (idsIn place.scope done)
        (lastNumber count place.tag done) n) : Numbering count (⟨place, n⟩ :: done)

/- There is one way to number the elements of a document. -/
theorem firstFreeOne {base : String} {taken : List String} {last m n : Nat}
    (left : FirstFree base taken last m) (right : FirstFree base taken last n) : m = n := by
  rcases Nat.lt_trichotomy m n with less | same | more
  · exact absurd (right.between m left.after less) left.free
  · exact same
  · exact absurd (left.between n right.after more) right.free

theorem numberingOne {count : String → Nat} {xs ys : List Numbered} (left : Numbering count xs)
    (right : Numbering count ys) (same : xs.map (·.place) = ys.map (·.place)) : xs = ys := by
  induction left generalizing ys with
  | nobody => exact (List.map_eq_nil_iff.mp same.symm).symm
  | @given done place id before own ih =>
    cases right with
    | nobody => cases same
    | given before' own' =>
      obtain ⟨rfl, rest⟩ := List.cons.inj same
      rw [ih before' rest]
    | counted before' none' first' =>
      obtain ⟨rfl, rest⟩ := List.cons.inj same
      rw [own] at none'
      cases none'
  | @counted done place n before none first ih =>
    cases right with
    | nobody => cases same
    | given before' own' =>
      obtain ⟨rfl, rest⟩ := List.cons.inj same
      rw [none] at own'
      cases own'
    | counted before' none' first' =>
      obtain ⟨rfl, rest⟩ := List.cons.inj same
      obtain rfl := ih before' rest
      rw [firstFreeOne first first']

theorem numberingBefore {count : String → Nat} (later : List Numbered) {done : List Numbered}
    (numbering : Numbering count (later ++ done)) : Numbering count done := by
  induction later with
  | nil => exact numbering
  | cons x later ih =>
    cases numbering with
    | given before _ => exact ih before
    | counted before _ _ => exact ih before

/-- What reading has come to when the elements of `done` have been read and the components of
`stack` are open, the innermost first. -/
structure Reflects (count : String → Nat) (outer : List IdScope) (stack : List (Nat × String))
    (done : List Numbered) (s : ReadState) : Prop where
  numbering : Numbering count done
  apart : done.Pairwise fun y x => y.place.scope = x.place.scope → y.id ≠ x.id
  counts : ∀ tag, s.count tag = lastNumber count tag done
  scopes : s.scopes = stack.map (fun q => ⟨q.2, idsIn q.1 done⟩) ++ outer
  nested : stack.Pairwise fun p q => q.1 < p.1
  opened : ∀ q ∈ stack, q.1 ≤ done.length
  within : ∀ x ∈ done, x.place.scope < done.length

variable {count : String → Nat} {outer : List IdScope} {stack : List (Nat × String)}
  {done : List Numbered} {s : ReadState} {scope : Nat} {component : String}

theorem claimOutcome (id : String) {scope : IdScope} (inside : s.scopes = scope :: outer) :
    (claim id).outcome s = if scope.ids.contains id then
        (.error (.duplicateIdentifier id scope.component), s)
      else (.ok (), { s with scopes := { scope with ids := id :: scope.ids } :: outer }) := by
  unfold claim
  rw [Task.getBind, inside]
  dsimp only
  split <;> rfl

/- What an element adds when its id is free in the innermost component. -/
theorem reflectsNext (before : Reflects count outer ((scope, component) :: stack) done s)
    {x : Numbered} (own : x.place.scope = scope) (free : x.id ∉ idsIn scope done)
    (numbering : Numbering count (x :: done)) {t : ReadState}
    (counts : ∀ tag, t.count tag = lastNumber count tag (x :: done))
    (scopes : t.scopes =
      ⟨component, x.id :: idsIn scope done⟩ :: stack.map (fun q => ⟨q.2, idsIn q.1 done⟩) ++ outer) :
    Reflects count outer ((scope, component) :: stack) (x :: done) t where
  numbering := numbering
  apart := by
    refine List.pairwise_cons.mpr ⟨fun y member same again => free ?_, before.apart⟩
    exact List.mem_map.mpr ⟨y, List.mem_filter.mpr ⟨member, by simp [← same, own]⟩, again.symm⟩
  counts := counts
  scopes := by
    have others : ∀ q ∈ stack, idsIn q.1 (x :: done) = idsIn q.1 done := by
      intro q member
      have less := List.rel_of_pairwise_cons before.nested member
      have apart : x.place.scope ≠ q.1 := by rw [own]; exact Nat.ne_of_gt less
      simp [idsIn, apart]
    have here : idsIn scope (x :: done) = x.id :: idsIn scope done := by simp [idsIn, own]
    rw [scopes, List.map_cons, here]
    congr 2
    exact List.map_congr_left fun q member => by rw [others q member]
  nested := before.nested
  opened q member := Nat.le_succ_of_le (before.opened q member)
  within y member := by
    rcases List.mem_cons.mp member with rfl | earlier
    · rw [own]
      exact Nat.lt_succ_of_le (before.opened _ List.mem_cons_self)
    · exact Nat.lt_succ_of_lt (before.within y earlier)

theorem lookupOther {tag other : String} (apart : tag ≠ other) (counters : List (String × Nat)) :
    (counters.filter (·.1 != tag)).lookup other = counters.lookup other := by
  induction counters with
  | nil => rfl
  | cons entry rest ih =>
    obtain ⟨key, n⟩ := entry
    by_cases same : key = tag
    · subst same
      have different : (other == key) = false := by simpa using apart.symm
      simp [List.lookup_cons, different, ih]
    · rw [List.filter_cons_of_pos (by simpa using same), List.lookup_cons, List.lookup_cons, ih]

theorem countSet (s : ReadState) (tag other : String) (n : Nat) :
    (s.setCount tag n).count other = if tag = other then n else s.count other := by
  unfold ReadState.count ReadState.setCount
  rw [List.lookup_cons]
  split
  · rename_i same
    rw [if_pos (eq_of_beq same).symm]
    rfl
  · rename_i apart
    have different : tag ≠ other := fun same => by simp [same] at apart
    rw [if_neg different, lookupOther different]

theorem generateOutcome (tag : String) (s : ReadState) :
    (generateId tag).outcome s =
      let n := freeNumber (idBase tag) s.claimed (s.count tag) s.claimed.length
      (.ok ⟨idBase tag ++ toString n, false⟩, s.setCount tag n) := rfl

theorem reflectsClaimed (before : Reflects count outer ((scope, component) :: stack) done s) :
    s.claimed = idsIn scope done := by
  rw [ReadState.claimed, before.scopes]
  rfl

/- A component in an element is open while its body is read. -/
theorem reflectsEnter (before : Reflects count outer stack done s) (tag : String)
    (below : ∀ q ∈ stack, q.1 < done.length) :
    Reflects count outer ((done.length, tag) :: stack) done (s.pushScope tag) where
  numbering := before.numbering
  apart := before.apart
  counts := before.counts
  scopes := by
    have none : idsIn done.length done = [] := by
      refine List.map_eq_nil_iff.mpr (List.filter_eq_nil_iff.mpr fun x member => ?_)
      simpa using Nat.ne_of_lt (before.within x member)
    rw [List.map_cons, none, ReadState.pushScope, before.scopes]
    rfl
  nested := List.pairwise_cons.mpr ⟨below, before.nested⟩
  opened q member := by
    rcases List.mem_cons.mp member with rfl | earlier
    · exact Nat.le_refl _
    · exact before.opened q earlier
  within := before.within

theorem reflectsLeave {q : Nat × String} (before : Reflects count outer (q :: stack) done s) :
    Reflects count outer stack done s.popScope where
  numbering := before.numbering
  apart := before.apart
  counts := before.counts
  scopes := by
    rw [ReadState.popScope, before.scopes]
    rfl
  nested := (List.pairwise_cons.mp before.nested).2
  opened q member := before.opened q (List.mem_cons_of_mem _ member)
  within := before.within

theorem reflectsWarned (message : String) (s : ReadState)
    (before : Reflects count outer stack done s) :
    Reflects count outer stack done (s.warn message) :=
  ⟨before.numbering, before.apart, before.counts, before.scopes, before.nested, before.opened,
    before.within⟩

def Reached (count : String → Nat) (outer : List IdScope) (stack : List (Nat × String))
    (done : List Numbered) (ps : List Place) (t : ReadState) : Prop :=
  ∃ more : List Numbered, more.map (·.place) = ps.reverse ∧
    Reflects count outer stack (more ++ done) t

def Refuses (count : String → Nat) (done : List Numbered) (ps : List Place)
    (id component : String) : Prop :=
  ∃ earlier y later, ∃ more : List Numbered, ps = earlier ++ y :: later ∧
    more.map (·.place) = earlier.reverse ∧ Numbering count (more ++ done) ∧ y.given = some id ∧
    y.component = component ∧ id ∈ idsIn y.scope (more ++ done)

theorem refusesFirst {ps : List Place} {id component : String}
    (refuses : Refuses count done ps id component) (qs : List Place) :
    Refuses count done (ps ++ qs) id component := by
  obtain ⟨earlier, y, later, more, rfl, rest⟩ := refuses
  exact ⟨earlier, y, later ++ qs, more, by simp, rest⟩

theorem refusesLater {more : List Numbered} {ps qs : List Place} {id component : String}
    (places : more.map (·.place) = ps.reverse)
    (refuses : Refuses count (more ++ done) qs id component) :
    Refuses count done (ps ++ qs) id component := by
  obtain ⟨earlier, y, later, others, rfl, same, rest⟩ := refuses
  refine ⟨ps ++ earlier, y, later, others ++ more, by simp, by simp [same, places], ?_⟩
  rwa [List.append_assoc]

inductive RepeatsStyle (id component : String) : Node → Prop where
  | block {node block : Node} (body : Widget.ofTag? node.name = none)
      (member : block ∈ node.children) (named : block.name = "styles")
      (failed : StyleGroup.read block (some node.name) =
        .error (.duplicateIdentifier id component)) : RepeatsStyle id component node
  | inner {node child : Node} (member : child ∈ node.children)
      (inside : RepeatsStyle id component child) : RepeatsStyle id component node

def Numbers {α : Type} (count : String → Nat) (outer : List IdScope) (stack : List (Nat × String))
    (done : List Numbered) (ps : List Place) (repeats : String → String → Prop) (x : Read α) : Prop :=
  Task.Triple (Reflects count outer stack done) x (fun _ => Reached count outer stack done ps)
    (fun e => ∀ id c, e = .duplicateIdentifier id c → Refuses count done ps id c ∨ repeats id c)

section Numbers

variable {α β : Type} {ps qs : List Place} {repeats repeats' : String → String → Prop} {x : Read α}

theorem numbersNone (a : α) : Numbers count outer stack done [] repeats (pure a) :=
  Task.triplePure fun _ before => ⟨[], rfl, before⟩

theorem numbersOf (numbers : Numbers count outer stack done ps repeats x)
    (weaker : ∀ id c, repeats id c → repeats' id c) :
    Numbers count outer stack done ps repeats' x :=
  Task.tripleOf numbers (fun _ holds => holds) (fun _ _ holds => holds)
    fun _ failed id c same => (failed id c same).imp_right (weaker id c)

theorem lengthAfter {more : List Numbered} (same : more.map (·.place) = ps.reverse)
    (done : List Numbered) : (more ++ done).length = done.length + ps.length := by
  have length := congrArg List.length same
  rw [List.length_map, List.length_reverse] at length
  rw [List.length_append, length, Nat.add_comm]

/- The elements behind others are read from where those have left off. -/
theorem numbersOn {f : α → Read β} (first : Numbers count outer stack done ps repeats x)
    (rest : ∀ a more, (more ++ done).length = done.length + ps.length →
      (∀ q ∈ stack, q.1 ≤ done.length) →
      Numbers count outer stack (more ++ done) qs repeats (f a)) :
    Numbers count outer stack done (ps ++ qs) repeats (x >>= f) := by
  intro s before
  have opened := before.opened
  revert s before
  refine Task.tripleBind _ (Task.tripleOf first (fun _ holds => holds) (fun _ _ holds => holds)
    fun e failed id c same => (failed id c same).imp_left fun refuses => refusesFirst refuses qs)
    fun a => Task.tripleSome fun more => Task.tripleGiven fun same => ?_
  refine Task.tripleOf (rest a more (lengthAfter same done) opened) (fun _ holds => holds)
    (fun b t reached => ?_)
    fun e failed id c same' => (failed id c same').imp_left (refusesLater same)
  obtain ⟨others, same', reflects⟩ := reached
  exact ⟨others ++ more, by simp [same, same'], by rwa [List.append_assoc]⟩

/- What follows reads no elements. -/
theorem numbersThen {f : α → Read β} (first : Numbers count outer stack done ps repeats x)
    (rest : ∀ a, ∃ b, f a = pure b) : Numbers count outer stack done ps repeats (x >>= f) := by
  refine Task.tripleBind _ first fun a => ?_
  obtain ⟨b, same⟩ := rest a
  rw [same]
  exact Task.triplePure fun _ holds => holds

theorem numbersGet {f : ReadState → Read β}
    (rest : ∀ s, Numbers count outer stack done ps repeats (f s)) :
    Numbers count outer stack done ps repeats (get >>= f) := by
  intro s before
  rw [Task.getBind]
  exact rest s s before

theorem numbersThrow {e : Error} {f : α → Read β} (other : ∀ id c, e ≠ .duplicateIdentifier id c) :
    Numbers count outer stack done ps repeats ((throw e : Read α) >>= f) :=
  Task.tripleBind (fun _ _ => False) (Task.tripleThrow fun id c same => absurd same (other id c))
    fun _ _ impossible => impossible.elim

/- What comes before reads no elements and refuses no ids. -/
theorem numbersAfter {f : α → Read β} {given : α → Prop}
    (first : Task.Triple (Reflects count outer stack done) x
      (fun a t => given a ∧ Reflects count outer stack done t)
      (fun e => ∀ id c, e ≠ .duplicateIdentifier id c))
    (rest : ∀ a, given a → Numbers count outer stack done ps repeats (f a)) :
    Numbers count outer stack done ps repeats (x >>= f) :=
  Task.tripleBind _ (Task.tripleOf first (fun _ holds => holds) (fun _ _ holds => holds)
    fun _ failed id c same => absurd same (failed id c)) fun a => Task.tripleGiven (rest a)

end Numbers

/- An element takes its id, which can only be in use if it has been given to it. -/
theorem readIdNumbers {repeats : String → String → Prop} (tag : String) (raw : Option String) :
    Numbers count outer ((scope, component) :: stack) done
      [⟨scope, component, tag, raw.map Text.trim⟩] repeats (readId tag raw) := by
  unfold readId
  cases raw with
  | some raw =>
    have provided : Task.Triple (Reflects count outer ((scope, component) :: stack) done)
        (providedId raw) (fun id t => id.name = Text.trim raw ∧
          Reflects count outer ((scope, component) :: stack) done t)
        (fun e => ∀ id c, e ≠ .duplicateIdentifier id c) := by
      simp only [providedId]
      split
      · exact Task.triplePure fun t holds => ⟨rfl, holds⟩
      · exact invalidNameFails fun path _ _ same => by cases same
    refine numbersAfter provided fun id named => ?_
    refine numbersThen (fun s before => ?_) fun _ => ⟨id, rfl⟩
    rw [claimOutcome id.name before.scopes]
    dsimp only
    by_cases taken : id.name ∈ idsIn scope done
    · rw [if_pos (List.contains_iff_mem.mpr taken)]
      refine ⟨fun _ _ same => by simp at same, fun e failed again c same => .inl ?_⟩
      subst same
      cases failed
      exact ⟨[], _, [], [], rfl, rfl, before.numbering, congrArg some named.symm, rfl, taken⟩
    · rw [if_neg (by simpa using taken)]
      refine ⟨fun _ t same => ?_, fun e same => by cases same⟩
      cases same
      refine ⟨[⟨⟨scope, component, tag, some (Text.trim raw)⟩, 0⟩], rfl, reflectsNext before rfl
        (named ▸ taken) (.given before.numbering rfl) before.counts ?_⟩
      rw [named]
      rfl
  | none =>
    intro s before
    have first := freeNumberFirst (idBase tag) s.claimed (s.count tag)
    rw [Task.bindOk (generateOutcome tag s)]
    generalize freeNumber (idBase tag) s.claimed (s.count tag) s.claimed.length = n at first ⊢
    rw [reflectsClaimed before, before.counts tag] at first
    have inside : (s.setCount tag n).scopes = _ := before.scopes
    have free : idBase tag ++ toString n ∉ idsIn scope done := first.free
    have claimed := claimOutcome (idBase tag ++ toString n) inside
    rw [if_neg (by simpa using free)] at claimed
    rw [Task.bindOk claimed]
    refine ⟨fun _ t same => ?_, fun e same => by cases same⟩
    cases same
    refine ⟨[⟨⟨scope, component, tag, none⟩, n⟩], rfl, reflectsNext
      (x := ⟨⟨scope, component, tag, none⟩, n⟩) before rfl free
      (.counted before.numbering rfl first) (fun other => ?_) rfl⟩
    refine (countSet s tag other n).trans ?_
    rw [lastNumber]
    by_cases same : tag = other
    · rw [if_pos same, if_pos ⟨rfl, same⟩]
    · rw [if_neg same, if_neg fun both => same both.2, before.counts other]

/- An element is the first of those that are read from it on. -/
theorem numbersElement {α : Type} {qs : List Place} {repeats : String → String → Prop} (tag : String)
    (raw : Option String) {f : ElementId → Read α}
    (rest : ∀ id now, now.length = done.length + 1 →
      (∀ q ∈ (scope, component) :: stack, q.1 < now.length) →
      Numbers count outer ((scope, component) :: stack) now qs repeats (f id)) :
    Numbers count outer ((scope, component) :: stack) done
      (⟨scope, component, tag, raw.map Text.trim⟩ :: qs) repeats (readId tag raw >>= f) :=
  numbersOn (readIdNumbers tag raw) fun id _ length opened =>
    rest id _ length fun q member => length ▸ Nat.lt_succ_of_le (opened q member)

theorem attributeOther {e : Error} (refused : e.OfAttribute) (id c : String) :
    e ≠ .duplicateIdentifier id c := by
  rintro rfl
  cases refused

theorem blockOther {e : Error} (refused : e.OfBlock) (id c : String) :
    e ≠ .duplicateIdentifier id c := by
  rintro rfl
  cases refused

mutual

theorem readNumbers (stack : List (Nat × String)) (done : List Numbered) (scope : Nat)
    (component : String) (node : Node) :
    Numbers count outer ((scope, component) :: stack) done
      (places scope component done.length node) (RepeatsStyle · · node) (read node) := by
  obtain ⟨tag, attributes, children, text⟩ := node
  rw [read, places]
  refine numbersAfter (kindOfKeeps fun _ _ _ same => by cases same) fun kind kinded =>
    numbersGet fun s => ?_
  dsimp only
  by_cases missing : (!kind.isAvailable s.platform) = true
  · rw [if_pos missing]
    exact numbersThrow fun _ _ same => by cases same
  · rw [if_neg missing]
    refine numbersElement tag (attributes.lookup "id") fun id now length opened => ?_
    rw [← length]
    refine numbersAfter (applyAttributesKeeps reflectsWarned (fun _ => attributeOther) tag attributes
      (bare kind id)) fun e same => ?_
    replace same := same.trans kinded
    by_cases leaf : children.isEmpty = true
    · rw [if_pos leaf, List.isEmpty_iff.mp leaf, placesAll, placesBody, ite_self]
      exact numbersNone e
    · rw [if_neg leaf]
      cases kindIs : e.kind with
      | component r =>
        have unknown : Widget.ofTag? tag = none := by simpa [kindIs, ElementKind.reference?] using same
        rw [unknown, if_neg (by simp)]
        refine numbersThen (inScopeKeeps (numbersOf
          (readBodyNumbers ((scope, component) :: stack) now now.length tag {} children) ?_)
          (fun s before => reflectsEnter before tag opened) ?_) fun _ => ⟨_, rfl⟩
        · rintro id c ⟨child, member, ⟨named, failed⟩ | inside⟩
          · exact .block unknown member named failed
          · exact .inner member inside
        · rintro _ t ⟨more, places, reflects⟩
          exact ⟨more, places, reflectsLeave reflects⟩
      | widget w =>
        have known : (Widget.ofTag? tag).isSome = true := by
          simpa [kindIs, ElementKind.reference?, Option.isSome_iff_ne_none] using same
        rw [if_pos known]
        dsimp only
        by_cases closed : (!w.isContainer) = true
        · rw [if_pos closed]
          exact numbersThrow fun _ _ same => by cases same
        · rw [if_neg closed]
          refine numbersThen (numbersOf (readAllNumbers stack now scope component children) ?_)
            fun _ => ⟨_, rfl⟩
          rintro id c ⟨child, member, inside⟩
          exact .inner member inside

theorem readAllNumbers (stack : List (Nat × String)) (done : List Numbered) (scope : Nat)
    (component : String) (nodes : List Node) :
    Numbers count outer ((scope, component) :: stack) done
      (placesAll scope component done.length nodes) (fun id c => ∃ node ∈ nodes, RepeatsStyle id c node)
      (readAll nodes) := by
  cases nodes with
  | nil => exact numbersNone []
  | cons node rest =>
    rw [readAll, placesAll]
    refine numbersOn (numbersOf (readNumbers stack done scope component node) fun id c repeats =>
      ⟨node, List.mem_cons_self, repeats⟩) fun first more length _ => ?_
    rw [← length]
    refine numbersThen (numbersOf (readAllNumbers stack (more ++ done) scope component rest) ?_)
      fun _ => ⟨_, rfl⟩
    rintro id c ⟨child, member, repeats⟩
    exact ⟨child, List.mem_cons_of_mem _ member, repeats⟩

theorem readBodyNumbers (stack : List (Nat × String)) (done : List Numbered) (scope : Nat)
    (component : String) (blocks : Blocks) (nodes : List Node) :
    Numbers count outer ((scope, component) :: stack) done
      (placesBody scope component done.length nodes)
      (fun id c => ∃ node ∈ nodes, (node.name = "styles" ∧ StyleGroup.read node (some component) =
            .error (.duplicateIdentifier id c)) ∨ RepeatsStyle id c node)
      (readBody component blocks nodes) := by
  cases nodes with
  | nil => exact numbersNone _
  | cons node rest =>
    have later : ∀ id c, (∃ node ∈ rest, (node.name = "styles" ∧
        StyleGroup.read node (some component) = .error (.duplicateIdentifier id c)) ∨
        RepeatsStyle id c node) → ∃ x ∈ node :: rest, (x.name = "styles" ∧
        StyleGroup.read x (some component) = .error (.duplicateIdentifier id c)) ∨
        RepeatsStyle id c x := fun id c ⟨child, member, repeats⟩ =>
      ⟨child, List.mem_cons_of_mem _ member, repeats⟩
    rw [readBody, placesBody]
    split
    · refine Task.tripleBind _ (absorbBlockKeeps component blocks node
        (fun e refused id c same => absurd same (blockOther refused id c))
        fun named e failed id c same =>
          .inr ⟨node, List.mem_cons_self, .inl ⟨named, same ▸ failed⟩⟩) fun next => ?_
      exact numbersOf (readBodyNumbers stack done scope component next rest) later
    · refine numbersOn (numbersOf (readNumbers stack done scope component node) fun id c repeats =>
        ⟨node, List.mem_cons_self, .inr repeats⟩) fun first more length _ => ?_
      rw [← length]
      exact numbersThen (numbersOf (readBodyNumbers stack (more ++ done) scope component blocks rest)
        later) fun _ => ⟨_, rfl⟩

end

/-- An element without an id gets the one that a later element of its component has been given. -/
structure Clash (count : String → Nat) (ps : List Place) (x : Numbered) (y : Place) : Prop where
  order : ∃ earlier later named, ps = earlier ++ y :: later ∧
    named.map (·.place) = earlier.reverse ∧ Numbering count named ∧ x ∈ named
  together : x.place.scope = y.scope
  unnamed : x.place.given = none
  taken : y.given = some x.id

end Element

namespace ComponentDefinition
open Element

def places (node : Node) : List Place := placesBody 0 node.name 0 node.children

def Authored (node : Node) : Prop :=
  (places node).Pairwise fun p q => p.scope = q.scope → p.given = q.given → p.given = none

instance (node : Node) : Decidable (Authored node) := inferInstanceAs (Decidable (List.Pairwise _ _))

theorem readNumbered (node : Node) (s : ReadState) :
    Task.Triple (· = s) (read node)
      (fun _ _ => ∃ t, Reached s.count s.scopes [(0, node.name)] [] (places node) t)
      (fun e => ∀ id c, e = .duplicateIdentifier id c →
        Refuses s.count [] (places node) id c ∨ RepeatsStyle id c node) := by
  unfold read
  dsimp only
  by_cases refused : (!isAllowed node.name || (Widget.ofTag? node.name).isSome) = true
  · rw [if_pos refused]
    refine Task.tripleBind (fun _ _ => False) ?_ fun _ _ impossible => impossible.elim
    exact invalidNameFails fun _ _ _ same => by cases same
  · rw [if_neg refused]
    have body : Widget.ofTag? node.name = none := by
      rw [Bool.or_eq_true, not_or] at refused
      simpa using refused.2
    refine Task.tripleGet fun u here => ?_
    subst here
    have begun : Reflects u.count u.scopes [(0, node.name)] [] (u.pushScope node.name) :=
      ⟨.nobody, .nil, fun _ => rfl, rfl, List.pairwise_singleton _ _, by simp, by simp⟩
    have numbers : Numbers u.count u.scopes [(0, node.name)] [] (places node)
        (RepeatsStyle · · node) (do
          let root ← applyAttributes node.name node.attributes (bare (.widget .container) rootId)
          let root ← dropLayout node.name root
          let body ← readBody node.name {} node.children
          return define node.name u.path false root body.1 body.2) := by
      refine numbersAfter (applyAttributesKeeps reflectsWarned (fun _ => attributeOther) _ _ _)
        fun root _ => ?_
      refine Task.tripleBind _ (dropLayoutKeeps reflectsWarned node.name root) fun root => ?_
      refine numbersThen (numbersOf (readBodyNumbers [] [] 0 node.name {} node.children) ?_)
        fun _ => ⟨_, rfl⟩
      rintro id c ⟨child, member, ⟨named, failed⟩ | inside⟩
      · exact .block body member named failed
      · exact .inner member inside
    exact inScopeKeeps numbers (fun _ same => same ▸ begun) fun _ t reached => ⟨t, reached⟩

/- Where the given ids are distinct, an element is only refused for the id of one that has none, and
it is refused if there is such an element. -/
theorem refusedClash {node : Node} (authored : Authored node) (s : ReadState) :
    (∀ id c, ((read node).outcome s).1 = .error (.duplicateIdentifier id c) →
      RepeatsStyle id c node ∨
        ∃ x y, Clash s.count (places node) x y ∧ x.id = id ∧ y.component = c) ∧
    ∀ x y, Clash s.count (places node) x y → ((read node).outcome s).1.isOk = false := by
  obtain ⟨gives, fails⟩ := readNumbered node s s rfl
  constructor
  · intro id c failed
    refine (fails _ failed id c rfl).symm.imp_right ?_
    rintro ⟨earlier, y, later, named, order, before, numbering, own, here, taken⟩
    rw [List.append_nil] at numbering taken
    obtain ⟨x, member, same⟩ := List.mem_map.mp taken
    obtain ⟨member, together⟩ := List.mem_filter.mp member
    replace together := eq_of_beq together
    refine ⟨x, y, ⟨⟨earlier, later, named, order, before, numbering, member⟩, together, ?_,
      same ▸ own⟩, same, here⟩
    -- An id that was given to both would not be distinct.
    by_contra given
    obtain ⟨i, first⟩ := Option.ne_none_iff_exists'.mp given
    have inside : x.place ∈ earlier := by
      rw [← List.mem_reverse, ← before]
      exact List.mem_map_of_mem member
    unfold Authored at authored
    rw [order] at authored
    have apart := (List.pairwise_append.mp authored).2.2 _ inside y List.mem_cons_self together
    have twice : x.place.given = y.given := by rw [own, ← same, Numbered.id, first, Option.getD_some]
    exact given (apart twice)
  · rintro x y ⟨⟨earlier, later, named, order, before, numbering, member⟩, together, unnamed, taken⟩
    by_contra succeeded
    obtain ⟨d, t, ok⟩ := Result.okGives (Bool.not_eq_false _ ▸ succeeded)
    obtain ⟨u, more, same, reflects⟩ := gives d t ok
    rw [List.append_nil] at reflects
    rw [order, List.reverse_append, List.reverse_cons, List.append_assoc, List.singleton_append] at same
    obtain ⟨a, rest, rfl, -, tail⟩ := List.map_eq_append_iff.mp same
    obtain ⟨z, b, rfl, rfl, behind⟩ := List.map_eq_cons_iff.mp tail
    have own := numberingBefore [z] (numberingBefore a reflects.numbering)
    obtain rfl := numberingOne own numbering (behind.trans before.symm)
    have apart := List.rel_of_pairwise_cons (List.pairwise_append.mp reflects.apart).2.1 member
    exact apart together.symm (by rw [Numbered.id, taken, Option.getD_some])

theorem plainRepeatsNone {id c : String} {node : Node}
    (plain : ∀ child ∈ node.children, child.name ≠ "styles" ∧ ¬ RepeatsStyle id c child) :
    ¬ RepeatsStyle id c node := by
  rintro (⟨_, member, named, _⟩ | ⟨member, inside⟩)
  · exact (plain _ member).1 named
  · exact (plain _ member).2 inside

/- A badge with a label of its own, whose number counts the label of the card. -/
def badgeCard : Node where
  name := "Card"
  children := [⟨"Label", [], [], ""⟩,
    ⟨"Badge", [], [⟨"Label", [], [], ""⟩, ⟨"View", [("id", "label2")], [], ""⟩], ""⟩]

def cardStart : ReadState := { platform := .iOS, path := "Card.ui.xml" }

theorem badgeClash : Authored badgeCard ∧
    (∃ x y, Clash cardStart.count (places badgeCard) x y ∧ x.id = "label2" ∧ y.component = "Badge") ∧
    ((read badgeCard).outcome cardStart).1.isOk = false := by
  have authored : Authored badgeCard := by decide +kernel
  have failed : ((read badgeCard).outcome cardStart).1.map (fun _ => ()) =
      .error (.duplicateIdentifier "label2" "Badge") := by decide +kernel
  obtain ⟨fails, refused⟩ := refusedClash authored cardStart
  have unstyled : ¬ RepeatsStyle "label2" "Badge" badgeCard := by
    refine plainRepeatsNone ?_
    simp only [badgeCard, List.forall_mem_cons]
    refine ⟨⟨by decide, plainRepeatsNone (by simp)⟩, ⟨by decide, plainRepeatsNone ?_⟩, by simp⟩
    simp only [List.forall_mem_cons]
    exact ⟨⟨by decide, plainRepeatsNone (by simp)⟩, ⟨by decide, plainRepeatsNone (by simp)⟩, by simp⟩
  obtain ⟨x, y, clash, names⟩ := (fails _ _ (Result.mapError.mp failed)).resolve_left unstyled
  exact ⟨authored, ⟨x, y, clash, names⟩, refused x y clash⟩

/- An id that an element has been given is refused for one that was made up before it. -/
def lateCard : Node where
  name := "Card"
  children := [⟨"Label", [], [], ""⟩, ⟨"Label", [("id", "label1")], [], ""⟩]

theorem lateRefused : Authored lateCard ∧ (∀ id c, ¬ RepeatsStyle id c lateCard) ∧
    ((read lateCard).outcome cardStart).1 = .error (.duplicateIdentifier "label1" "Card") := by
  have failed : ((read lateCard).outcome cardStart).1.map (fun _ => ()) =
      .error (.duplicateIdentifier "label1" "Card") := by decide +kernel
  refine ⟨by decide +kernel, fun id c => plainRepeatsNone ?_, Result.mapError.mp failed⟩
  simp only [lateCard, List.forall_mem_cons]
  exact ⟨⟨by decide, plainRepeatsNone (by simp)⟩, ⟨by decide, plainRepeatsNone (by simp)⟩, by simp⟩

end ComponentDefinition
end ViewForge
