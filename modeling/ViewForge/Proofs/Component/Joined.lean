import ViewForge.Proofs.Component.Blocks
import ViewForge.Proofs.Element.Steps

/-! One block in place of two. A block that holds the children of two blocks of its tag is refused
when one of those is, and for a name that is in both; what it comes to is what the two come to unless
of the blocks of the tag only the last one counts. -/
namespace ViewForge
open Markup (Node)

/-- What the second predicate allows has something related to it that the first one allows, which is
the same exactly if `same` holds; and then the two predicates are the same. -/
structure Fits {α : Type} (R : α → α → Prop) (same : Prop) (P Q : α → Prop) : Prop where
  found : ∀ b, Q b → ∃ a, P a ∧ R a b ∧ (a = b ↔ same)
  kept : same → ∀ a, P a → Q a

namespace Blocks

def SameStyles (a b : Blocks) : Prop := a.styles = b.styles

/-- The second list has, in place of the first two nodes, a block with the children of both. -/
structure Joined (tag : String) (first second : Node) (after split joined : List Node) : Prop where
  plain : first.attributes = [] ∧ second.attributes = []
  blocks : ∃ before both, both.attributes = [] ∧ both.children = first.children ++ second.children ∧
    split.filter (·.name == tag) = before ++ first :: second :: after ∧
    joined.filter (·.name == tag) = before ++ both :: after
  others : split.filter (·.name != tag) = joined.filter (·.name != tag)

/-- The two blocks have no name in common, and if only the last block of the tag counts, either it is
neither of them or there is nothing in the first one. -/
def Compatible (tag : String) (first second : Node) (after : List Node) : Prop :=
  match tag with
  | "styles" => NamesApart first.children second.children
  | "state" => NamesApart (first.childrenNamed "item") (second.childrenNamed "item") ∧
    (first.childrenNamed "item" = [] ∨ after ≠ [])
  | "navigationBar" => first.childrenNamed "item" = [] ∨ after ≠ []
  | _ => True

section Gathers

variable {β γ : Type} {tag : String} {read : Node → Result β} {step : γ → β → γ} {start : γ}
  {split joined before after : List Node} {first second both : Node}

theorem gathersFits (join : β → β → β) {apart kept : Prop}
    (two : split.filter (·.name == tag) = before ++ first :: second :: after)
    (one : joined.filter (·.name == tag) = before ++ both :: after)
    (joins : ∀ c, read both = .ok c ↔
      ∃ a b, read first = .ok a ∧ read second = .ok b ∧ apart ∧ c = join a b)
    (steps : ∀ a b found value, read first = .ok a → read second = .ok b →
      after.mapM read = .ok found →
      (found.foldl step (step (step value a) b) = found.foldl step (step value (join a b)) ↔ kept)) :
    Fits (fun a b => kept → a = b) (apart ∧ kept) (Gathers tag read step start split)
      (Gathers tag read step start joined) := by
  constructor
  · rintro value ⟨_, ok, rfl⟩
    rw [one] at ok
    obtain ⟨xs, _, left, more, rfl⟩ := Result.mapMAppend.mp ok
    obtain ⟨c, ys, here, right, rfl⟩ := Result.mapMCons.mp more
    obtain ⟨a, b, own, other, different, rfl⟩ := (joins c).mp here
    have same : (xs ++ a :: b :: ys).foldl step start = (xs ++ join a b :: ys).foldl step start ↔
        kept := by
      rw [List.foldl_append, List.foldl_append]
      exact steps a b ys _ own other right
    refine ⟨_, ⟨xs ++ a :: b :: ys, ?_, rfl⟩, same.mpr, same.trans (and_iff_right different).symm⟩
    rw [two]
    exact Result.mapMAppend.mpr ⟨xs, _, left, Result.mapMCons.mpr ⟨a, _, own,
      Result.mapMCons.mpr ⟨b, ys, other, right, rfl⟩, rfl⟩, rfl⟩
  · rintro ⟨different, same⟩ value ⟨_, ok, rfl⟩
    rw [two] at ok
    obtain ⟨xs, _, left, more, rfl⟩ := Result.mapMAppend.mp ok
    obtain ⟨a, _, own, rest, rfl⟩ := Result.mapMCons.mp more
    obtain ⟨b, ys, other, right, rfl⟩ := Result.mapMCons.mp rest
    refine ⟨xs ++ join a b :: ys, ?_, ?_⟩
    · rw [one]
      exact Result.mapMAppend.mpr ⟨xs, _, left, Result.mapMCons.mpr ⟨_, ys,
        (joins _).mpr ⟨a, b, own, other, different, rfl⟩, right, rfl⟩, rfl⟩
    · rw [List.foldl_append, List.foldl_append]
      exact (steps a b ys _ own other right).mpr same

/- Of blocks that replace each other only the last one counts. -/
theorem lastCounts {found : List β} {b c : β} (read : after.mapM read = .ok found) :
    found.foldl (fun _ last => last) b = found.foldl (fun _ last => last) c ↔ b = c ∨ after ≠ [] := by
  cases Result.mapMOk read with
  | nil => simp
  | cons _ _ => simp

/- Two blocks whose readers keep each declaration under its name. -/
theorem joinsDeclared {name : β → String} {reader : Node → Result γ} (content : Node → List Node)
    (wrap : List β → γ) (unwrap : γ → List β)
    (gives : ∀ node, node.attributes = [] → ∀ c, reader node = .ok c ↔
      ∃ found, Declares read name (content node) found ∧ c = wrap found)
    (opens : ∀ found, unwrap (wrap found) = found)
    (named : ∀ node x, read node = .ok x → node.get? "name" = some (name x))
    (plain : first.attributes = [] ∧ second.attributes = []) (bare : both.attributes = [])
    (holds : content both = content first ++ content second) (c : γ) :
    reader both = .ok c ↔ ∃ a b, reader first = .ok a ∧ reader second = .ok b ∧
      NamesApart (content first) (content second) ∧ c = wrap (unwrap a ++ unwrap b) := by
  rw [gives both bare, holds]
  simp only [declaresJoined named, gives first plain.1, gives second plain.2]
  constructor
  · rintro ⟨_, ⟨as, bs, left, right, apart, rfl⟩, rfl⟩
    exact ⟨_, _, ⟨as, left, rfl⟩, ⟨bs, right, rfl⟩, apart, by rw [opens, opens]⟩
  · rintro ⟨_, _, ⟨as, left, rfl⟩, ⟨bs, right, rfl⟩, apart, rfl⟩
    rw [opens, opens]
    exact ⟨_, ⟨as, bs, left, right, apart, rfl⟩, rfl⟩

end Gathers

section Joined

variable {component tag : String} {first second : Node} {after split joined : List Node}

/- A block is read child by child. -/
theorem joinsEach {β : Type} {read : Node → Result β} (content : Node → List Node) {both : Node}
    (holds : content both = content first ++ content second) (c : List β) :
    (content both).mapM read = .ok c ↔ ∃ a b, (content first).mapM read = .ok a ∧
      (content second).mapM read = .ok b ∧ True ∧ c = a ++ b := by
  rw [holds, Result.mapMAppend]
  simp only [true_and]

/- Nodes of which none has the tag. -/
theorem keptFilter (join : Joined tag first second after split joined) {p : Node → Bool}
    (other : ∀ node, p node = true → node.name ≠ tag) : split.filter p = joined.filter p := by
  have within : ∀ nodes : List Node, nodes.filter p = (nodes.filter (·.name != tag)).filter p := by
    intro nodes
    rw [List.filter_filter]
    refine List.filter_congr fun node _ => ?_
    cases own : p node with
    | false => rfl
    | true => simpa using other node own
  rw [within split, within joined, join.others]

theorem keptGathers (join : Joined tag first second after split joined) {β γ : Type} {other : String}
    (apart : other ≠ tag) {read : Node → Result β} {step : γ → β → γ} {start value : γ} :
    Gathers other read step start split value ↔ Gathers other read step start joined value := by
  unfold Gathers
  rw [keptFilter join fun node named => by rwa [eq_of_beq named]]

theorem readNone {β : Type} {read : Node → Result β} {nodes : List Node} {found : List β}
    (ok : nodes.mapM read = .ok found) : found = [] ↔ nodes = [] := by
  cases Result.mapMOk ok with
  | nil => simp
  | cons _ _ => simp

def Beside (component tag : String) (start : Blocks) (nodes : List Node) (b : Blocks) : Prop :=
  (tag ≠ "styles" → Gathers "styles" (StyleGroup.read · (some component)) mergeStyles start.styles
    nodes b.styles) ∧
  (tag ≠ "templates" → Gathers "templates" (fun node => node.children.mapM Template.read) (· ++ ·)
    start.templates nodes b.templates) ∧
  (tag ≠ "state" → Gathers "state" StateDescription.read (fun _ last => last) start.state nodes
    b.state) ∧
  Gathers "overrides" Override.read (fun _ last => last) start.overrides nodes b.overrides ∧
  (tag ≠ "navigationBar" → Gathers "navigationBar" NavigationItem.readAll (fun _ last => last)
    start.navigation nodes b.navigation)

theorem keptBeside (join : Joined tag first second after split joined) (known : tag ≠ "overrides")
    {start b : Blocks} :
    Beside component tag start split b ↔ Beside component tag start joined b := by
  unfold Beside
  rw [keptGathers join known.symm]
  refine and_congr ?_ (and_congr ?_ (and_congr ?_ (and_congr Iff.rfl ?_))) <;>
    exact imp_congr_right fun apart => keptGathers join apart.symm

structure Field {β γ : Type} (component tag : String) (read : Node → Result β)
    (step : γ → β → γ) where
  get : Blocks → γ
  put : γ → Blocks → Blocks
  own : ∀ value b, get (put value b) = value
  back : ∀ b, put (get b) b = b
  apart : ∀ start nodes value b,
    Beside component tag start nodes b → Beside component tag start nodes (put value b)
  splits : ∀ start nodes b, Comes component start nodes b ↔
    Gathers tag read step (get start) nodes (get b) ∧ Beside component tag start nodes b

theorem fieldFits {β γ : Type} {read : Node → Result β} {step : γ → β → γ}
    (field : Field component tag read step) (join : Joined tag first second after split joined)
    (known : tag ≠ "overrides") {same : Prop} (kept : Prop) {start : Blocks}
    (styles : ∀ value b, (kept → value = field.get b) → SameStyles (field.put value b) b)
    (fits : Fits (fun a b => kept → a = b) same (Gathers tag read step (field.get start) split)
      (Gathers tag read step (field.get start) joined)) :
    Fits SameStyles same (Comes component start split) (Comes component start joined) := by
  constructor
  · intro b comes
    obtain ⟨given, beside⟩ := (field.splits _ _ _).mp comes
    obtain ⟨value, found, related, equal⟩ := fits.found _ given
    refine ⟨field.put value b, (field.splits _ _ _).mpr ⟨(field.own value b).symm ▸ found,
      field.apart _ _ value b ((keptBeside join known).mpr beside)⟩, styles value b related, ?_⟩
    rw [← equal]
    constructor
    · intro whole
      rw [← field.own value b, whole]
    · rintro rfl
      exact field.back b
  · intro holds b comes
    obtain ⟨given, beside⟩ := (field.splits _ _ _).mp comes
    exact (field.splits _ _ _).mpr ⟨fits.kept holds _ given, (keptBeside join known).mp beside⟩

def stylesField (component : String) :
    Field component "styles" (StyleGroup.read · (some component)) mergeStyles where
  get b := b.styles
  put styles b := { b with styles }
  own _ _ := rfl
  back _ := rfl
  apart _ _ _ _ := by simp [Beside]
  splits _ _ _ := by simp [comes_iff, Beside]

def templatesField (component : String) :
    Field component "templates" (fun node => node.children.mapM Template.read) (· ++ ·) where
  get b := b.templates
  put templates b := { b with templates }
  own _ _ := rfl
  back _ := rfl
  apart _ _ _ _ := by simp [Beside]
  splits _ _ _ := by
    simp only [comes_iff, Beside, ne_eq, String.reduceEq, not_false_eq_true, true_imp_iff]
    tauto

def stateField (component : String) :
    Field component "state" StateDescription.read (fun _ last => last) where
  get b := b.state
  put state b := { b with state }
  own _ _ := rfl
  back _ := rfl
  apart _ _ _ _ := by simp [Beside]
  splits _ _ _ := by
    simp only [comes_iff, Beside, ne_eq, String.reduceEq, not_false_eq_true, true_imp_iff]
    tauto

def barField (component : String) :
    Field component "navigationBar" NavigationItem.readAll (fun _ last => last) where
  get b := b.navigation
  put navigation b := { b with navigation }
  own _ _ := rfl
  back _ := rfl
  apart _ _ _ _ := by simp [Beside]
  splits _ _ _ := by
    simp only [comes_iff, Beside, ne_eq, String.reduceEq, not_false_eq_true, true_imp_iff]
    tauto

theorem comesFits (listed : tag ∈ ["styles", "templates", "state", "navigationBar"])
    (join : Joined tag first second after split joined) (start : Blocks) :
    Fits SameStyles (Compatible tag first second after) (Comes component start split)
      (Comes component start joined) := by
  obtain ⟨before, both, bare, holds, two, one⟩ := join.blocks
  have items : both.childrenNamed "item" =
      first.childrenNamed "item" ++ second.childrenNamed "item" := by
    rw [Node.childrenNamed, holds, List.filter_append]
    rfl
  simp only [List.mem_cons, List.not_mem_nil, or_false] at listed
  rcases listed with rfl | rfl | rfl | rfl
  · refine fieldFits (stylesField component) join (by decide) True
      (fun _ _ same => same trivial) ?_
    have joins := joinsDeclared (·.children) (StyleGroup.mk component) StyleGroup.styles
      (fun _ plain _ => stylesGive plain) (fun _ => rfl) (fun _ _ => styleNamed) join.plain bare holds
    rw [← and_true (Compatible _ _ _ _)]
    refine gathersFits _ two one joins fun a b found value own _ _ => ?_
    obtain ⟨styles, _, rfl⟩ := (stylesGive join.plain.1).mp own
    cases value <;> simp [mergeStyles]
  · refine fieldFits (templatesField component) join (by decide) True (fun _ _ _ => rfl) ?_
    rw [← and_true (Compatible _ _ _ _)]
    refine gathersFits _ two one (joinsEach (·.children) holds) fun a b found value _ _ _ => ?_
    simp
  · refine fieldFits (stateField component) join (by decide)
      (first.childrenNamed "item" = [] ∨ after ≠ []) (fun _ _ _ => rfl) ?_
    refine gathersFits _ two one (joinsDeclared (·.childrenNamed "item") (StateDescription.mk · none)
      StateDescription.items (fun _ plain _ => stateGives plain) (fun _ => rfl) (fun _ _ => itemNamed)
      join.plain bare items) fun a b found value own other read => ?_
    rw [lastCounts read]
    obtain ⟨xs, left, rfl⟩ := (stateGives join.plain.1).mp own
    obtain ⟨ys, right, rfl⟩ := (stateGives join.plain.2).mp other
    simp [readNone left.read]
  · refine fieldFits (barField component) join (by decide)
      (first.childrenNamed "item" = [] ∨ after ≠ []) (fun _ _ _ => rfl) ?_
    rw [← true_and (Compatible _ _ _ _)]
    refine gathersFits _ two one (joinsEach (·.childrenNamed "item") items)
      fun a b found value own _ read => ?_
    rw [lastCounts read]
    simp [readNone own]

end Joined

end Blocks

namespace Task

variable {σ α β : Type} {R : α → α → Prop} {same : Prop}

def Covers (R : α → α → Prop) (same : Prop) (x y : Task σ α) : Prop :=
  ∀ s t, Fits R same (fun a => x.outcome s = (.ok a, t)) (fun a => y.outcome s = (.ok a, t))

/- Runs that begin with the same task, of which something may be known. -/
theorem coversBefore {x : Task σ β} {f g : β → Task σ α} {post : β → σ → Prop}
    (given : Triple (fun _ => True) x post fun _ => True)
    (rest : ∀ b u, post b u → Covers R same (f b) (g b)) : Covers R same (x >>= f) (x >>= g) := by
  have next : ∀ s b u, x.outcome s = (.ok b, u) → Covers R same (f b) (g b) :=
    fun s b u first => rest b u ((given s trivial).1 b u first)
  intro s t
  constructor
  · intro a ok
    obtain ⟨b, u, first, ok⟩ := bindGives.mp ok
    obtain ⟨c, found, related, equal⟩ := (next s b u first u t).found a ok
    exact ⟨c, bindGives.mpr ⟨b, u, first, found⟩, related, equal⟩
  · intro holds a ok
    obtain ⟨b, u, first, ok⟩ := bindGives.mp ok
    exact bindGives.mpr ⟨b, u, first, (next s b u first u t).kept holds a ok⟩

theorem coversSame {x : Task σ β} {f g : β → Task σ α} (rest : ∀ b, Covers R same (f b) (g b)) :
    Covers R same (x >>= f) (x >>= g) := by
  have free : Triple (fun _ => True) x (fun _ _ => True) fun _ => True :=
    fun _ _ => ⟨fun _ _ _ => trivial, fun _ _ => trivial⟩
  exact coversBefore free fun b _ _ => rest b

/- Runs that end with the same task, to which what is different is of no concern. -/
theorem coversAfter {S : β → β → Prop} {x y : Task σ α} {f : α → Task σ β}
    (first : Covers R same x y)
    (rest : ∀ a b, R a b → ∀ s t d, (f b).outcome s = (.ok d, t) →
      ∃ c, (f a).outcome s = (.ok c, t) ∧ S c d ∧ (c = d ↔ a = b)) :
    Covers S same (x >>= f) (y >>= f) := by
  intro s t
  constructor
  · intro d ok
    obtain ⟨b, u, here, ok⟩ := bindGives.mp ok
    obtain ⟨a, found, related, equal⟩ := (first s u).found b here
    obtain ⟨c, more, next, inner⟩ := rest a b related u t d ok
    exact ⟨c, bindGives.mpr ⟨a, u, found, more⟩, next, inner.trans equal⟩
  · intro holds c ok
    obtain ⟨a, u, here, ok⟩ := bindGives.mp ok
    exact bindGives.mpr ⟨a, u, (first s u).kept holds a here, ok⟩

theorem coversUnless {c : Prop} [Decidable c] {e : Error} {f g : β → Task σ α} {x y : Task σ α}
    (rest : Covers R same x y) : Covers R same (if c then (throw e : Task σ β) >>= f else x)
      (if c then (throw e : Task σ β) >>= g else y) := by
  have thrown : Triple (fun _ => True) (throw e : Task σ β) (fun _ _ => False) fun _ => True :=
    tripleThrow trivial
  split
  · exact coversBefore thrown fun _ _ => False.elim
  · exact rest

theorem coversPure {S : β → β → Prop} {x y : Task σ α} {f : α → β} (first : Covers R same x y)
    (carried : ∀ a b, R a b → S (f a) (f b) ∧ (f a = f b ↔ a = b)) :
    Covers S same (x >>= fun a => pure (f a)) (y >>= fun a => pure (f a)) := by
  refine coversAfter first fun a b related s t d ok => ?_
  cases ok
  exact ⟨f a, rfl, carried a b related⟩

end Task

namespace Element
open Blocks (isBlock SameStyles Comes comesAll)
open ViewForge.Task (Covers coversBefore coversSame coversAfter coversUnless coversPure)

variable {same : Prop}

theorem inScopeOk {α : Type} {component : String} {body : Read α} {a : α} {s t : ReadState} :
    (inScope component body).outcome s = (.ok a, t) ↔
      ∃ u, body.outcome (s.pushScope component) = (.ok a, u) ∧ t = u.popScope := by
  rw [inScopeOutcome]
  constructor
  · intro ok
    obtain ⟨own, rfl⟩ := Prod.mk.inj ok
    exact ⟨_, Prod.ext own rfl, rfl⟩
  · rintro ⟨u, ok, rfl⟩
    rw [ok]

theorem inScopeCovers {α : Type} {R : α → α → Prop} {component : String} {x y : Read α}
    (inner : Covers R same x y) : Covers R same (inScope component x) (inScope component y) := by
  intro s t
  constructor
  · intro b ok
    obtain ⟨u, body, left⟩ := inScopeOk.mp ok
    obtain ⟨a, found, related, equal⟩ := (inner _ u).found b body
    exact ⟨a, inScopeOk.mpr ⟨u, found, left⟩, related, equal⟩
  · intro holds a ok
    obtain ⟨u, body, left⟩ := inScopeOk.mp ok
    exact inScopeOk.mpr ⟨u, (inner _ u).kept holds a body, left⟩

/- A component is read the same way if what its blocks come to is the same. -/
theorem blocksCover {component : String} {split joined : List Node}
    (views : (split.filter fun node => !isBlock node) = joined.filter fun node => !isBlock node)
    (blocks : Fits SameStyles same (Comes component {} split) (Comes component {} joined)) :
    Covers (fun x y => SameStyles x.2 y.2) same (readBody component {} split)
      (readBody component {} joined) := by
  intro s t
  constructor
  · rintro ⟨es, b⟩ ok
    obtain ⟨read, added⟩ := readBodyGives.mp ok
    obtain ⟨a, found, related, equal⟩ := blocks.found b (comesAll.mp added)
    refine ⟨(es, a), readBodyGives.mpr ⟨views ▸ read, comesAll.mpr found⟩, related, ?_⟩
    rw [Prod.mk.injEq, and_iff_right rfl, equal]
  · rintro holds ⟨es, b⟩ ok
    obtain ⟨read, added⟩ := readBodyGives.mp ok
    exact readBodyGives.mpr ⟨views ▸ read, comesAll.mpr (blocks.kept holds b (comesAll.mp added))⟩

theorem viewsCover {component : String} {split joined : List Node}
    (blocks : split.filter isBlock = joined.filter isBlock)
    (views : Covers (fun _ _ => True) same (readAll (split.filter fun node => !isBlock node))
      (readAll (joined.filter fun node => !isBlock node))) :
    Covers (fun x y => SameStyles x.2 y.2) same (readBody component {} split)
      (readBody component {} joined) := by
  intro s t
  constructor
  · rintro ⟨es, b⟩ ok
    obtain ⟨read, added⟩ := readBodyGives.mp ok
    obtain ⟨ds, found, -, equal⟩ := (views s t).found es read
    refine ⟨(ds, b), readBodyGives.mpr ⟨found, blocks ▸ added⟩, rfl, ?_⟩
    rw [Prod.mk.injEq, and_iff_left rfl, equal]
  · rintro holds ⟨es, b⟩ ok
    obtain ⟨read, added⟩ := readBodyGives.mp ok
    exact readBodyGives.mpr ⟨(views s t).kept holds es read, blocks ▸ added⟩

theorem readAllCovers {x y : Node} (here : Covers (fun _ _ => True) same (read x) (read y))
    (left right : List Node) :
    Covers (fun _ _ => True) same (readAll (left ++ x :: right)) (readAll (left ++ y :: right)) := by
  induction left with
  | nil =>
    rw [List.nil_append, List.nil_append, readAll, readAll]
    refine coversAfter here fun a b _ s t d ok => ?_
    obtain ⟨rest, u, others, last⟩ := Task.bindGives.mp ok
    cases last
    exact ⟨a :: rest, Task.bindGives.mpr ⟨rest, _, others, rfl⟩, trivial, by simp⟩
  | cons node left ih =>
    rw [List.cons_append, List.cons_append, readAll, readAll]
    exact coversSame fun first => coversPure ih fun a b _ => ⟨trivial, by simp⟩

theorem defineSame {typeName path : String} {isAnonymous : Bool} {root : Element}
    {es ds : List Element} {a b : Blocks} (styles : SameStyles a b) :
    define typeName path isAnonymous root es a = define typeName path isAnonymous root ds b ↔
      (es, a) = (ds, b) := by
  constructor
  · intro same
    obtain ⟨styles, _, _, _, _⟩ := a
    obtain ⟨_, _, _, _, _⟩ := b
    cases styles
    simp only [define, ComponentDefinition.mk.injEq, Element.mk.injEq, true_and, and_true] at same
    obtain ⟨rfl, rfl, rfl, rfl, rfl⟩ := same
    rfl
  · intro same
    cases same
    rfl

/- Elements whose tags and attributes are the same and that both have children. -/
theorem readCovers {split joined : Node} (name : split.name = joined.name)
    (attributes : split.attributes = joined.attributes) (parent : split.children ≠ [])
    (parent' : joined.children ≠ [])
    (component : Widget.ofTag? split.name = none →
      Covers (fun x y => SameStyles x.2 y.2) same (readBody split.name {} split.children)
        (readBody split.name {} joined.children))
    (widget : (Widget.ofTag? split.name).isSome = true →
      Covers (fun _ _ => True) same (readAll split.children) (readAll joined.children)) :
    Covers (fun _ _ => True) same (read split) (read joined) := by
  obtain ⟨tag, bindings, inner, text⟩ := split
  obtain ⟨_, _, inner', text'⟩ := joined
  dsimp only at name attributes parent parent' component widget
  subst name attributes
  rw [read, read]
  refine coversBefore (kindOfKeeps fun _ => trivial) fun kind _ known => ?_
  refine coversSame fun s => coversUnless (coversSame fun id => ?_)
  refine coversBefore (applyAttributesKeeps (fun _ _ _ => trivial) (fun _ _ => trivial) tag bindings
    (bare kind id)) fun e _ kept => ?_
  have told : e.kind.reference?.isSome = !(Widget.ofTag? tag).isSome := kept.1.trans known.1
  rw [if_neg (by simpa using parent), if_neg (by simpa using parent')]
  cases made : e.kind with
  | component r =>
    rw [made] at told
    have unknown : Widget.ofTag? tag = none := by simpa [ElementKind.reference?] using told
    refine coversPure (inScopeCovers (component unknown)) fun a b styles => ⟨trivial, ?_⟩
    simp [defineSame styles, Prod.ext_iff]
  | widget w =>
    rw [made] at told
    have known : (Widget.ofTag? tag).isSome = true := by
      simpa [ElementKind.reference?, Option.isSome_iff_ne_none] using told
    refine coversUnless ?_
    refine coversPure (widget known) fun a b _ => ⟨trivial, ?_⟩
    simp

/-- The second node is the first one with a block in place of two blocks of the same component. The
component is the node's own, or one that is defined in place among the views in the node. -/
inductive Joins (tag : String) (first second : Node) (after : List Node) : Node → Node → Prop where
  | here {split joined : Node} (component : Widget.ofTag? split.name = none)
      (name : split.name = joined.name) (attributes : split.attributes = joined.attributes)
      (join : Blocks.Joined tag first second after split.children joined.children) :
      Joins tag first second after split joined
  | inside {split joined x y : Node} {left right : List Node} (name : split.name = joined.name)
      (attributes : split.attributes = joined.attributes)
      (view : (Widget.ofTag? split.name).isSome = true ∨ isBlock x = false)
      (before : split.children = left ++ x :: right) (behind : joined.children = left ++ y :: right)
      (inner : Joins tag first second after x y) : Joins tag first second after split joined

section Joins

variable {tag : String} {first second : Node} {after : List Node}

theorem joinsName {split joined : Node} (joins : Joins tag first second after split joined) :
    split.name = joined.name := by
  cases joins with
  | here component name attributes join => exact name
  | inside name attributes view before behind inner => exact name

theorem joinedCover (listed : tag ∈ ["styles", "templates", "state", "navigationBar"])
    {split joined : List Node} (join : Blocks.Joined tag first second after split joined)
    (component : String) : Covers (fun x y => SameStyles x.2 y.2)
      (Blocks.Compatible tag first second after) (readBody component {} split)
      (readBody component {} joined) := by
  refine blocksCover (Blocks.keptFilter join ?_) (Blocks.comesFits listed join {})
  rintro node view rfl
  have block : isBlock node = true := by
    simp only [List.mem_cons, List.not_mem_nil, or_false] at listed
    rcases listed with named | named | named | named <;> simp [isBlock, Blocks.tags, named]
  rw [block] at view
  cases view

theorem innerCover {x y : Node} {left right : List Node} (name : x.name = y.name)
    (view : isBlock x = false) (inner : Covers (fun _ _ => True) same (read x) (read y))
    (component : String) : Covers (fun x y => SameStyles x.2 y.2) same
      (readBody component {} (left ++ x :: right)) (readBody component {} (left ++ y :: right)) := by
  have view' : isBlock y = false := by rwa [isBlock, ← name]
  refine viewsCover ?_ ?_
  · simp [view, view']
  · simp only [List.filter_append, List.filter_cons, view, view', Bool.not_false, if_true]
    exact readAllCovers inner _ _

theorem joinsCover (listed : tag ∈ ["styles", "templates", "state", "navigationBar"])
    {split joined : Node} (joins : Joins tag first second after split joined) :
    Covers (fun _ _ => True) (Blocks.Compatible tag first second after) (read split)
      (read joined) := by
  induction joins with
  | @here split joined component name attributes join =>
    obtain ⟨before, both, -, -, two, one⟩ := join.blocks
    refine readCovers name attributes ?_ ?_ (fun _ => joinedCover listed join _) fun widget => ?_
    · intro none
      simp [none] at two
    · intro none
      simp [none] at one
    · rw [component] at widget
      cases widget
  | inside name attributes view before behind inner ih =>
    refine readCovers name attributes (by simp [before]) (by simp [behind]) (fun component => ?_)
      fun _ => ?_
    · rw [before, behind]
      exact innerCover (joinsName inner) (view.resolve_left (by simp [component])) ih _
    · rw [before, behind]
      exact readAllCovers ih _ _

end Joins

end Element

namespace ComponentDefinition
open Element
open Blocks (Compatible)
open ViewForge.Task (Covers coversBefore coversSame coversPure)

theorem definesCover {split joined : Node} {same : Prop} (name : split.name = joined.name)
    (attributes : split.attributes = joined.attributes)
    (body : Widget.ofTag? split.name = none →
      Covers (fun x y => Blocks.SameStyles x.2 y.2) same (readBody split.name {} split.children)
        (readBody split.name {} joined.children)) :
    Covers (fun _ _ => True) same (read split) (read joined) := by
  unfold read
  rw [← name, ← attributes]
  by_cases refused : (!isAllowed split.name || (Widget.ofTag? split.name).isSome) = true
  · rw [if_pos refused, if_pos refused]
    have failed : Task.Triple (fun _ => True) (invalidName split.name : Read PUnit) (fun _ _ => False)
        fun _ => True := invalidNameFails fun _ => trivial
    exact coversBefore failed fun _ _ => False.elim
  · rw [if_neg refused, if_neg refused]
    have unknown : Widget.ofTag? split.name = none := by
      rw [Bool.or_eq_true, not_or] at refused
      simpa using refused.2
    refine coversSame fun u => inScopeCovers (coversSame fun root => coversSame fun root => ?_)
    exact coversPure (body unknown) fun a b styles => ⟨trivial, defineSame styles⟩

/- A block in place of two gives the definition that the two give exactly if they have no name in
common and, where the last block counts alone, nothing is in the first one or neither is the last. -/
theorem joinedBlocks {tag : String} {first second split joined : Node} {after : List Node}
    (listed : tag ∈ ["styles", "templates", "state", "navigationBar"])
    (joins : Joins tag first second after split joined) (s t : ReadState) :
    (∀ d, (read joined).outcome s = (.ok d, t) → ∃ other, (read split).outcome s = (.ok other, t)) ∧
    ∀ d, (read split).outcome s = (.ok d, t) →
      ((read joined).outcome s = (.ok d, t) ↔ Compatible tag first second after) := by
  have covers : Covers (fun _ _ => True) (Compatible tag first second after) (read split)
      (read joined) := by
    cases joins with
    | here component name attributes join =>
      exact definesCover name attributes fun _ => joinedCover listed join _
    | inside name attributes view before behind inner =>
      refine definesCover name attributes fun component => ?_
      rw [before, behind]
      exact innerCover (joinsName inner) (view.resolve_left (by simp [component]))
        (joinsCover listed inner) _
  obtain ⟨found, kept⟩ := covers s t
  refine ⟨fun d ok => ?_, fun d ok => ⟨fun joined => ?_, fun compatible => kept compatible d ok⟩⟩
  · obtain ⟨other, split, -⟩ := found d ok
    exact ⟨other, split⟩
  · obtain ⟨other, split, -, same⟩ := found d joined
    refine same.mp ?_
    rw [ok] at split
    cases split
    rfl

def blocksStart : ReadState := { platform := .iOS, path := "Card.ui.xml" }

def headStyles : Node where
  name := "styles"
  children := [⟨"LabelStyle", [("name", "head")], [], ""⟩]

def footStyles : Node where
  name := "styles"
  children := [⟨"LabelStyle", [("name", "foot")], [], ""⟩]

def apartBadge : Node where
  name := "Badge"
  children := [headStyles, ⟨"Label", [], [], ""⟩, footStyles]

def togetherBadge : Node where
  name := "Badge"
  children := [⟨"Label", [], [], ""⟩, ⟨"styles", [], headStyles.children ++ footStyles.children, ""⟩]

/- The styles stand in a badge that is defined in place, with a label between them. -/
theorem stylesTogether : ∃ d t,
    (read ⟨"Card", [], [apartBadge], ""⟩).outcome blocksStart = (.ok d, t) ∧
    (read ⟨"Card", [], [togetherBadge], ""⟩).outcome blocksStart = (.ok d, t) := by
  have badge : Joins "styles" headStyles footStyles [] apartBadge togetherBadge :=
    .here (by decide) rfl rfl ⟨⟨rfl, rfl⟩, ⟨[], _, rfl, rfl, rfl, rfl⟩, rfl⟩
  have joins : Joins "styles" headStyles footStyles [] ⟨"Card", [], [apartBadge], ""⟩
      ⟨"Card", [], [togetherBadge], ""⟩ :=
    .inside rfl rfl (.inr (by decide)) (List.nil_append _).symm (List.nil_append _).symm badge
  have succeeds : ((read ⟨"Card", [], [apartBadge], ""⟩).outcome blocksStart).1.isOk = true := by
    decide +kernel
  obtain ⟨d, t, ok⟩ := Result.okGives succeeds
  have compatible : Compatible "styles" headStyles footStyles [] :=
    show Blocks.NamesApart headStyles.children footStyles.children by decide
  exact ⟨d, t, ok, ((joinedBlocks (by decide) joins blocksStart t).2 d ok).mpr compatible⟩

def itemBlock (name : String) : Node where
  name := "state"
  children := [⟨"item", [("name", name), ("type", "Int")], [], ""⟩]

def apartItems : Node where
  name := "Card"
  children := [itemBlock "a", itemBlock "b"]

def togetherItems : Node where
  name := "Card"
  children := [⟨"state", [], (itemBlock "a").children ++ (itemBlock "b").children, ""⟩]

/- Of two blocks of state the former one is lost. -/
theorem itemLost : Joins "state" (itemBlock "a") (itemBlock "b") [] apartItems togetherItems ∧
    ((read apartItems).outcome blocksStart).1.map (·.state.items.map (·.name)) = .ok ["b"] ∧
    ((read togetherItems).outcome blocksStart).1.map (·.state.items.map (·.name)) =
      .ok ["a", "b"] := by
  refine ⟨.here (by decide) rfl rfl ⟨⟨rfl, rfl⟩, ⟨[], _, rfl, rfl, rfl, rfl⟩, rfl⟩, ?_, ?_⟩
  · decide +kernel
  · decide +kernel

end ComponentDefinition
end ViewForge
