import ViewForge.Proofs.Style.Flatten
import ViewForge.Source.Component

/-! Two projects that share some styles. What is flattened for a name, and what is generated from
it, depends on the styles that are found along the names and on nothing else in the project. -/
namespace ViewForge
open Code (Expr Decl)

open ViewForge.Task

def StyleGroup.bases (g : StyleGroup) : List StyleName := g.styles.flatMap (·.extend)

namespace StyleScope

/-- Both scopes find the same style by the name, in groups of one name, and everything that it
extends is shared as well. -/
inductive Shares (a b : StyleScope) :
    StyleName → Option StyleGroup → Option StyleGroup → Prop where
  | mk {name : StyleName} {here there : Option StyleGroup} {group other : StyleGroup}
      {style : Style} (left : a.lookup name here = .ok (group, style))
      (right : b.lookup name there = .ok (other, style)) (named : group.name = other.name)
      (bases : ∀ base ∈ style.extend, Shares a b base (some group) (some other)) :
      Shares a b name here there

variable {a b : StyleScope} {name : StyleName} {here there : Option StyleGroup}

/- A qualified name is looked up in one way from everywhere. -/
theorem sharesAnywhere {group style : String}
    (shares : Shares a b (.qualified group style) here there) (here' there' : Option StyleGroup) :
    Shares a b (.qualified group style) here' there' := by
  obtain ⟨left, right, named, bases⟩ := shares
  exact .mk left right named bases

theorem mergeBaseMeets {n m : Nat} {left right : List String} {e f : Entry} {base : StyleName}
    (flat : Meets Eq Eq (a.flattenFrom n (left ++ [qualifiedName e]) base (some e.1))
      (b.flattenFrom m (right ++ [qualifiedName f]) base (some f.1))) (merged : List Property) :
    Meets Eq Eq (a.mergeBase n left e merged base) (b.mergeBase m right f merged base) := by
  intro s t ps u qs v together one two
  obtain ⟨_, _, _, _, flattened, rfl⟩ := mergeBaseGives one
  obtain ⟨_, _, _, _, flattened', rfl⟩ := mergeBaseGives two
  obtain ⟨rfl, after⟩ := flat s t _ u _ v together flattened flattened'
  exact ⟨rfl, after⟩

/- One and the same style is flattened in both scopes: its bases are, and the caches agree on it. -/
theorem flattenFromMeets {n m : Nat} {left right : List String} {e f : Entry}
    (found : a.lookup name here = .ok e) (found' : b.lookup name there = .ok f)
    (named : e.1.name = f.1.name) (same : e.2 = f.2)
    (bases : ∀ base ∈ e.2.extend,
      Meets Eq Eq (a.flattenFrom n (left ++ [qualifiedName e]) base (some e.1))
        (b.flattenFrom m (right ++ [qualifiedName f]) base (some f.1))) :
    Meets Eq Eq (a.flattenFrom (n + 1) left name here)
      (b.flattenFrom (m + 1) right name there) := by
  have merged : Meets Eq Eq (e.2.extend.foldlM (a.mergeBase n left e) [])
      (e.2.extend.foldlM (b.mergeBase m right f) []) := by
    refine meetsFold (fun base member ps qs equal => ?_) rfl
    subst equal
    exact mergeBaseMeets (bases base member) ps
  rintro s _ ps u qs v rfl one two
  rw [flattenFromStep a n left found] at one
  rw [flattenFromStep b m right found', ← named, ← same] at two
  split at one
  · cases one
  · split at two
    · cases two
    · simp only [getBind] at one two
      cases known : s.lookup (e.1.name, e.2.name) with
      | some kept =>
        rw [known] at one two
        cases one
        cases two
        exact ⟨rfl, rfl⟩
      | none =>
        rw [known] at one two
        refine meetsBind merged (fun inherited _ equal => ?_) s s ps u qs v rfl one two
        subst equal
        rintro t _ _ _ _ _ rfl done done'
        cases done
        cases done'
        exact ⟨rfl, rfl⟩

/- However far the two searches may go, they meet where both arrive. -/
theorem sharesMeets (shares : Shares a b name here there) (n m : Nat) (left right : List String) :
    Meets Eq Eq (a.flattenFrom n left name here) (b.flattenFrom m right name there) := by
  induction shares generalizing n m left right with
  | mk found found' named bases ih =>
    match n, m with
    | 0, _ => exact meetsThrow _ _
    | n + 1, 0 => exact fun _ _ _ _ _ _ _ _ two => by cases two
    | n + 1, m + 1 =>
      exact flattenFromMeets found found' named rfl fun base member => ih base member _ _ _ _

structure Home (a b : StyleScope) (home : StyleGroup) : Prop where
  own : a.own = b.own
  only : ∀ g, a.own = some g → g = home
  bases : ∀ group style, .qualified group style ∈ home.bases →
    Shares a b (.qualified group style) none none

variable {home : StyleGroup} {current : Option StyleGroup}

theorem bareFound (only : ∀ g, a.own = some g → g = home)
    (inside : ∀ g, current = some g → g = home) {name : String} {n : Entry}
    (found : a.lookup (.inGroup name) current = .ok n) :
    n.1 = home ∧ n.2 ∈ home.styles := by
  obtain ⟨style, ⟨_, held⟩ | ⟨_, qualified, _⟩⟩ := lookupFound found
  · have same : n.1 = home := held.elim (inside n.1) (only n.1)
    exact ⟨same, same ▸ (StyleGroup.foundName style).2⟩
  · cases qualified

theorem bareSame (own : a.own = b.own) (name : String) :
    a.lookup (.inGroup name) current = b.lookup (.inGroup name) current := by
  simp only [lookup, own]

structure Fixed (a b : StyleScope) (name : StyleName) (current : Option StyleGroup) : Prop where
  style : ∀ n m, a.lookup name current = .ok n → b.lookup name current = .ok m → n.2 = m.2
  flat : Meets Eq Eq (a.flatten name current) (b.flatten name current)

theorem sharesFixed (shares : Shares a b name current current) : Fixed a b name current where
  style n m found found' := by
    obtain ⟨left, right, _, _⟩ := shares
    rw [left] at found
    rw [right] at found'
    cases found
    cases found'
    rfl
  flat := sharesMeets shares _ _ _ _

/- Bare names stay at home, so that what is shared has to be known of the others alone. -/
theorem homeMeets (at_home : Home a b home) (inside : ∀ g, current = some g → g = home)
    (named : ∀ group style, name = .qualified group style → Shares a b name none none) (n m : Nat)
    (left right : List String) :
    Meets Eq Eq (a.flattenFrom n left name current) (b.flattenFrom m right name current) := by
  induction n generalizing m left right name current with
  | zero => exact meetsThrow _ _
  | succ n ih =>
    cases name with
    | qualified group style =>
      exact sharesMeets (sharesAnywhere (named group style rfl) _ _) _ _ _ _
    | inGroup name =>
      match m with
      | 0 => exact fun _ _ _ _ _ _ _ _ two => by cases two
      | m + 1 =>
        cases found : a.lookup (.inGroup name) current with
        | error e =>
          rw [flattenFrom, found]
          exact meetsThrow _ _
        | ok e =>
          have found' := (bareSame at_home.own name).symm.trans found
          obtain ⟨same, listed⟩ := bareFound at_home.only inside found
          refine flattenFromMeets found found' rfl rfl fun base member => ?_
          refine ih (fun g here => Option.some.inj here ▸ same) (fun group style equal => ?_) m _ _
          subst equal
          exact at_home.bases group style (List.mem_flatMap.mpr ⟨e.2, listed, member⟩)

theorem homeFixed (at_home : Home a b home) (inside : ∀ g, current = some g → g = home)
    (named : ∀ group style, name = .qualified group style → Shares a b name none none) :
    Fixed a b name current where
  style n m found found' := by
    cases name with
    | qualified group style =>
      exact (sharesFixed (sharesAnywhere (named group style rfl) _ _)).style n m found found'
    | inGroup name =>
      rw [bareSame at_home.own, found'] at found
      cases found
      rfl
  flat := homeMeets at_home inside named _ _ _ _

theorem isThemedMeets (fixed : Fixed a b name current) :
    Meets Eq Eq (a.isThemed name current) (b.isThemed name current) :=
  meetsBind fixed.flat fun ps _ same => meetsPure (by rw [same])

theorem resolveMeets {e : Element} (fixed : ∀ name ∈ e.styles, Fixed a b name none) :
    Meets Eq Eq (a.resolve e) (b.resolve e) := by
  unfold resolve
  refine meetsBind (meetsFold (fun name member merged _ same => ?_) rfl) fun styled _ same =>
    meetsPure (by rw [same])
  subst same
  have known := fixed name member
  refine meetsBind (meetsLift (P := fun n m => n.2 = m.2) known.style) fun n m same => ?_
  simp only [same]
  split
  · exact meetsThrow _ _
  · exact meetsBind known.flat fun ps _ same => meetsPure (by rw [same])

end StyleScope

namespace StyleSource
open StyleScope

structure Beside (s t : StyleSource) : Prop where
  context : s.registry.renderContext = t.registry.renderContext
  configuration : s.configuration = t.configuration
  group : s.group = t.group
  typeName : s.typeName = t.typeName
  home : Home s.scope t.scope s.group

variable {s t : StyleSource}

theorem besideFixed (beside : Beside s t) {name : StyleName}
    (named : ∀ group style, name = .qualified group style → Shares s.scope t.scope name none none) :
    Fixed s.scope t.scope name (some s.group) :=
  homeFixed beside.home (fun _ here => (Option.some.inj here).symm) named

theorem referenceMeets (beside : Beside s t) {name : StyleName}
    (fixed : Fixed s.scope t.scope name (some s.group)) (theme : Expr) :
    Meets Eq Eq (s.reference theme name) (t.reference theme name) := by
  have owned : s.owner name = t.owner name := by
    cases name <;> simp only [owner, beside.typeName]
  unfold reference
  rw [← beside.group, ← owned]
  refine meetsBind (meetsLift (P := fun n m => n.2 = m.2) fixed.style) fun n m same => ?_
  simp only [same]
  refine meetsBind (isThemedMeets fixed) fun themed _ equal => ?_
  subst equal
  cases themed
  · exact meetsPure rfl
  · exact meetsPure rfl

theorem styleMeets (beside : Beside s t) {style : Style} (member : style ∈ s.group.styles) :
    Meets Eq Eq (s.style style) (t.style style) := by
  have own : Fixed s.scope t.scope (.inGroup style.name) (some s.group) :=
    besideFixed beside fun _ _ same => by cases same
  have bases : ∀ base ∈ style.extend, Fixed s.scope t.scope base (some s.group) :=
    fun base inside => besideFixed beside fun group name same => by
      subst same
      exact beside.home.bases group name (List.mem_flatMap.mpr ⟨style, member, inside⟩)
  unfold StyleSource.style
  rw [← beside.context, ← beside.configuration, ← beside.group]
  refine meetsBind (meetsLift (P := fun _ _ => True) fun _ _ _ _ => trivial) fun _ _ _ => ?_
  refine meetsBind (isThemedMeets own) fun themed _ equal => ?_
  subst equal
  refine meetsBind (meetsMap fun base inside => referenceMeets beside (bases base inside) _)
    fun written _ equal => ?_
  subst equal
  cases themed
  · exact meetsPure rfl
  · exact meetsPure rfl

theorem declSame (beside : Beside s t) {x y : Decl} (left : s.decl = .ok x)
    (right : t.decl = .ok y) : x = y := by
  have styles : Meets Eq Eq (s.group.styles.mapM s.style) (s.group.styles.mapM t.style) :=
    meetsMap fun style member => styleMeets beside member
  unfold decl at left right
  rw [← beside.group, ← beside.configuration, ← beside.typeName] at right
  obtain ⟨xs, one, last⟩ := Result.bindOk.mp left
  obtain ⟨ys, two, last'⟩ := Result.bindOk.mp right
  cases last
  cases last'
  rw [meetsOutcome styles one two]

theorem attributesSame (beside : Beside s t) {name : StyleName}
    (fixed : Fixed s.scope t.scope name (some s.group)) {x y : Expr}
    (left : Template.attributesCode s name = .ok x)
    (right : Template.attributesCode t name = .ok y) : x = y := by
  unfold Template.attributesCode at left right
  rw [← beside.group] at right
  obtain ⟨n, _, left⟩ := Result.bindOk.mp left
  obtain ⟨m, _, right⟩ := Result.bindOk.mp right
  simp only at left right
  split at left
  · cases left
  · split at right
    · cases right
    · exact meetsOutcome (referenceMeets beside fixed _) left right

theorem functionSame (beside : Beside s t) {template : Template}
    (fixed : ∀ name, template.style = some name →
      Fixed s.scope t.scope name (some s.group)) {f g : Code.Function}
    (left : template.function s = .ok f) (right : template.function t = .ok g) : f = g := by
  unfold Template.function at left right
  cases styled : template.style with
  | none =>
    rw [styled, ← beside.configuration] at right
    rw [styled] at left
    exact Except.ok.inj (left.symm.trans right)
  | some name =>
    simp only [styled] at left right
    obtain ⟨attributes, written, last⟩ := Result.bindOk.mp left
    obtain ⟨_, written', last'⟩ := Result.bindOk.mp right
    cases attributesSame beside (fixed name styled) written written'
    rw [← beside.configuration] at last'
    exact Except.ok.inj (last.symm.trans last')

theorem functionsSame (beside : Beside s t) {templates : List Template}
    (fixed : ∀ x ∈ templates, ∀ name, x.style = some name →
      Fixed s.scope t.scope name (some s.group)) {xs ys : List Decl}
    (left : Template.functions s templates = .ok xs)
    (right : Template.functions t templates = .ok ys) : xs = ys := by
  induction templates generalizing xs ys with
  | nil =>
    cases left
    cases right
    rfl
  | cons template rest ih =>
    obtain ⟨own, others⟩ := List.forall_mem_cons.mp fixed
    rw [Template.functions] at left right
    obtain ⟨f, one, left⟩ := Result.bindOk.mp left
    obtain ⟨fs, more, last⟩ := Result.bindOk.mp left
    obtain ⟨g, two, right⟩ := Result.bindOk.mp right
    obtain ⟨gs, more', last'⟩ := Result.bindOk.mp right
    cases last
    cases last'
    rw [functionSame beside own one two, ih others more more']

end StyleSource
end ViewForge
