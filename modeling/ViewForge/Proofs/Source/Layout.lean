import ViewForge.Proofs.Number.Literal
import ViewForge.Proofs.Source.Bodies

/-! What the layout methods of a class install, read from their code alone: views by the names of
the elements, numbers by their numerals, and conditions by what the trait helper answers. The plan
of a component is read back as the constraints of its elements. -/
namespace ViewForge
open Code (Expr Stmt Decl)

inductive Surface where
  | element (id : String)
  | safeArea (id : String)
  deriving DecidableEq, Repr

inductive Bound where
  | surface (surface : Surface) (anchor : Option Anchor)
  | constant (value : Float)
  deriving DecidableEq, Repr

structure Installed where
  element : String
  anchor : Anchor
  relation : Relation
  target : Bound
  modifiers : List ConstraintModifier
  priority : Nat
  deriving DecidableEq, Repr

inductive Answer where
  | flag (value : Bool)
  | name (value : String)
  | number (value : Float)
  deriving DecidableEq, Repr

namespace Answer

def combine : String → Answer → Answer → Option Answer
  | "&&", flag a, flag b => some (flag (a && b))
  | "||", flag a, flag b => some (flag (a || b))
  | "==", name a, name b => some (flag (a == b))
  | "!=", name a, name b => some (flag (a != b))
  | symbol, number x, number y => (Comparison.ofSymbol? symbol).map fun c => flag (c.holds x y)
  | _, _, _ => none

def negate : Answer → Option Answer
  | flag value => some (flag !value)
  | _ => none

end Answer

namespace Traits

def property? (traits : Traits) : String → Option Answer
  | "userInterfaceStyle" => some (.name traits.style.name)
  | "horizontalSizeClass" => some (.name traits.horizontal.name)
  | "verticalSizeClass" => some (.name traits.vertical.name)
  | _ => none

def method? (traits : Traits) : String → String → Option Answer
  | "device", name => some (.flag (traits.idiom.name == name))
  | "orientation", name => some (.flag (traits.orientation.name == name))
  | "viewRootSize", "width" => some (.number traits.width)
  | "viewRootSize", "height" => some (.number traits.height)
  | _, _ => none

def literal? (text : String) : Option Answer :=
  match Number.numeral? text with
  | some x => some (.number x)
  | none => if text = "true" then some (.flag true)
    else if text = "false" then some (.flag false) else none

def answer? (traits : Traits) : Expr → Option Answer
  | .constant text => literal? text
  | .implicitMember name => some (.name name)
  | .member (.identifier "traits") property => traits.property? property
  | .call (.member (.identifier "traits") method) [.mk none (.implicitMember name)] =>
    traits.method? method name
  | .not inner => (traits.answer? inner).bind Answer.negate
  | .binary lhs symbol rhs =>
    match traits.answer? lhs, traits.answer? rhs with
    | some a, some b => Answer.combine symbol a b
    | _, _ => none
  | _ => none

end Traits

namespace Code.Expr

/-- The view that an expression names. What the class declares goes before what it inherits. -/
def surface? (d : ComponentDefinition) : Expr → Option Surface
  | .identifier "self" => some (.element Element.rootName)
  | .member (.identifier "self") name =>
    if (d.find? name).isSome then some (.element name)
    else if name = "safeAreaLayoutGuide" then some (.safeArea Element.rootName) else none
  | .member (.member (.identifier "self") name) "safeAreaLayoutGuide" =>
    if (d.find? name).isSome then some (.safeArea name) else none
  | _ => none

def target? (d : ComponentDefinition) : Expr → Option Bound
  | .constant text => (Number.numeral? text).map .constant
  | .member (.member view "snp") name =>
    match Anchor.ofName? name with
    | some anchor => (view.surface? d).map (.surface · (some anchor))
    | none => (surface? d (.member (.member view "snp") name)).map (.surface · none)
  | e => (e.surface? d).map (.surface · none)

end Code.Expr

def Relation.ofMethod? (method : String) : Option Relation :=
  [Relation.equal, .greaterOrEqual, .lessOrEqual].find? (·.method == method)

def ConstraintModifier.ofMethod? (method : String) (x : Float) : Option ConstraintModifier :=
  match method with
  | "offset" => some (.offset x)
  | "inset" => some (.inset x)
  | "multipliedBy" => some (.multipliedBy x)
  | "dividedBy" => some (.dividedBy x)
  | _ => none

def Installed.refine? (made : Installed) (method text : String) : Option Installed :=
  if method = "priority" then
    (Number.readNat? text).map fun priority => { made with priority }
  else
    ((Number.numeral? text).bind (ConstraintModifier.ofMethod? method)).map fun modifier =>
      { made with modifiers := made.modifiers ++ [modifier] }

namespace Code

def Expr.made? (d : ComponentDefinition) (element : String) : Expr → Option Installed
  | .call (.member (.member (.identifier "make") name) method) [.mk none target] => do
    let anchor ← Anchor.ofName? name
    let relation ← Relation.ofMethod? method
    let target ← target.target? d
    return { element, anchor, relation, target, modifiers := [], priority := Priority.required }
  | .call (.member inner method) [.mk none (.constant text)] =>
    (inner.made? d element).bind (·.refine? method text)
  | _ => none

namespace Stmt

def makes (d : ComponentDefinition) (element : String) : Stmt → List Installed
  | .expr e => (e.made? d element).toList
  | .assign _ (.member e "constraint") => (e.made? d element).toList
  | .declare _ _ _ (some (.member e "constraint")) => (e.made? d element).toList
  | _ => []

def makesWhen (d : ComponentDefinition) (traits : Traits) (element : String) :
    Stmt → List Installed
  | .ifThen condition body =>
    if traits.answer? condition = some (.flag true) then body.flatMap (makes d element) else []
  | s => s.makes d element

def installs (d : ComponentDefinition) (traits : Traits) : Stmt → List Installed
  | .expr (.call (.member (.member view "snp") method) [.mk none (.closure _ _ body)]) =>
    match view.surface? d with
    | some (.element id) =>
      if method = "makeConstraints" ∨ method = "prepareConstraints" then
        body.flatMap (makesWhen d traits id)
      else []
    | _ => []
  | _ => []

end Stmt

def Decl.installs (d : ComponentDefinition) (traits : Traits) : Decl → List Installed
  | .function f => f.body.flatMap (Stmt.installs d traits)
  | _ => []

end Code

def LayoutPlan.installs (plan : LayoutPlan) (d : ComponentDefinition) (traits : Traits) :
    List Installed :=
  plan.methods.flatMap (Decl.installs d traits)

theorem Anchor.ofNameName (a : Anchor) : Anchor.ofName? a.name = some a := by
  cases a <;> rfl

theorem Relation.ofMethodMethod (r : Relation) : Relation.ofMethod? r.method = some r := by
  cases r <;> rfl

theorem Comparison.holdsPlain (c : Comparison) (x y : Float) :
    c.holds x (Number.plain y) = c.holds x y := by
  obtain ⟨right, left⟩ := Number.comparePlain x y
  cases c with
  | equal =>
    change (x.toModel.unpack.compare _ == _) = (x.toModel.unpack.compare _ == _)
    rw [right]
  | notEqual =>
    change (!(x.toModel.unpack.compare _ == _)) = (!(x.toModel.unpack.compare _ == _))
    rw [right]
  | less => exact decide_eq_decide.mpr (by rw [Number.ltCompare, Number.ltCompare, right])
  | lessOrEqual => exact decide_eq_decide.mpr (by rw [Number.leCompare, Number.leCompare, right])
  | greater => exact decide_eq_decide.mpr (by rw [Number.ltCompare, Number.ltCompare, left])
  | greaterOrEqual => exact decide_eq_decide.mpr (by rw [Number.leCompare, Number.leCompare, left])

namespace Answer

theorem combineNumbers (c : Comparison) (x y : Float) :
    combine c.symbol (number x) (number y) = some (flag (c.holds x y)) := by
  cases c <;> rfl

theorem combineNames (equal : Bool) (a b : String) :
    combine (if equal then "==" else "!=") (name a) (name b) = some (flag ((a == b) == equal)) := by
  cases equal with
  | true => cases same : a == b <;> simp [combine, same]
  | false => cases same : a == b <;> simp [combine, bne, same]

end Answer

theorem Traits.numberAnswer (traits : Traits) (x : Float) :
    traits.answer? (.number x) = some (.number (Number.plain x)) := by
  rw [Expr.number, Traits.answer?, Traits.literal?, Number.numeralLiteral]

theorem SizeClass.nameSame (a b : SizeClass) : (a.name == b.name) = (a == b) := by
  cases a <;> cases b <;> rfl

namespace Condition

/- The emitted condition is true exactly when the condition holds. -/
theorem codeAnswer (traits : Traits) (c : Condition) :
    traits.answer? (c.code "traits") = some (.flag (c.evaluate traits)) := by
  induction c with
  | bool value =>
    have known : Traits.literal? "true" = some (.flag true) ∧
        Traits.literal? "false" = some (.flag false) := by decide +kernel
    cases value with
    | true => exact known.1
    | false => exact known.2
  | idiom i =>
    change some (Answer.flag (traits.idiom.name == i.name)) = _
    rw [evaluate]
    cases traits.idiom <;> cases i <;> rfl
  | orientation o =>
    change some (Answer.flag (traits.orientation.name == o.name)) = _
    rw [evaluate]
    cases traits.orientation <;> cases o <;> rfl
  | style s =>
    change some (Answer.flag (traits.style.name == s.name)) = _
    rw [evaluate]
    cases traits.style <;> cases s <;> rfl
  | sizeClass axis equal c =>
    cases axis with
    | horizontal =>
      change Answer.combine _ (.name traits.horizontal.name) (.name c.name) = _
      rw [Answer.combineNames, SizeClass.nameSame]
      rfl
    | vertical =>
      change Answer.combine _ (.name traits.vertical.name) (.name c.name) = _
      rw [Answer.combineNames, SizeClass.nameSame]
      rfl
  | rootSize extent comparison value =>
    rw [code, Traits.answer?, Traits.numberAnswer]
    cases extent with
    | width =>
      change Answer.combine _ (.number traits.width) _ = _
      rw [Answer.combineNumbers, Comparison.holdsPlain]
      rfl
    | height =>
      change Answer.combine _ (.number traits.height) _ = _
      rw [Answer.combineNumbers, Comparison.holdsPlain]
      rfl
  | not inner ih =>
    rw [code, Traits.answer?, ih]
    rfl
  | and lhs rhs left right =>
    rw [code, Traits.answer?, left, right]
    rfl
  | or lhs rhs left right =>
    rw [code, Traits.answer?, left, right]
    rfl

end Condition

def ConstraintModifier.plain : ConstraintModifier → ConstraintModifier
  | .offset value => .offset (Number.plain value)
  | .inset value => .inset (Number.plain value)
  | .multipliedBy factor => .multipliedBy (Number.plain factor)
  | .dividedBy divisor => .dividedBy (Number.plain divisor)

namespace Constraint

def bound (c : Constraint) (element parent : Element) : Bound :=
  match c.target with
  | .parent => .surface (.element parent.id.name) c.targetAnchor
  | .this => .surface (.element element.id.name) c.targetAnchor
  | .safeArea => .surface (.safeArea parent.id.name) c.targetAnchor
  | .field id => .surface (.element id) c.targetAnchor
  | .constant value => .constant (Number.plain value)

def installed (c : Constraint) (element parent : Element) : Installed :=
  { element := element.id.name, anchor := c.anchor, relation := c.relation,
    target := c.bound element parent, modifiers := c.modifiers.map ConstraintModifier.plain,
    priority := c.priority }

end Constraint

section
variable {d : ComponentDefinition}

theorem surfaceCode {id : String} (known : (d.find? id).isSome = true) :
    (elementCode "self" id).surface? d = some (.element id) := by
  unfold elementCode
  split
  · rename_i root
    rw [root]
    rfl
  · rw [Expr.surface?, if_pos known]

theorem safeAreaCode (free : d.find? "safeAreaLayoutGuide" = none) {id : String}
    (known : (d.find? id).isSome = true) :
    ((elementCode "self" id).member "safeAreaLayoutGuide").surface? d = some (.safeArea id) := by
  unfold elementCode
  split
  · rename_i root
    rw [root, Expr.surface?, free]
    rfl
  · rw [Expr.surface?, if_pos known]

/- Without an anchor a view is not taken for an anchor of another one: none has the name of the safe
area. -/
theorem targetCode {e : Expr} {surface : Surface} (named : e.surface? d = some surface)
    (anchor : Option Anchor) :
    (match anchor with | some a => e.path ["snp", a.name] | none => e).target? d =
      some (.surface surface anchor) := by
  cases anchor with
  | some a =>
    change (match Anchor.ofName? a.name with | some anchor => _ | none => _) = _
    rw [Anchor.ofNameName, named]
    rfl
  | none =>
    change e.target? d = _
    unfold Expr.target?
    split
    · cases named
    · rename_i view name
      split
      · rename_i anchor found
        unfold Expr.surface? at named
        split at named
        · rename_i same
          cases same
        · rename_i same
          cases same
        · rename_i same
          cases same
          cases found
        · cases named
      · rw [named]
        rfl
    · rw [named]
      rfl

/- All that a constraint refers to is there, and no element is called like the safe area. -/
theorem targetReads (free : d.find? "safeAreaLayoutGuide" = none) {element parent : Element}
    (here : (d.find? element.id.name).isSome = true)
    (above : (d.find? parent.id.name).isSome = true) {c : Constraint}
    (refers : ∀ id, c.reference? = some id → (d.find? id).isSome = true) :
    (c.targetCode element parent).target? d = some (c.bound element parent) := by
  unfold Constraint.targetCode Constraint.targetView Constraint.bound
  cases target : c.target with
  | parent => exact targetCode (surfaceCode above) c.targetAnchor
  | this => exact targetCode (surfaceCode here) c.targetAnchor
  | safeArea => exact targetCode (safeAreaCode free above) c.targetAnchor
  | field id =>
    have found := refers id (by rw [Constraint.reference?, target])
    exact targetCode (surfaceCode found) c.targetAnchor
  | constant value =>
    have reads : (Expr.number value).target? d = some (.constant (Number.plain value)) := by
      rw [Expr.number, Expr.target?, Number.numeralLiteral]
      rfl
    cases c.targetAnchor with
    | none => exact reads
    | some anchor => exact reads

theorem invokedReads {element : String} {target : Expr} {arguments : List Code.Argument}
    {made : Installed} (reads : (Expr.call target arguments).made? d element = some made)
    (method text : String) :
    ((Expr.call target arguments).invoke method [(none, .constant text)]).made? d element =
      made.refine? method text := by
  change ((Expr.call target arguments).made? d element).bind _ = _
  rw [reads]
  rfl

theorem refineReads (made : Installed) {method : String} (other : method ≠ "priority") {x : Float}
    {m : ConstraintModifier}
    (named : ConstraintModifier.ofMethod? method (Number.plain x) = some m) :
    made.refine? method (Number.literal x) =
      some { made with modifiers := made.modifiers ++ [m] } := by
  rw [Installed.refine?, if_neg other, Number.numeralLiteral, Option.bind_some, named]
  rfl

theorem modifierReads {element : String} {target : Expr} {arguments : List Code.Argument}
    {made : Installed} (reads : (Expr.call target arguments).made? d element = some made)
    (m : ConstraintModifier) :
    (Constraint.modifierCode (.call target arguments) m).made? d element =
      some { made with modifiers := made.modifiers ++ [m.plain] } := by
  cases m with
  | offset value => exact (invokedReads reads _ _).trans (refineReads made (by decide) rfl)
  | inset value => exact (invokedReads reads _ _).trans (refineReads made (by decide) rfl)
  | multipliedBy factor => exact (invokedReads reads _ _).trans (refineReads made (by decide) rfl)
  | dividedBy divisor => exact (invokedReads reads _ _).trans (refineReads made (by decide) rfl)

theorem modifiersRead {element : String} (ms : List ConstraintModifier) {target : Expr}
    {arguments : List Code.Argument} {made : Installed}
    (reads : (Expr.call target arguments).made? d element = some made) :
    ∃ outer given, ms.foldl Constraint.modifierCode (.call target arguments) = .call outer given ∧
      (Expr.call outer given).made? d element =
        some { made with modifiers := made.modifiers ++ ms.map ConstraintModifier.plain } := by
  induction ms generalizing target arguments made with
  | nil => exact ⟨target, arguments, rfl, by simpa using reads⟩
  | cons m rest ih =>
    have called : ∃ outer given,
        Constraint.modifierCode (.call target arguments) m = .call outer given := by
      cases m <;> exact ⟨_, _, rfl⟩
    obtain ⟨outer, given, same⟩ := called
    have step := modifierReads reads m
    rw [same] at step
    rw [List.foldl_cons, same]
    simpa using ih step

theorem codeReads (free : d.find? "safeAreaLayoutGuide" = none) {element parent : Element}
    (here : (d.find? element.id.name).isSome = true)
    (above : (d.find? parent.id.name).isSome = true) {c : Constraint}
    (refers : ∀ id, c.reference? = some id → (d.find? id).isSome = true) :
    (c.code element parent).made? d element.id.name = some (c.installed element parent) := by
  have bare : (Expr.call (((Expr.identifier "make").member c.anchor.name).member c.relation.method)
      [.mk none (c.targetCode element parent)]).made? d element.id.name =
        some { c.installed element parent with
          modifiers := [], priority := Priority.required } := by
    rw [Expr.made?, Anchor.ofNameName, Relation.ofMethodMethod, targetReads free here above refers]
    rfl
  obtain ⟨outer, given, same, reads⟩ := modifiersRead c.modifiers bare
  unfold Constraint.code
  simp only
  rw [Expr.invoke, Expr.apply, List.map_singleton, same]
  split
  · rename_i required
    rw [reads, ← required]
    rfl
  · rw [invokedReads reads, Installed.refine?, if_pos rfl, Number.readNatWritten]
    rfl

def Constraint.active (traits : Traits) (c : Constraint) : Bool :=
  c.condition.all (·.evaluate traits)

theorem groupReads {g : ConstraintGroup} (here : (d.find? g.element.id.name).isSome = true)
    {method : String} (known : method = "makeConstraints" ∨ method = "prepareConstraints")
    (body : List Stmt) (traits : Traits) :
    (LayoutPlan.groupCode method g body).installs d traits =
      body.flatMap (Stmt.makesWhen d traits g.element.id.name) := by
  change (match (elementCode "self" g.element.id.name).surface? d with
    | some (.element id) => _
    | _ => _) = _
  rw [surfaceCode here]
  exact if_pos known

theorem installedReads {g : ConstraintGroup} {c : Constraint} {made : Installed}
    (reads : (c.code g.element g.parent).made? d g.element.id.name = some made) (traits : Traits) :
    (LayoutPlan.installedCode g c).makesWhen d traits g.element.id.name = [made] := by
  unfold LayoutPlan.installedCode
  cases c.field with
  | some field =>
    change ((c.code g.element g.parent).made? d g.element.id.name).toList = _
    rw [reads]
    rfl
  | none =>
    change ((c.code g.element g.parent).made? d g.element.id.name).toList = _
    rw [reads]
    rfl

theorem reactiveReads {g : ConstraintGroup} {c : Constraint} {made : Installed}
    (reads : (c.code g.element g.parent).made? d g.element.id.name = some made)
    (conditional : c.isConditional = true) (traits : Traits) :
    (LayoutPlan.reactiveCode g c).flatMap (Stmt.makesWhen d traits g.element.id.name) =
      if c.active traits = true then [made] else [] := by
  obtain ⟨condition, given⟩ := Option.isSome_iff_exists.mp conditional
  unfold LayoutPlan.reactiveCode Constraint.active
  rw [given]
  simp only [List.flatMap_singleton, Option.all_some]
  unfold Stmt.makesWhen
  simp only [Condition.codeAnswer, Option.some.injEq, Answer.flag.injEq]
  congr 1
  cases c.field with
  | some field =>
    change ((c.code g.element g.parent).made? d g.element.id.name).toList ++ _ = _
    rw [reads]
    rfl
  | none =>
    change ((c.code g.element g.parent).made? d g.element.id.name).toList ++ _ = _
    rw [reads]
    rfl

end

namespace LayoutPlan

def effective (d : ComponentDefinition) (chosen : Constraint → Bool) : List Installed :=
  d.root.withParents.flatMap fun
    | (_, none) => []
    | (element, some parent) => (element.layout.filter chosen).map (·.installed element parent)

theorem groupsEffective (d : ComponentDefinition) (keep chosen : Constraint → Bool) :
    (groups d keep).flatMap (fun g =>
      (g.constraints.filter chosen).map (·.installed g.element g.parent)) =
        effective d fun c => chosen c && keep c := by
  rw [groups, List.filterMap_eq_flatMap_toList, List.flatMap_assoc, effective]
  refine List.flatMap_congr fun parented _ => ?_
  obtain ⟨element, parent⟩ := parented
  cases parent with
  | none => rfl
  | some parent =>
    simp only
    split
    · rename_i none
      rw [← List.filter_filter, List.isEmpty_iff.mp none]
      rfl
    · simp [List.filter_filter]

variable {d : ComponentDefinition} {plan : LayoutPlan}

theorem planGroups {s t : ResolverState} (planned : (ofDefinition d).outcome s = (.ok plan, t)) :
    plan.installed = groups d (!·.isConditional) ∧ plan.reactive = groups d (·.isConditional) ∧
      checkTargets d (constraints d) = .ok () := by
  unfold ofDefinition at planned
  obtain ⟨_, u, _, planned⟩ := Task.bindGives.mp planned
  obtain ⟨_, checked, planned⟩ := Task.liftBindGives planned
  obtain ⟨_, _, last⟩ := Task.liftBindGives planned
  cases last
  exact ⟨rfl, rfl, checked⟩

theorem elementFound {e : Element} (member : e ∈ d.elements) : (d.find? e.id.name).isSome = true :=
  List.find?_isSome.mpr ⟨e, member, beq_self_eq_true _⟩

theorem groupCodeReads (free : d.find? "safeAreaLayoutGuide" = none)
    (checked : checkTargets d (constraints d) = .ok ()) {keep : Constraint → Bool}
    {g : ConstraintGroup} (member : g ∈ groups d keep) {c : Constraint}
    (inside : c ∈ g.constraints) :
    (c.code g.element g.parent).made? d g.element.id.name =
      some (c.installed g.element g.parent) := by
  obtain ⟨here, above, listed⟩ := groupWithin member
  exact codeReads free (elementFound here) (elementFound above)
    (checkTargetsFound checked c (listed c inside))

theorem groupKept {keep : Constraint → Bool} {g : ConstraintGroup} (member : g ∈ groups d keep) :
    ∀ c ∈ g.constraints, keep c = true := by
  obtain ⟨⟨element, parent⟩, _, made⟩ := List.mem_filterMap.mp member
  cases parent with
  | none => cases made
  | some parent =>
    simp only at made
    split at made
    · cases made
    · cases made
      exact fun c inside => (List.mem_filter.mp inside).2

/- Each constraint of a group has code of its own, which makes it if it is chosen. -/
theorem groupsRead {keep chosen : Constraint → Bool} {method : String}
    (known : method = "makeConstraints" ∨ method = "prepareConstraints")
    {code : ConstraintGroup → Constraint → List Stmt} {traits : Traits}
    (each : ∀ g ∈ groups d keep, ∀ c ∈ g.constraints,
      (code g c).flatMap (Stmt.makesWhen d traits g.element.id.name) =
        if chosen c = true then [c.installed g.element g.parent] else []) :
    ((groups d keep).map fun g => groupCode method g (g.constraints.flatMap (code g))).flatMap
      (Stmt.installs d traits) = effective d fun c => chosen c && keep c := by
  rw [← groupsEffective, List.flatMap_map]
  refine List.flatMap_congr fun g member => ?_
  rw [groupReads (elementFound (groupWithin member).1) known, List.flatMap_assoc,
    List.flatMap_congr (each g member), ← List.filterMap_eq_map, List.filterMap_filter,
    List.filterMap_eq_flatMap_toList]
  refine List.flatMap_congr fun c _ => ?_
  split <;> rfl

theorem setupReads (free : d.find? "safeAreaLayoutGuide" = none) {s t : ResolverState}
    (planned : (ofDefinition d).outcome s = (.ok plan, t)) (traits : Traits) :
    plan.setup.body.flatMap (Stmt.installs d traits) = effective d (!·.isConditional) := by
  obtain ⟨installed, _, checked⟩ := planGroups planned
  have last : (if plan.isReactive then [remake] else []).flatMap (Stmt.installs d traits) = [] := by
    split <;> rfl
  have made : ((groups d (!·.isConditional)).map fun g => groupCode "makeConstraints" g
      (g.constraints.flatMap fun c => [installedCode g c])).flatMap (Stmt.installs d traits) =
        effective d fun c => true && !c.isConditional :=
    groupsRead (.inl rfl) fun g member c inside => by
      rw [List.flatMap_singleton, if_pos rfl]
      exact installedReads (groupCodeReads free checked member inside) traits
  simp only [← List.map_eq_flatMap, Bool.true_and] at made
  rw [setup, List.flatMap_append, last, List.append_nil, installed]
  exact made

theorem remakeReads (free : d.find? "safeAreaLayoutGuide" = none) {s t : ResolverState}
    (planned : (ofDefinition d).outcome s = (.ok plan, t)) (traits : Traits) :
    plan.remakeReactive.body.flatMap (Stmt.installs d traits) =
      effective d (fun c => c.active traits && c.isConditional) := by
  obtain ⟨_, reactive, checked⟩ := planGroups planned
  have resets : plan.resets.flatMap (Stmt.installs d traits) = [] := by
    rw [resets, List.flatMap_map]
    exact List.flatMap_eq_nil_iff.mpr fun _ _ => rfl
  rw [remakeReactive]
  simp only [List.flatMap_append, resets, reactive]
  rw [groupsRead (.inr rfl) fun g member c inside =>
    reactiveReads (groupCodeReads free checked member inside) (groupKept member c inside) traits]
  exact List.append_nil _

theorem installsPlanned (free : d.find? "safeAreaLayoutGuide" = none) {s t : ResolverState}
    (planned : (ofDefinition d).outcome s = (.ok plan, t)) (traits : Traits) :
    plan.installs d traits = effective d (!·.isConditional) ++
      effective d (fun c => c.active traits && c.isConditional) := by
  unfold installs methods
  rw [List.flatMap_cons, Decl.installs, setupReads free planned]
  split
  · rw [← remakeReads free planned traits]
    exact congrArg _ (List.append_nil _)
  · rename_i none
    have empty : plan.reactive = [] := by simpa [isReactive] using none
    rw [← groupsEffective, ← (planGroups planned).2.1, empty]
    rfl

/- A constraint without a condition is always active. -/
theorem installsActive (free : d.find? "safeAreaLayoutGuide" = none) {s t : ResolverState}
    (planned : (ofDefinition d).outcome s = (.ok plan, t)) (traits : Traits) :
    (plan.installs d traits).Perm (effective d (·.active traits)) := by
  rw [installsPlanned free planned]
  refine (List.flatMap_append_perm _ _ _).trans (List.Perm.flatMap_left _ fun parented _ => ?_)
  obtain ⟨element, parent⟩ := parented
  cases parent with
  | none => exact .refl _
  | some parent =>
    have always : (fun c : Constraint => !c.isConditional && c.active traits) =
        fun c => !c.isConditional := by
      funext c
      unfold Constraint.isConditional Constraint.active
      cases c.condition <;> rfl
    have swapped : (fun c : Constraint => !!c.isConditional && c.active traits) =
        fun c => c.active traits && c.isConditional := by
      funext c
      rw [Bool.not_not, Bool.and_comm]
    have split := List.filter_append_perm (fun c => !c.isConditional)
      (element.layout.filter (·.active traits))
    rw [List.filter_filter, List.filter_filter, always, swapped] at split
    rw [← List.map_append]
    exact split.map _

end LayoutPlan
end ViewForge
