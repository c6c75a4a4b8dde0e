import ViewForge.Code.Basic

/-! The trails of generated code. A trail is a variable with the members that are taken of it one
after the other, as far as they go without a call; what is taken of the result of a call belongs to
no variable, and code that comes as a text has no trails. -/
namespace ViewForge.Code

abbrev Trail := List String

/- The members that are taken of the expression from outside are handed in. -/
mutual

def Expr.trails (after : List String) : Expr → List Trail
  | .constant _ | .implicitMember _ => []
  | .identifier name => [name :: after]
  | .member target name => target.trails (name :: after)
  | .call target arguments => target.trails [] ++ Argument.allTrails arguments
  | .binary lhs _ rhs => lhs.trails [] ++ rhs.trails []
  | .not inner => inner.trails []
  | .closure _ _ body => Stmt.allTrails body
  | .array items => Expr.allTrails items
  | .dictionary entries => Entry.allTrails entries

def Expr.allTrails : List Expr → List Trail
  | [] => []
  | e :: rest => e.trails [] ++ Expr.allTrails rest

def Argument.allTrails : List Argument → List Trail
  | [] => []
  | ⟨_, value⟩ :: rest => value.trails [] ++ Argument.allTrails rest

def Entry.allTrails : List Entry → List Trail
  | [] => []
  | ⟨key, value⟩ :: rest => key.trails [] ++ value.trails [] ++ Entry.allTrails rest

def Stmt.trails : Stmt → List Trail
  | .expr e => e.trails []
  | .assign target value => target.trails [] ++ value.trails []
  | .declare _ _ _ (some value) | .ret (some value) => value.trails []
  | .declare _ _ _ none | .ret none | .comment _ | .blank => []
  | .ifThen condition body | .guard condition body => condition.trails [] ++ Stmt.allTrails body
  | .ifElse condition body otherwise =>
    condition.trails [] ++ Stmt.allTrails body ++ Stmt.allTrails otherwise
  | .switch subject cases => subject.trails [] ++ Case.allTrails cases

def Stmt.allTrails : List Stmt → List Trail
  | [] => []
  | s :: rest => s.trails ++ Stmt.allTrails rest

def Case.allTrails : List Case → List Trail
  | [] => []
  | .on patterns body :: rest =>
    Expr.allTrails patterns ++ Stmt.allTrails body ++ Case.allTrails rest
  | .default body :: rest => Stmt.allTrails body ++ Case.allTrails rest

end

def Function.trails (f : Function) : List Trail :=
  f.parameters.flatMap (fun p => p.default.toList.flatMap (·.trails [])) ++ Stmt.allTrails f.body

def Property.trails (p : Property) : List Trail :=
  p.value.toList.flatMap (·.trails []) ++ p.didSet.toList.flatMap Stmt.allTrails ++
    p.getter.toList.flatMap Stmt.allTrails

mutual

def Decl.trails : Decl → List Trail
  | .type _ _ _ _ _ members | .enumeration _ _ _ _ members => Decl.allTrails members
  | .function f => f.trails
  | .property p => p.trails
  | .comment _ => []

def Decl.allTrails : List Decl → List Trail
  | [] => []
  | d :: rest => d.trails ++ Decl.allTrails rest

end

@[simp] theorem Expr.allTrailsFlat (es : List Expr) :
    Expr.allTrails es = es.flatMap (·.trails []) := by
  induction es with
  | nil => rw [Expr.allTrails, List.flatMap_nil]
  | cons e rest ih => rw [Expr.allTrails, List.flatMap_cons, ih]

@[simp] theorem Stmt.allTrailsFlat (ss : List Stmt) :
    Stmt.allTrails ss = ss.flatMap Stmt.trails := by
  induction ss with
  | nil => rw [Stmt.allTrails, List.flatMap_nil]
  | cons s rest ih => rw [Stmt.allTrails, List.flatMap_cons, ih]

@[simp] theorem Decl.allTrailsFlat (ds : List Decl) :
    Decl.allTrails ds = ds.flatMap Decl.trails := by
  induction ds with
  | nil => rw [Decl.allTrails, List.flatMap_nil]
  | cons d rest ih => rw [Decl.allTrails, List.flatMap_cons, ih]

theorem Entry.allTrailsMap {α : Type} (key value : α → Expr) (xs : List α) :
    Entry.allTrails (xs.map fun x => ⟨key x, value x⟩) =
      xs.flatMap fun x => (key x).trails [] ++ (value x).trails [] := by
  induction xs with
  | nil => rw [List.map_nil, Entry.allTrails, List.flatMap_nil]
  | cons x rest ih => rw [List.map_cons, Entry.allTrails, List.flatMap_cons, ih]

namespace Expr

@[simp] theorem pathTrails (target : Expr) (names after : List String) :
    (target.path names).trails after = target.trails (names ++ after) := by
  unfold path
  induction names generalizing target with
  | nil => rfl
  | cons n rest ih => rw [List.foldl_cons, ih, trails, List.cons_append]

@[simp] theorem applyTrails (target : Expr) (arguments : List (Option String × Expr))
    (after : List String) : (target.apply arguments).trails after =
      target.trails [] ++ arguments.flatMap (·.2.trails []) := by
  have given : Argument.allTrails (arguments.map fun a => ⟨a.1, a.2⟩) =
      arguments.flatMap (·.2.trails []) := by
    induction arguments with
    | nil => rw [List.map_nil, Argument.allTrails, List.flatMap_nil]
    | cons a rest ih => rw [List.map_cons, Argument.allTrails, List.flatMap_cons, ih]
  rw [apply, trails, given]

@[simp] theorem invokeTrails (target : Expr) (method : String)
    (arguments : List (Option String × Expr)) (after : List String) :
    (target.invoke method arguments).trails after =
      target.trails [method] ++ arguments.flatMap (·.2.trails []) := by
  rw [invoke, applyTrails, trails]

end Expr
end ViewForge.Code
