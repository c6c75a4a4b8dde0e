import ViewForge.Proofs.Code

/-! What statements do, at any depth: the fields of the object that are set, and the constraints
that are made. -/
namespace ViewForge

namespace Code

/- The statements inside of code, those of closures and branches included, in the order of the text.
What a statement holds comes after it. -/
mutual

def Expr.within : Expr → List Stmt
  | .constant _ | .identifier _ | .implicitMember _ => []
  | .member target _ | .not target => target.within
  | .call target arguments => target.within ++ Argument.allWithin arguments
  | .binary lhs _ rhs => lhs.within ++ rhs.within
  | .closure _ _ body => Stmt.allWithin body
  | .array items => Expr.allWithin items
  | .dictionary entries => Entry.allWithin entries

def Expr.allWithin : List Expr → List Stmt
  | [] => []
  | e :: rest => e.within ++ Expr.allWithin rest

def Argument.allWithin : List Argument → List Stmt
  | [] => []
  | ⟨_, value⟩ :: rest => value.within ++ Argument.allWithin rest

def Entry.allWithin : List Entry → List Stmt
  | [] => []
  | ⟨key, value⟩ :: rest => key.within ++ value.within ++ Entry.allWithin rest

def Stmt.within : Stmt → List Stmt
  | .expr e => e.within
  | .assign target value => target.within ++ value.within
  | .declare _ _ _ (some value) | .ret (some value) => value.within
  | .declare _ _ _ none | .ret none | .comment _ | .blank => []
  | .ifThen condition body | .guard condition body => condition.within ++ Stmt.allWithin body
  | .ifElse condition body otherwise =>
    condition.within ++ Stmt.allWithin body ++ Stmt.allWithin otherwise
  | .switch subject cases => subject.within ++ Case.allWithin cases

def Stmt.allWithin : List Stmt → List Stmt
  | [] => []
  | s :: rest => s :: s.within ++ Stmt.allWithin rest

def Case.allWithin : List Case → List Stmt
  | [] => []
  | .on patterns body :: rest =>
    Expr.allWithin patterns ++ Stmt.allWithin body ++ Case.allWithin rest
  | .default body :: rest => Stmt.allWithin body ++ Case.allWithin rest

end

theorem Stmt.allWithinFlat (ss : List Stmt) :
    Stmt.allWithin ss = ss.flatMap fun s => s :: s.within := by
  induction ss with
  | nil => rw [Stmt.allWithin, List.flatMap_nil]
  | cons s rest ih => rw [Stmt.allWithin, List.flatMap_cons, ih]

@[simp] theorem Expr.applyWithin (target : Expr) (arguments : List (Option String × Expr)) :
    (target.apply arguments).within = target.within ++ arguments.flatMap (·.2.within) := by
  have given : Argument.allWithin (arguments.map fun a => ⟨a.1, a.2⟩) =
      arguments.flatMap (·.2.within) := by
    induction arguments with
    | nil => rw [List.map_nil, Argument.allWithin, List.flatMap_nil]
    | cons a rest ih => rw [List.map_cons, Argument.allWithin, List.flatMap_cons, ih]
  rw [apply, within, given]

@[simp] theorem Expr.invokeWithin (target : Expr) (method : String)
    (arguments : List (Option String × Expr)) :
    (target.invoke method arguments).within =
      target.within ++ arguments.flatMap (·.2.within) := by
  rw [invoke, applyWithin, within]

@[simp] theorem Expr.pathWithin (target : Expr) (names : List String) :
    (target.path names).within = target.within := by
  unfold path
  induction names generalizing target with
  | nil => rfl
  | cons n rest ih => rw [List.foldl_cons, ih, within]

def Stmt.given? (field : String) : Stmt → Option Expr
  | .assign (.member (.identifier "self") name) value => if name = field then some value else none
  | _ => none

def Stmt.gives (field : String) (s : Stmt) : List Expr :=
  (s :: s.within).filterMap (·.given? field)

def Stmt.allGiven (field : String) (ss : List Stmt) : List Expr :=
  (Stmt.allWithin ss).filterMap (·.given? field)

theorem Stmt.allGivenFlat (field : String) (ss : List Stmt) :
    Stmt.allGiven field ss = ss.flatMap (Stmt.gives field) := by
  rw [Stmt.allGiven, Stmt.allWithinFlat, List.filterMap_flatMap]
  rfl

def Expr.isNil : Expr → Bool
  | .constant text => text == "nil"
  | _ => false

/- A constraint that code makes: for which view, under which condition, and how. -/
structure Making where
  view : Expr
  condition : Option Expr
  made : Expr

/- Something that is called on the maker of constraints. -/
def Expr.ofMaker : Expr → Bool
  | .identifier name => name == "make"
  | .member target _ | .call target _ => target.ofMaker
  | _ => false

def Stmt.made? : Stmt → Option Expr
  | .expr e | .assign _ (.member e "constraint") | .declare _ _ _ (some (.member e "constraint")) =>
    if e.ofMaker then some e else none
  | _ => none

def Stmt.makingsFor (view : Expr) : Stmt → List Making
  | .ifThen condition body => (body.filterMap Stmt.made?).map (⟨view, some condition, ·⟩)
  | s => s.made?.toList.map (⟨view, none, ·⟩)

def Stmt.makings : Stmt → List Making
  | .expr (.call (.member (.member view "snp") method) [.mk none (.closure _ _ body)]) =>
    if method = "makeConstraints" ∨ method = "prepareConstraints" then
      body.flatMap (Stmt.makingsFor view)
    else []
  | _ => []

def Decl.body? (name : String) : Decl → Option (List Stmt)
  | .function f => if f.name = name then some f.body else none
  | _ => none

def Decl.bodies (name : String) (d : Decl) : List (List Stmt) := d.members.filterMap (·.body? name)

def Decl.makings (name : String) (d : Decl) : List Making :=
  (d.bodies name).flatMap (·.flatMap Stmt.makings)

def Decl.gives (name field : String) (d : Decl) : List Expr :=
  (d.bodies name).flatMap (Stmt.allGiven field)

end Code

end ViewForge
