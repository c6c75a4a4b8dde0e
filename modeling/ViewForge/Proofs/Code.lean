import ViewForge.Code.Basic

/-! The variables that generated code reads. Code that comes as a text holds literals only and reads
no variable. -/
namespace ViewForge.Code

mutual

def Expr.mentions (name : String) : Expr → Bool
  | .constant _ | .implicitMember _ => false
  | .identifier other => other == name
  | .member target _ => target.mentions name
  | .call target arguments => target.mentions name || Argument.anyMentions name arguments
  | .binary lhs _ rhs => lhs.mentions name || rhs.mentions name
  | .not inner => inner.mentions name
  | .closure _ _ body => Stmt.anyMentions name body
  | .array items => Expr.anyMentions name items
  | .dictionary entries => Entry.anyMentions name entries

def Expr.anyMentions (name : String) : List Expr → Bool
  | [] => false
  | e :: rest => e.mentions name || Expr.anyMentions name rest

def Argument.anyMentions (name : String) : List Argument → Bool
  | [] => false
  | ⟨_, value⟩ :: rest => value.mentions name || Argument.anyMentions name rest

def Entry.anyMentions (name : String) : List Entry → Bool
  | [] => false
  | ⟨key, value⟩ :: rest => key.mentions name || value.mentions name || Entry.anyMentions name rest

def Stmt.mentions (name : String) : Stmt → Bool
  | .expr e => e.mentions name
  | .assign target value => target.mentions name || value.mentions name
  | .declare _ _ _ (some value) | .ret (some value) => value.mentions name
  | .declare _ _ _ none | .ret none | .comment _ | .blank => false
  | .ifThen condition body | .guard condition body =>
    condition.mentions name || Stmt.anyMentions name body
  | .ifElse condition body otherwise =>
    condition.mentions name || Stmt.anyMentions name body || Stmt.anyMentions name otherwise
  | .switch subject cases => subject.mentions name || Case.anyMentions name cases

def Stmt.anyMentions (name : String) : List Stmt → Bool
  | [] => false
  | s :: rest => s.mentions name || Stmt.anyMentions name rest

def Case.anyMentions (name : String) : List Case → Bool
  | [] => false
  | .on patterns body :: rest =>
    Expr.anyMentions name patterns || Stmt.anyMentions name body || Case.anyMentions name rest
  | .default body :: rest => Stmt.anyMentions name body || Case.anyMentions name rest

end

def Function.mentions (name : String) (f : Function) : Bool :=
  f.parameters.any (·.default.any (·.mentions name)) || Stmt.anyMentions name f.body

def Property.mentions (name : String) (p : Property) : Bool :=
  p.value.any (·.mentions name) || p.didSet.any (Stmt.anyMentions name) ||
    p.getter.any (Stmt.anyMentions name)

mutual

def Decl.mentions (name : String) : Decl → Bool
  | .type _ _ _ _ _ members | .enumeration _ _ _ _ members => Decl.anyMentions name members
  | .function f => f.mentions name
  | .property p => p.mentions name
  | .comment _ => false

def Decl.anyMentions (name : String) : List Decl → Bool
  | [] => false
  | d :: rest => d.mentions name || Decl.anyMentions name rest

end

def Decl.members : Decl → List Decl
  | .type _ _ _ _ _ members => members
  | _ => []

def Decl.takes (name : String) : Decl → Bool
  | .function f => f.parameters.any (·.name == name)
  | _ => false

theorem Expr.anyMentionsAny (name : String) (es : List Expr) :
    Expr.anyMentions name es = es.any (·.mentions name) := by
  induction es with
  | nil => rw [Expr.anyMentions, List.any_nil]
  | cons e rest ih => rw [Expr.anyMentions, List.any_cons, ih]

theorem Stmt.anyMentionsAny (name : String) (ss : List Stmt) :
    Stmt.anyMentions name ss = ss.any (·.mentions name) := by
  induction ss with
  | nil => rw [Stmt.anyMentions, List.any_nil]
  | cons s rest ih => rw [Stmt.anyMentions, List.any_cons, ih]

theorem Entry.anyMentionsMap {α : Type} (name : String) (key value : α → Expr) (xs : List α) :
    Entry.anyMentions name (xs.map fun x => ⟨key x, value x⟩) =
      xs.any fun x => (key x).mentions name || (value x).mentions name := by
  induction xs with
  | nil => rw [List.map_nil, Entry.anyMentions, List.any_nil]
  | cons x rest ih => rw [List.map_cons, Entry.anyMentions, List.any_cons, ih]

namespace Expr

@[simp] theorem pathMentions (name : String) (target : Expr) (names : List String) :
    (target.path names).mentions name = target.mentions name := by
  unfold path
  induction names generalizing target with
  | nil => rfl
  | cons n rest ih => rw [List.foldl_cons, ih, mentions]

@[simp] theorem applyMentions (name : String) (target : Expr)
    (arguments : List (Option String × Expr)) :
    (target.apply arguments).mentions name =
      (target.mentions name || arguments.any (·.2.mentions name)) := by
  have given : Argument.anyMentions name (arguments.map fun a => ⟨a.1, a.2⟩) =
      arguments.any (·.2.mentions name) := by
    induction arguments with
    | nil => rw [List.map_nil, Argument.anyMentions, List.any_nil]
    | cons a rest ih => rw [List.map_cons, Argument.anyMentions, List.any_cons, ih]
  rw [apply, mentions, given]

@[simp] theorem invokeMentions (name : String) (target : Expr) (method : String)
    (arguments : List (Option String × Expr)) :
    (target.invoke method arguments).mentions name =
      (target.mentions name || arguments.any (·.2.mentions name)) := by
  rw [invoke, applyMentions, mentions]

end Expr
end ViewForge.Code
