import ViewForge.Component.Blocks
import ViewForge.Proofs.Task

/-! Values have the type that they are read for, and so have those that stand in for them. -/
namespace ViewForge

namespace ValueType

theorem readLeafTyped {type : ValueType} {raw : String} {value : Value}
    (read : type.readLeaf? raw = some value) : value.type = type := by
  cases type with
  | bool =>
    simp only [readLeaf?] at read
    split at read
    · cases read
      rfl
    · split at read
      · cases read
        rfl
      · cases read
  | string =>
    cases read
    split <;> rfl
  | foreign name =>
    simp only [readLeaf?] at read
    split at read
    · cases read
    · cases read
      rfl
  | array element => cases read
  | optional wrapped => cases read
  | _ =>
    simp only [readLeaf?, Option.map_eq_some_iff] at read
    obtain ⟨_, _, rfl⟩ := read
    rfl

/- There is one way in which a text fails to be a value. -/
theorem parseFails {type : ValueType} {raw : String} {e : Error} (failed : type.parse raw = .error e) :
    ∃ value name, e = .unknownValue value name := by
  induction type with
  | optional wrapped ih =>
    unfold parse at failed
    split at failed
    · cases failed
    · exact ih (Result.mapError.mp failed)
  | array element _ =>
    unfold parse at failed
    simp only at failed
    split at failed
    · cases failed
    · split at failed <;> cases failed
      exact ⟨_, _, rfl⟩
  | _ =>
    unfold parse at failed
    split at failed <;> cases failed
    exact ⟨_, _, rfl⟩

theorem parseTyped {type : ValueType} {raw : String} {value : Value}
    (ok : type.parse raw = .ok value) : value.type = type := by
  unfold parse at ok
  split at ok
  · simp only at ok
    split at ok
    · cases ok
      rfl
    · split at ok
      · cases ok
        rfl
      · cases ok
  · split at ok
    · cases ok
      rfl
    · obtain ⟨_, _, rfl⟩ := Result.mapOk.mp ok
      rfl
  · split at ok
    · rename_i read
      cases ok
      exact readLeafTyped read
    · cases ok

theorem defaultTyped {type : ValueType} {value : Value} (given : type.default? = some value) :
    value.type = type := by
  cases type <;> cases given <;> rfl

end ValueType

def StateDeclaration.IsTyped (item : StateDeclaration) : Prop :=
  ∀ value, item.default = some value → value.type = item.type

end ViewForge
