import ViewForge.Proofs.Resolve.Unification
import ViewForge.Proofs.Value

/-! Values of a type all the way down. Whatever is read for a type is such a value, and so is the
one that stands in for it. A text that is no value of the type is refused with the text itself, under
the name of the type without its marks of being optional. -/
namespace ViewForge

/-- The items of an array have the type of its elements, what an optional holds has the type that
it wraps, a keyword stands in its set, and a whole number has sixty-four bits. -/
inductive Value.Has : Value → ValueType → Prop where
  | bool (b : Bool) : Has (.bool b) .bool
  | int {n : Int} (low : -9223372036854775808 ≤ n) (high : n < 9223372036854775808) :
      Has (.int n) .int
  | float (x : Float) : Has (.float x) .float
  | double (x : Float) : Has (.double x) .double
  | string (text : String) : Has (.string text) .string
  | localized (key : String) : Has (.localized key) .string
  | color (c : Color) : Has (.color c) .color
  | layerColor (c : Color) : Has (.layerColor c) .layerColor
  | font (f : Font) : Has (.font f) .font
  | image (i : Image) : Has (.image i) .image
  | point (p : Point) : Has (.point p) .point
  | size (s : Size) : Has (.size s) .size
  | rect (r : Rect) : Has (.rect r) .rect
  | edgeInsets (e : EdgeInsets) : Has (.edgeInsets e) .edgeInsets
  | keyword {set : KeywordSet} {index : Nat} (inside : index < set.cases.length) :
      Has (.keyword set index) (.keyword set)
  | array {element : ValueType} {items : List Value} (each : ∀ item ∈ items, Has item element) :
      Has (.array element items) (.array element)
  | absent (wrapped : ValueType) : Has (.absent wrapped) (.optional wrapped)
  | present {wrapped : ValueType} {value : Value} (content : Has value wrapped) :
      Has (.present wrapped value) (.optional wrapped)
  | foreign (name expression : String) : Has (.foreign name expression) (.foreign name)

theorem Value.hasType {value : Value} {type : ValueType} (has : value.Has type) :
    value.type = type := by
  cases has <;> rfl

theorem KeywordSet.indexInside {set : KeywordSet} {keyword : String} {index : Nat}
    (found : set.index? keyword = some index) : index < set.cases.length := by
  obtain ⟨inside, _⟩ := List.findIdx?_eq_some_iff_getElem.mp found
  exact inside

theorem Number.readIntFits {text : String} {n : Int} (read : Number.readInt? text = some n) :
    -9223372036854775808 ≤ n ∧ n < 9223372036854775808 := by
  simp only [readInt?, Option.ite_none_left_eq_some, Option.ite_none_right_eq_some,
    Bool.and_eq_true, decide_eq_true_eq] at read
  obtain ⟨_, fits, same⟩ := read
  rw [← Option.some.inj same]
  exact fits

namespace ValueType

theorem readLeafHas {type : ValueType} {raw : String} {value : Value}
    (read : type.readLeaf? raw = some value) : value.Has type := by
  cases type with
  | bool =>
    simp only [readLeaf?] at read
    split at read
    · cases read
      exact .bool true
    · split at read
      · cases read
        exact .bool false
      · cases read
  | int =>
    simp only [readLeaf?, Option.map_eq_some_iff] at read
    obtain ⟨n, whole, rfl⟩ := read
    obtain ⟨low, high⟩ := Number.readIntFits whole
    exact .int low high
  | string =>
    cases read
    split
    · exact .localized _
    · exact .string raw
  | keyword set =>
    simp only [readLeaf?, Option.map_eq_some_iff] at read
    obtain ⟨index, found, rfl⟩ := read
    exact .keyword (KeywordSet.indexInside found)
  | foreign name =>
    simp only [readLeaf?] at read
    split at read
    · cases read
    · cases read
      exact .foreign name _
  | array element => cases read
  | optional wrapped => cases read
  | _ =>
    simp only [readLeaf?, Option.map_eq_some_iff] at read
    obtain ⟨_, _, rfl⟩ := read
    constructor

/- An array speaks for its items, which are read from other texts; an optional lets what it wraps
speak, which is read from the same text. -/
theorem parseOutcome (type : ValueType) (raw : String) :
    (∃ value, type.parse raw = .ok value ∧ value.Has type) ∨
      type.parse raw = .error (.unknownValue raw type.core.name) := by
  induction type generalizing raw with
  | array element ih =>
    rw [parse]
    split
    · exact .inl ⟨_, rfl, .array (by simp)⟩
    · split
      · rename_i items read
        refine .inl ⟨_, rfl, .array fun item member => ?_⟩
        obtain ⟨text, _, here⟩ := forallRight (Result.mapMOk read) member
        rcases ih text with ⟨value, ok, has⟩ | failed
        · cases here.symm.trans ok
          exact has
        · cases here.symm.trans failed
      · exact .inr rfl
  | optional wrapped ih =>
    rw [parse, core]
    split
    · exact .inl ⟨_, rfl, .absent wrapped⟩
    · rcases ih raw with ⟨value, ok, has⟩ | failed
      · exact .inl ⟨_, Result.mapOk.mpr ⟨value, ok, rfl⟩, .present has⟩
      · exact .inr (Result.mapError.mpr failed)
  | _ =>
    rw [parse]
    · split
      · rename_i value read
        exact .inl ⟨value, rfl, readLeafHas read⟩
      · exact .inr rfl
    all_goals simp

theorem defaultHas {type : ValueType} {value : Value} (given : type.default? = some value) :
    value.Has type := by
  cases type with
  | keyword set =>
    cases given
    exact .keyword (by cases set <;> decide)
  | array element =>
    cases given
    exact .array (by simp)
  | int =>
    cases given
    exact .int (by decide) (by decide)
  | font | image | foreign name => cases given
  | _ =>
    cases given
    constructor

theorem parsesTyped (type : ValueType) (raw : String) :
    ((∃ value, type.parse raw = .ok value ∧ value.type = type ∧ value.Has type) ∨
      type.parse raw = .error (.unknownValue raw type.core.name)) ∧
    ∀ value, type.default? = some value → value.type = type ∧ value.Has type := by
  refine ⟨?_, fun value given => ⟨defaultTyped given, defaultHas given⟩⟩
  rcases parseOutcome type raw with ⟨value, ok, has⟩ | failed
  · exact .inl ⟨value, ok, Value.hasType has, has⟩
  · exact .inr failed

theorem alignmentsTyped :
    (array (optional (keyword .textAlignment))).default? =
      some (.array (optional (keyword .textAlignment)) []) ∧
    (Value.array (optional (keyword .textAlignment)) []).Has
      (array (optional (keyword .textAlignment))) :=
  ⟨rfl, ((parsesTyped (array (optional (keyword .textAlignment))) "left;;right").2 _ rfl).2⟩

end ValueType
end ViewForge
