import ViewForge.Text.Basic
import ViewForge.Value.Keyword
/-! The types of property values and their names. -/
namespace ViewForge

inductive ValueType where
  | bool
  | int
  | float
  | double
  | string
  | color
  | layerColor
  | font
  | image
  | point
  | size
  | rect
  | edgeInsets
  | keyword (set : KeywordSet)
  | array (element : ValueType)
  | optional (wrapped : ValueType)
  | foreign (name : String)
  deriving DecidableEq, Repr

namespace ValueType

def ofLeaf (name : String) : ValueType :=
  match name with
  | "Bool" => bool
  | "Int" | "Integer" => int
  | "Float" | "CGFloat" => float
  | "Double" => double
  | "String" => string
  | "Color" | "UIColor" => color
  | "CGColor" => layerColor
  | "Font" | "UIFont" => font
  | "Image" | "UIImage" => image
  | "Point" | "CGPoint" => point
  | "Size" | "CGSize" => size
  | "Rect" | "CGRect" => rect
  | "EdgeInsets" | "UIEdgeInsets" => edgeInsets
  | other =>
    match KeywordSet.find? other with
    | some set => keyword set
    | none => foreign other

def optionalPart? (cs : List Char) : Option (List Char) :=
  match cs.reverse with
  | '?' :: rest => some rest.reverse
  | _ => none

def arrayPart? (cs : List Char) : Option (List Char) :=
  match cs with
  | '[' :: rest =>
    match rest.reverse with
    | ']' :: inner => some inner.reverse
    | _ => none
  | _ => none

theorem optionalPartLength {cs inner : List Char} (h : optionalPart? cs = some inner) :
    inner.length < cs.length := by
  unfold optionalPart? at h
  split at h
  · rename_i rest eq
    simp only [Option.some.injEq] at h
    have len := congrArg List.length eq
    simp only [List.length_reverse, List.length_cons] at len
    rw [← h, List.length_reverse]; omega
  · simp at h

theorem arrayPartLength {cs inner : List Char} (h : arrayPart? cs = some inner) :
    inner.length < cs.length := by
  unfold arrayPart? at h
  split at h
  · split at h
    · rename_i rest eq
      simp only [Option.some.injEq] at h
      have len := congrArg List.length eq
      simp only [List.length_reverse, List.length_cons] at len
      rw [← h, List.length_reverse, List.length_cons]; omega
    · simp at h
  · simp at h

/-- A final question mark makes an optional and brackets an array, the outermost first; blanks
around each part do not count. -/
def lookupChars (cs : List Char) : ValueType :=
  match _h : optionalPart? (Text.trimChars cs) with
  | some inner => optional (lookupChars inner)
  | none =>
    match _h' : arrayPart? (Text.trimChars cs) with
    | some inner => array (lookupChars inner)
    | none => ofLeaf (String.ofList (Text.trimChars cs))
termination_by cs.length
decreasing_by
  · exact Nat.lt_of_lt_of_le (optionalPartLength _h) (Text.trimCharsShortens cs)
  · exact Nat.lt_of_lt_of_le (arrayPartLength _h') (Text.trimCharsShortens cs)

def lookup (name : String) : ValueType := lookupChars name.toList

def isKnown : ValueType → Bool
  | foreign _ => false
  | array inner | optional inner => inner.isKnown
  | _ => true

def name : ValueType → String
  | bool => "Bool"
  | int => "Int"
  | float => "Float"
  | double => "Double"
  | string => "String"
  | color => "Color"
  | layerColor => "CGColor"
  | font => "Font"
  | image => "Image"
  | point => "Point"
  | size => "Size"
  | rect => "Rect"
  | edgeInsets => "EdgeInsets"
  | keyword set => set.name
  | array inner => "[" ++ inner.name ++ "]"
  | optional inner => inner.name ++ "?"
  | foreign name => name

def runtimeType : ValueType → String
  | bool => "Bool"
  | int => "Int"
  | float => "CGFloat"
  | double => "Double"
  | string => "String"
  | color => "UIColor"
  | layerColor => "CGColor"
  | font => "UIFont"
  | image => "UIImage"
  | point => "CGPoint"
  | size => "CGSize"
  | rect => "CGRect"
  | edgeInsets => "UIEdgeInsets"
  | keyword set => set.runtimeType
  | array inner => "[" ++ inner.runtimeType ++ "]"
  | optional inner => inner.runtimeType ++ "?"
  | foreign name => name

end ValueType

end ViewForge
