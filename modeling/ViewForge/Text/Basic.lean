import ViewForge.Text.Classes
/-! Cutting, trimming and joining texts. The work is done on lists of characters, where every
function recurses on the text itself. -/
namespace ViewForge.Text

def trimStart (cs : List Char) : List Char := cs.dropWhile isBlank

def trimEnd (cs : List Char) : List Char := (cs.reverse.dropWhile isBlank).reverse

def trimChars (cs : List Char) : List Char := trimEnd (trimStart cs)

def trim (s : String) : String := String.ofList (trimChars s.toList)

theorem trimStartShortens (cs : List Char) : (trimStart cs).length ≤ cs.length :=
  (List.dropWhile_sublist _).length_le

theorem trimEndShortens (cs : List Char) : (trimEnd cs).length ≤ cs.length := by
  have h := (List.dropWhile_sublist isBlank (l := cs.reverse)).length_le
  simpa [trimEnd] using h

theorem trimCharsShortens (cs : List Char) : (trimChars cs).length ≤ cs.length :=
  Nat.le_trans (trimEndShortens _) (trimStartShortens _)

def cutChars (separator : Char) : List Char → List (List Char)
  | [] => [[]]
  | c :: rest =>
    if c = separator then [] :: cutChars separator rest
    else match cutChars separator rest with
      | [] => [[c]]
      | piece :: pieces => (c :: piece) :: pieces

def cut (separator : Char) (s : String) : List String :=
  (cutChars separator s.toList).map String.ofList

def wordsFrom : List Char → List Char → List (List Char)
  | carry, [] => if carry.isEmpty then [] else [carry]
  | carry, c :: rest =>
    if isBlank c then
      if carry.isEmpty then wordsFrom [] rest else carry :: wordsFrom [] rest
    else wordsFrom (carry ++ [c]) rest

def words (s : String) : List String := (wordsFrom [] s.toList).map String.ofList

def dropLead? : List Char → List Char → Option (List Char)
  | [], cs => some cs
  | _ :: _, [] => none
  | p :: ps, c :: cs => if p = c then dropLead? ps cs else none

theorem dropLeadLength {lead cs rest : List Char} (h : dropLead? lead cs = some rest) :
    rest.length + lead.length = cs.length := by
  induction lead generalizing cs with
  | nil => simp [dropLead?] at h; simp [h]
  | cons p ps ih =>
    cases cs with
    | nil => simp [dropLead?] at h
    | cons c cs =>
      simp only [dropLead?] at h
      split at h
      · have := ih h; simp only [List.length_cons]; omega
      · simp at h

def after? (lead s : String) : Option String :=
  (dropLead? lead.toList s.toList).map String.ofList

def before? (tail s : String) : Option String :=
  (dropLead? tail.toList.reverse s.toList.reverse).map fun cs => String.ofList cs.reverse

def startsWith (lead s : String) : Bool := (after? lead s).isSome

def endsWith (tail s : String) : Bool := (before? tail s).isSome

def cutFirstChars? (separator : Char) : List Char → Option (List Char × List Char)
  | [] => none
  | c :: rest =>
    if c = separator then some ([], rest)
    else (cutFirstChars? separator rest).map fun p => (c :: p.1, p.2)

def cutFirst? (separator : Char) (s : String) : Option (String × String) :=
  (cutFirstChars? separator s.toList).map fun p => (String.ofList p.1, String.ofList p.2)

def cutLast? (separator : Char) (s : String) : Option (String × String) :=
  (cutFirstChars? separator s.toList.reverse).map fun p =>
    (String.ofList p.2.reverse, String.ofList p.1.reverse)

def join (separator : String) : List String → String
  | [] => ""
  | [s] => s
  | s :: t :: rest => s ++ separator ++ join separator (t :: rest)

def concat : List String → String
  | [] => ""
  | s :: rest => s ++ concat rest

def dropReturn (line : List Char) : List Char :=
  match line.reverse with
  | '\r' :: rest => rest.reverse
  | _ => line

def linesOf : List (List Char) → List (List Char)
  | [] => []
  | [last] => if last.isEmpty then [] else [last]
  | line :: rest => dropReturn line :: linesOf rest

def lines (s : String) : List String := (linesOf (cutChars '\n' s.toList)).map String.ofList

def repeated (s : String) : Nat → String
  | 0 => ""
  | n + 1 => s ++ repeated s n

end ViewForge.Text
