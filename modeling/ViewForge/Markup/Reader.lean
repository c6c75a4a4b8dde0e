import ViewForge.Markup.Event
import ViewForge.Markup.Node
/-! Documents as trees. The elements that are still open form a stack, the innermost first. -/
namespace ViewForge.Markup

structure AttributeStep (cs : List Char) where
  name : List Char
  raw : List Char
  rest : List Char
  shorter : rest.length < cs.length

theorem cutFirstCharsShortens {separator : Char} {cs before tail : List Char}
    (h : Text.cutFirstChars? separator cs = some (before, tail)) : tail.length < cs.length := by
  induction cs generalizing before with
  | nil => simp [Text.cutFirstChars?] at h
  | cons c rest ih =>
    unfold Text.cutFirstChars? at h
    split at h
    · simp only [Option.some.injEq, Prod.mk.injEq] at h
      rw [← h.2]; simp
    · simp only [Option.map_eq_some_iff, Prod.mk.injEq] at h
      obtain ⟨⟨b, t⟩, found, _, rfl⟩ := h
      have : t.length < rest.length := ih found
      simp only [List.length_cons]; omega

/-- A name runs to an equals sign or a blank; its first character may be anything. The value stands
in single or double quotes. -/
def attributeStep (c : Char) (rest : List Char) :
    Except DocumentError (AttributeStep (c :: rest)) :=
  let name := rest.takeWhile fun d => d != '=' && !isSpace d
  let afterName := rest.dropWhile fun d => d != '=' && !isSpace d
  match h : afterName.dropWhile isSpace with
  | '=' :: more =>
    match h' : more.dropWhile isSpace with
    | quote :: value =>
      if quote = '"' ∨ quote = '\'' then
        match h'' : Text.cutFirstChars? quote value with
        | some (raw, tail) => .ok ⟨c :: name, raw, tail, by
            have h₁ : afterName.length ≤ rest.length := (List.dropWhile_sublist _).length_le
            have h₂ := (List.dropWhile_sublist isSpace (l := afterName)).length_le
            have h₃ := (List.dropWhile_sublist isSpace (l := more)).length_le
            have h₄ := cutFirstCharsShortens h''
            rw [h, List.length_cons] at h₂
            rw [h', List.length_cons] at h₃
            simp only [List.length_cons]
            omega⟩
        | none => malformed "attribute value is not closed"
      else malformed "attribute value is not quoted"
    | [] => malformed "attribute value is missing"
  | _ => malformed "attribute has no value"

def attributesFrom (tag : String) (seen : List String) (cs : List Char) :
    Except DocumentError (List (String × String)) :=
  match _h : cs.dropWhile isSpace with
  | [] => .ok []
  | c :: rest => do
    let found ← attributeStep c rest
    let name := String.ofList found.name
    if seen.contains name then .error (.malformed s!"attribute '{name}' is repeated on '{tag}'")
    let value ← unescape found.raw
    let others ← attributesFrom tag (name :: seen) found.rest
    return (name, String.ofList value) :: others
termination_by cs.length
decreasing_by
  have h₁ := (List.dropWhile_sublist isSpace (l := cs)).length_le
  have h₂ := found.shorter
  rw [_h] at h₁
  omega

def openTag (inside : List Char) : Except DocumentError Node := do
  let name := String.ofList (inside.takeWhile (!isSpace ·))
  let attributes ← attributesFrom name [] (inside.dropWhile (!isSpace ·))
  return { name, attributes }

/-- An element whose end tag has not come yet; its children are kept in reverse. -/
structure Frame where
  node : Node
  children : List Node := []
  text : List Char := []
  deriving Repr

def Frame.close (frame : Frame) : Node :=
  { frame.node with
    children := frame.children.reverse
    text := if frame.text.all Text.isBlank then "" else String.ofList frame.text }

structure Progress where
  stack : List Frame := []
  root : Option Node := none
  deriving Repr

def Progress.add (p : Progress) (node : Node) : Except DocumentError Progress :=
  match p.stack, p.root with
  | frame :: outer, _ =>
    .ok { p with stack := { frame with children := node :: frame.children } :: outer }
  | [], none => .ok { p with root := some node }
  | [], some _ => .error .severalRoots

def Progress.addText (p : Progress) (text : List Char) : Progress :=
  match p.stack with
  | frame :: outer => { p with stack := { frame with text := frame.text ++ text } :: outer }
  | [] => p

def Progress.take (p : Progress) : Event → Except DocumentError Progress
  | .text raw =>
    if p.stack.isEmpty then .ok p
    else do return p.addText (← unescape raw)
  | .verbatim text => .ok (p.addText text)
  | .opening inside => do
    let node ← openTag inside
    return { p with stack := { node } :: p.stack }
  | .closed inside => do p.add (← openTag inside)
  | .closing name =>
    match p.stack with
    | frame :: outer =>
      if frame.node.name.toList = name then { p with stack := outer }.add frame.close
      else malformed "end tag does not match"
    | [] => malformed "end tag without start tag"
  | .skipped => .ok p

def Progress.finish (p : Progress) : Except DocumentError Node :=
  match p.stack, p.root with
  | frame :: _, _ => .error (.neverClosed frame.node.name)
  | [], some node => .ok node
  | [], none => .error .noRoot

def readFrom (p : Progress) : List Char → Except DocumentError Node
  | [] => p.finish
  | c :: rest => do
    let found ← step c rest
    let next ← p.take found.event
    readFrom next found.rest
termination_by cs => cs.length
decreasing_by exact found.shorter

def dropByteOrderMark : List Char → List Char
  | '\ufeff' :: rest => rest
  | cs => cs

def parse (source : String) : Result Node :=
  match readFrom {} (dropByteOrderMark source.toList) with
  | .ok node => .ok node
  | .error e => .error (.document e)

end ViewForge.Markup
