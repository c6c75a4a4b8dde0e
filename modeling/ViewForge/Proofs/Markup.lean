import Mathlib.Data.List.Nodup
import ViewForge.Markup.Reader
import ViewForge.Proofs.Task

/-! Documents that are read have no attribute twice, and they can be read from their characters. -/
namespace ViewForge.Markup

inductive Node.Tidy : Node → Prop where
  | mk {node : Node} (attributes : (node.attributes.map Prod.fst).Nodup)
      (children : ∀ child ∈ node.children, Tidy child) : Tidy node

theorem Node.Tidy.attributes {node : Node} (tidy : node.Tidy) :
    (node.attributes.map Prod.fst).Nodup := by
  obtain ⟨attributes, _⟩ := tidy
  exact attributes

theorem Node.Tidy.children {node : Node} (tidy : node.Tidy) :
    ∀ child ∈ node.children, child.Tidy := by
  obtain ⟨_, children⟩ := tidy
  exact children

theorem attributesFromDistinct {tag : String} {seen : List String} {cs : List Char}
    {attributes : List (String × String)} (ok : attributesFrom tag seen cs = .ok attributes) :
    (attributes.map Prod.fst).Nodup ∧ ∀ name ∈ attributes.map Prod.fst, name ∉ seen := by
  induction seen, cs using attributesFrom.induct generalizing attributes with
  | case1 seen cs ends =>
    rw [attributesFrom] at ok
    split at ok
    · cases ok
      simp
    · rename_i more
      rw [ends] at more
      cases more
  | case2 seen cs c rest begins ih =>
    rw [attributesFrom] at ok
    split at ok
    · rename_i ends
      rw [begins] at ends
      cases ends
    · rename_i more
      rw [begins] at more
      cases more
      obtain ⟨found, _, checked⟩ := Result.bindOk.mp ok
      simp only at checked
      split at checked
      · cases checked
      · rename_i fresh
        obtain ⟨value, _, ok⟩ := Result.bindOk.mp checked
        obtain ⟨others, read, last⟩ := Result.bindOk.mp ok
        cases last
        obtain ⟨distinct, apart⟩ := ih found read
        refine ⟨List.nodup_cons.mpr ⟨?_, distinct⟩, ?_⟩
        · intro again
          exact apart _ again List.mem_cons_self
        · intro name member
          rcases List.mem_cons.mp member with rfl | later
          · simpa using fresh
          · exact fun before => apart name later (List.mem_cons_of_mem _ before)

structure Frame.Tidy (frame : Frame) : Prop where
  attributes : (frame.node.attributes.map Prod.fst).Nodup
  children : ∀ child ∈ frame.children, child.Tidy

structure Progress.Tidy (p : Progress) : Prop where
  stack : ∀ frame ∈ p.stack, frame.Tidy
  root : ∀ node, p.root = some node → node.Tidy

theorem openTagTidy {inside : List Char} {node : Node} (ok : openTag inside = .ok node) :
    (node.attributes.map Prod.fst).Nodup ∧ node.children = [] := by
  unfold openTag at ok
  obtain ⟨attributes, read, last⟩ := Result.bindOk.mp ok
  cases last
  exact ⟨(attributesFromDistinct read).1, rfl⟩

theorem addTidy {p next : Progress} {node : Node} (tidy : p.Tidy) (child : node.Tidy)
    (ok : p.add node = .ok next) : next.Tidy := by
  unfold Progress.add at ok
  split at ok
  · rename_i frame outer open_
    cases ok
    refine ⟨?_, tidy.root⟩
    intro f member
    rcases List.mem_cons.mp member with rfl | below
    · have before := tidy.stack frame (by rw [open_]; exact List.mem_cons_self)
      refine ⟨before.attributes, ?_⟩
      intro c inside
      rcases List.mem_cons.mp inside with rfl | earlier
      · exact child
      · exact before.children c earlier
    · exact tidy.stack f (by rw [open_]; exact List.mem_cons_of_mem _ below)
  · cases ok
    refine ⟨tidy.stack, ?_⟩
    intro n same
    cases same
    exact child
  · cases ok

theorem addTextTidy {p : Progress} (tidy : p.Tidy) (text : List Char) : (p.addText text).Tidy := by
  unfold Progress.addText
  split
  · rename_i frame outer open_
    refine ⟨?_, tidy.root⟩
    intro f member
    rcases List.mem_cons.mp member with rfl | below
    · have before := tidy.stack frame (by rw [open_]; exact List.mem_cons_self)
      exact ⟨before.attributes, before.children⟩
    · exact tidy.stack f (by rw [open_]; exact List.mem_cons_of_mem _ below)
  · exact tidy

theorem takeTidy {p next : Progress} {event : Event} (tidy : p.Tidy)
    (ok : p.take event = .ok next) : next.Tidy := by
  cases event with
  | text raw =>
    simp only [Progress.take] at ok
    split at ok
    · cases ok
      exact tidy
    · obtain ⟨text, _, last⟩ := Result.bindOk.mp ok
      cases last
      exact addTextTidy tidy text
  | verbatim text =>
    cases ok
    exact addTextTidy tidy text
  | opening inside =>
    obtain ⟨node, opened, last⟩ := Result.bindOk.mp ok
    cases last
    refine ⟨?_, tidy.root⟩
    intro f member
    rcases List.mem_cons.mp member with rfl | below
    · exact ⟨(openTagTidy opened).1, by simp⟩
    · exact tidy.stack f below
  | closed inside =>
    obtain ⟨node, opened, added⟩ := Result.bindOk.mp ok
    obtain ⟨attributes, empty⟩ := openTagTidy opened
    exact addTidy tidy ⟨attributes, by simp [empty]⟩ added
  | closing name =>
    simp only [Progress.take] at ok
    split at ok
    · rename_i frame outer open_
      split at ok
      · have before := tidy.stack frame (by rw [open_]; exact List.mem_cons_self)
        have closed : frame.close.Tidy := ⟨before.attributes, ?_⟩
        refine addTidy (p := { p with stack := outer }) ⟨?_, tidy.root⟩ closed ok
        · intro f below
          exact tidy.stack f (by rw [open_]; exact List.mem_cons_of_mem _ below)
        · intro c inside
          exact before.children c (List.mem_reverse.mp inside)
      · cases ok
    · cases ok
  | skipped =>
    cases ok
    exact tidy

theorem readFromTidy {p : Progress} {cs : List Char} {node : Node} (tidy : p.Tidy)
    (ok : readFrom p cs = .ok node) : node.Tidy := by
  induction p, cs using readFrom.induct with
  | case1 p =>
    rw [readFrom] at ok
    unfold Progress.finish at ok
    split at ok <;> try contradiction
    rename_i root _ found
    cases ok
    exact tidy.root _ found
  | case2 p c rest ih =>
    rw [readFrom] at ok
    obtain ⟨found, _, ok⟩ := Result.bindOk.mp ok
    obtain ⟨next, taken, ok⟩ := Result.bindOk.mp ok
    exact ih found next (takeTidy tidy taken) ok

theorem parseTidy {source : String} {node : Node} (ok : parse source = .ok node) : node.Tidy := by
  unfold parse at ok
  split at ok
  · rename_i found read
    cases ok
    exact readFromTidy ⟨by simp, by simp⟩ read
  · cases ok

end ViewForge.Markup

namespace ViewForge

/- A text is kept encoded, and to decode it one character after the other takes long. What a text is
read as is therefore worked out from the characters that it is written with. -/
theorem Text.lettersAppend {s t : String} {xs ys : List Char} (first : s = String.ofList xs)
    (second : t = String.ofList ys) : s ++ t = String.ofList (xs ++ ys) := by
  rw [first, second, String.ofList_append]

namespace Markup

def readLetters (cs : List Char) : Result Node :=
  match readFrom {} (dropByteOrderMark cs) with
  | .ok node => .ok node
  | .error e => .error (.document e)

theorem parseLetters {source : String} {cs : List Char} (letters : source = String.ofList cs) :
    parse source = readLetters cs := by
  rw [parse, letters, String.toList_ofList]
  rfl

end Markup

end ViewForge
