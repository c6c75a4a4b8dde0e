import ViewForge.Proofs.Property
import ViewForge.Proofs.Token

/-! Lists of style names as texts. A name has no blanks, so a list is read back from its names with
blanks between them. -/
namespace ViewForge
namespace Text

def Word (cs : List Char) : Prop := cs ≠ [] ∧ ∀ c ∈ cs, isBlank c = false

theorem trimWord {cs : List Char} (word : Word cs) : trimChars cs = cs := by
  have kept : ∀ xs : List Char, (∀ c ∈ xs, isBlank c = false) → xs.dropWhile isBlank = xs := by
    intro xs plain
    cases xs with
    | nil => rfl
    | cons c rest => exact List.dropWhile_cons_of_neg (by simp [plain c List.mem_cons_self])
  rw [trimChars, trimStart, kept cs word.2, trimEnd, kept cs.reverse (by simpa using word.2),
    List.reverse_reverse]

theorem wordTaken {cs : List Char} (plain : ∀ c ∈ cs, isBlank c = false) (carry tail : List Char) :
    wordsFrom carry (cs ++ tail) = wordsFrom (carry ++ cs) tail := by
  induction cs generalizing carry with
  | nil => rw [List.nil_append, List.append_nil]
  | cons c rest ih =>
    obtain ⟨first, others⟩ := List.forall_mem_cons.mp plain
    rw [List.cons_append, wordsFrom, if_neg (by simp [first]), ih others, List.append_assoc,
      List.singleton_append]

theorem wordsJoined {names : List String} (each : ∀ name ∈ names, Word name.toList) :
    words (join " " names) = names := by
  have read : wordsFrom [] (join " " names).toList = names.map String.toList := by
    induction names with
    | nil => simp [join, wordsFrom]
    | cons name rest ih =>
      obtain ⟨⟨some, plain⟩, others⟩ := List.forall_mem_cons.mp each
      cases rest with
      | nil =>
        have alone := wordTaken plain [] []
        rw [List.append_nil, List.nil_append] at alone
        simp [join, alone, wordsFrom, some]
      | cons next more =>
        have blank : isBlank ' ' = true := by decide
        rw [join, String.toList_append, String.toList_append, List.append_assoc,
          wordTaken plain, List.nil_append, show " ".toList = [' '] from rfl,
          List.singleton_append, wordsFrom, if_pos blank,
          if_neg (by simpa using some), ih others]
        rfl
  rw [words, read, List.map_map]
  simp [Function.comp_def]

end Text

namespace StyleName
open Text (Word isBlank isNamePart)

theorem partWord {cs : List Char} (part : isPart cs = true) : Word cs ∧ ':' ∉ cs := by
  simp only [isPart, Bool.and_eq_true, Bool.not_eq_true', List.isEmpty_eq_false_iff,
    List.all_eq_true] at part
  obtain ⟨some, parts⟩ := part
  exact ⟨⟨some, fun c member => Text.partBlank (parts c member)⟩, fun member =>
    absurd (parts ':' member) (by decide)⟩

theorem parsePart {name : String} (part : isPart name.toList = true) :
    parse name = .ok (.inGroup name) := by
  obtain ⟨word, plain⟩ := partWord part
  unfold parse
  simp only [Text.trimWord word]
  split
  · rename_i rest same
    exact absurd (same ▸ List.mem_cons_self) plain
  · rw [if_pos part, String.ofList_toList]

theorem qualifiedWord {group name : String} (left : isPart group.toList = true)
    (right : isPart name.toList = true) : Word (qualified group name).display.toList := by
  obtain ⟨⟨_, first⟩, _⟩ := partWord left
  obtain ⟨⟨_, second⟩, _⟩ := partWord right
  have mark : isBlank ':' = false := by decide
  have spelled : (qualified group name).display.toList =
      ':' :: (group.toList ++ ':' :: name.toList) := by simp [display]
  rw [spelled]
  refine ⟨by simp, ?_⟩
  intro c member
  simp only [List.mem_cons, List.mem_append] at member
  rcases member with rfl | inside | rfl | inside
  · exact mark
  · exact first c inside
  · exact mark
  · exact second c inside

theorem parseQualified {group name : String} (left : isPart group.toList = true)
    (right : isPart name.toList = true) :
    parse (qualified group name).display = .ok (.qualified group name) := by
  have spelled : (qualified group name).display.toList =
      ':' :: (group.toList ++ ':' :: name.toList) := by simp [display]
  have trimmed := Text.trimWord (qualifiedWord left right)
  rw [spelled] at trimmed
  unfold parse
  simp only [spelled, trimmed]
  rw [Text.cutFirstCharsAppend (partWord left).2]
  simp [left, right]

/- What a name is read from need not be how it is written, since blanks around it do not count. -/
theorem parseDisplay {raw : String} {s : StyleName} (parsed : parse raw = .ok s) :
    parse s.display = .ok s ∧ Word s.display.toList := by
  unfold parse at parsed
  simp only at parsed
  split at parsed
  · split at parsed
    · split at parsed
      · rename_i group name _ parts
        cases parsed
        rw [Bool.and_eq_true] at parts
        have left : isPart (String.ofList group).toList = true := by
          rw [String.toList_ofList]
          exact parts.1
        have right : isPart (String.ofList name).toList = true := by
          rw [String.toList_ofList]
          exact parts.2
        exact ⟨parseQualified left right, qualifiedWord left right⟩
      · cases parsed
    · cases parsed
  · split at parsed
    · rename_i part
      cases parsed
      rw [← String.toList_ofList (l := Text.trimChars raw.toList)] at part
      exact ⟨parsePart part, (partWord part).1⟩
    · cases parsed

theorem parseJoined {styles : List StyleName} (read : ∀ s ∈ styles, ∃ raw, parse raw = .ok s) :
    parseList (Text.join " " (styles.map display)) = .ok styles := by
  have words : ∀ name ∈ styles.map display, Word name.toList := by
    intro name member
    obtain ⟨s, inside, rfl⟩ := List.mem_map.mp member
    obtain ⟨raw, parsed⟩ := read s inside
    exact (parseDisplay parsed).2
  rw [parseList, Text.wordsJoined words]
  clear words
  induction styles with
  | nil => rfl
  | cons s rest ih =>
    obtain ⟨⟨raw, parsed⟩, others⟩ := List.forall_mem_cons.mp read
    rw [List.map_cons, List.mapM_cons, (parseDisplay parsed).1, ih others]
    rfl

end StyleName
end ViewForge
