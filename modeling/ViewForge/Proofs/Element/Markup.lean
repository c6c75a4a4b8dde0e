import ViewForge.Element.Basic
import ViewForge.Markup.Reader
import ViewForge.Proofs.Property

/-! Elements as markup. What is written for an element is read as a tree of its tags with its
attributes; an escaped value has none of the marks that end it and is read as it was. -/
namespace ViewForge
open Markup (Node isSpace)

namespace Markup

theorem entities :
    reference? "amp".toList = some '&' ∧ reference? "quot".toList = some '"' ∧
      reference? "lt".toList = some '<' ∧ reference? "gt".toList = some '>' := by decide

/- The name of a reference is collected up to the semicolon. -/
theorem unescapeName {name : List Char} (ends : ';' ∉ name) (begins : '&' ∉ name)
    (pending tail : List Char) : unescapeFrom (some pending) (name ++ ';' :: tail) = do
      let found ← reference? (pending.reverse ++ name)
      let others ← unescapeFrom none tail
      return found :: others := by
  induction name generalizing pending with
  | nil => rw [List.nil_append, unescapeFrom, if_pos rfl, List.append_nil]
  | cons c rest ih =>
    rw [List.mem_cons, not_or] at ends begins
    rw [List.cons_append, unescapeFrom, if_neg (Ne.symm ends.1), if_neg (Ne.symm begins.1),
      ih ends.2 begins.2, List.reverse_cons, List.append_assoc, List.singleton_append]

theorem unescapeEntity {name : List Char} {c : Char} (ends : ';' ∉ name) (begins : '&' ∉ name)
    (known : reference? name = some c) (tail : List Char) :
    unescapeFrom none ('&' :: name ++ ';' :: tail) = (unescapeFrom none tail).map (c :: ·) := by
  rw [List.cons_append, unescapeFrom, if_pos rfl, unescapeName ends begins, List.reverse_nil,
    List.nil_append, known]
  cases unescapeFrom none tail <;> rfl

theorem unescapeCharacter (c : Char) (tail : List Char) :
    unescapeFrom none (Element.escape c ++ tail) = (unescapeFrom none tail).map (c :: ·) := by
  obtain ⟨amp, quot, lt, gt⟩ := entities
  unfold Element.escape
  split
  · exact unescapeEntity (by decide) (by decide) amp tail
  · exact unescapeEntity (by decide) (by decide) quot tail
  · exact unescapeEntity (by decide) (by decide) lt tail
  · exact unescapeEntity (by decide) (by decide) gt tail
  · rename_i other _ _ _
    rw [List.singleton_append, unescapeFrom, if_neg other]

theorem unescapeEscaped (text : String) :
    unescape (Element.escapeText text).toList = .ok text.toList := by
  have read : ∀ cs : List Char, unescapeFrom none (cs.flatMap Element.escape) = some cs := by
    intro cs
    induction cs with
    | nil => rw [List.flatMap_nil, unescapeFrom]
    | cons c rest ih => rw [List.flatMap_cons, unescapeCharacter, ih, Option.map_some]
  rw [Element.escapeText, String.toList_ofList, unescape, read]

theorem escapedPlain {text : String} {c : Char} (member : c ∈ (Element.escapeText text).toList) :
    c ≠ '"' := by
  rw [Element.escapeText, String.toList_ofList] at member
  obtain ⟨d, _, inside⟩ := List.mem_flatMap.mp member
  have marks : ∀ mark ∈ ["&amp;", "&quot;", "&lt;", "&gt;"], '"' ∉ mark.toList := by decide
  rintro rfl
  unfold Element.escape at inside
  split at inside
  · exact marks _ (by simp) inside
  · exact marks _ (by simp) inside
  · exact marks _ (by simp) inside
  · exact marks _ (by simp) inside
  · rename_i _ quote _ _
    exact quote (List.mem_singleton.mp inside).symm

def Plain (name : String) : Prop :=
  name.toList ≠ [] ∧ ∀ c ∈ name.toList, isSpace c = false ∧ c ∉ ['=', '>', '"', '\'']

instance (name : String) : Decidable (Plain name) :=
  @instDecidableAnd _ _ instDecidableNot (List.decidableBAll _ _)

/- Text inside a tag that does not end the tag and leaves no quote open. -/
def Whole (cs : List Char) : Prop :=
  ∀ tail, cutTag? none (cs ++ tail) = (cutTag? none tail).map fun p => (cs ++ p.1, p.2)

theorem wholeNil : Whole [] := by
  intro tail
  simp

theorem wholeAppend {xs ys : List Char} (left : Whole xs) (right : Whole ys) :
    Whole (xs ++ ys) := by
  intro tail
  rw [List.append_assoc, left, right, Option.map_map]
  simp only [Function.comp_def, List.append_assoc]

theorem wholeOther {c : Char} (ends : c ≠ '>') (single : c ≠ '\'') (double : c ≠ '"') :
    Whole [c] := by
  intro tail
  rw [List.singleton_append, cutTag?.eq_def]
  simp only [if_neg ends, if_neg (not_or.mpr ⟨single, double⟩), List.singleton_append]

theorem wholeEach {cs : List Char} (each : ∀ c ∈ cs, Whole [c]) : Whole cs := by
  induction cs with
  | nil => exact wholeNil
  | cons c rest ih =>
    obtain ⟨first, others⟩ := List.forall_mem_cons.mp each
    exact wholeAppend first (ih others)

theorem wholePlain {name : String} (plain : Plain name) : Whole name.toList := by
  refine wholeEach fun c member => ?_
  have marks := (plain.2 c member).2
  simp only [List.mem_cons, List.not_mem_nil, or_false, not_or] at marks
  exact wholeOther marks.2.1 marks.2.2.2 marks.2.2.1

theorem wholeQuoted {value : List Char} (inside : ∀ c ∈ value, c ≠ '"') :
    Whole ('"' :: value ++ ['"']) := by
  intro tail
  have closes : ∀ cs : List Char, (∀ c ∈ cs, c ≠ '"') → cutTag? (some '"') (cs ++ '"' :: tail) =
      (cutTag? none tail).map fun p => (cs ++ '"' :: p.1, p.2) := by
    intro cs plain
    induction cs with
    | nil => rfl
    | cons c rest ih =>
      obtain ⟨other, others⟩ := List.forall_mem_cons.mp plain
      rw [List.cons_append, cutTag?.eq_def]
      simp only [if_neg other, ih others, Option.map_map, Function.comp_def, List.cons_append]
  rw [List.append_assoc, List.cons_append, List.singleton_append, cutTag?.eq_def]
  simp only [show ¬ '"' = '>' by decide, or_true, if_true, if_false, closes value inside,
    Option.map_map, Function.comp_def, List.cons_append, List.append_assoc, List.nil_append]

def attributeChars (a : String × String) : List Char :=
  ' ' :: a.1.toList ++ '=' :: ('"' :: (Element.escapeText a.2).toList ++ ['"'])

theorem attributesChars (attributes : List (String × String)) :
    (Text.concat (attributes.map Element.attributeText)).toList =
      attributes.flatMap attributeChars := by
  induction attributes with
  | nil => rfl
  | cons a rest ih =>
    rw [List.map_cons, Text.concat, String.toList_append, ih, List.flatMap_cons]
    simp [Element.attributeText, attributeChars]

theorem wholeAttributes {attributes : List (String × String)}
    (plain : ∀ a ∈ attributes, Plain a.1) : Whole (attributes.flatMap attributeChars) := by
  induction attributes with
  | nil => exact wholeNil
  | cons a rest ih =>
    obtain ⟨first, others⟩ := List.forall_mem_cons.mp plain
    have blank : Whole [' '] := wholeOther (by decide) (by decide) (by decide)
    have sign : Whole ['='] := wholeOther (by decide) (by decide) (by decide)
    have value : Whole ('"' :: (Element.escapeText a.2).toList ++ ['"']) :=
      wholeQuoted fun _ => escapedPlain
    have own := wholeAppend (wholeAppend blank (wholePlain first)) (wholeAppend sign value)
    rw [List.singleton_append, List.singleton_append, ← attributeChars] at own
    rw [List.flatMap_cons]
    exact wholeAppend own (ih others)

theorem takenName {name : List Char} {p : Char → Bool} {mark : Char}
    (plain : ∀ c ∈ name, p c = true) (ends : p mark = false) (tail : List Char) :
    (name ++ mark :: tail).takeWhile p = name ∧
      (name ++ mark :: tail).dropWhile p = mark :: tail := by
  rw [List.takeWhile_append_of_pos plain, List.dropWhile_append_of_pos plain]
  simp [ends]

theorem stepWritten {c : Char} {name value : List Char}
    (plain : ∀ d ∈ name, isSpace d = false ∧ d ≠ '=') (inside : ∀ d ∈ value, d ≠ '"')
    (tail : List Char) :
    ∃ found, attributeStep c (name ++ '=' :: ('"' :: value ++ ['"']) ++ tail) = .ok found ∧
      found.name = c :: name ∧ found.raw = value ∧ found.rest = tail := by
  have split : name ++ '=' :: ('"' :: value ++ ['"']) ++ tail =
      name ++ '=' :: '"' :: (value ++ '"' :: tail) := by simp
  rw [split]
  have parts : ∀ d ∈ name, (d != '=' && !isSpace d) = true := by
    intro d member
    obtain ⟨blank, sign⟩ := plain d member
    simp [blank, sign]
  obtain ⟨taken, left⟩ := takenName parts (show ('=' != '=' && !isSpace '=') = false by decide)
    ('"' :: (value ++ '"' :: tail))
  have sign : List.dropWhile isSpace ('=' :: '"' :: (value ++ '"' :: tail)) =
      '=' :: '"' :: (value ++ '"' :: tail) := rfl
  have quote : List.dropWhile isSpace ('"' :: (value ++ '"' :: tail)) =
      '"' :: (value ++ '"' :: tail) := rfl
  unfold attributeStep
  simp only [taken]
  split
  · rename_i more same
    rw [left, sign] at same
    obtain rfl := (List.cons.inj same).2
    split
    · rename_i mark rest same
      rw [quote] at same
      obtain ⟨rfl, rfl⟩ := List.cons.inj same
      rw [if_pos (.inl rfl)]
      split
      · rename_i raw after cut
        rw [Text.cutFirstCharsAppend (fun member => inside _ member rfl)] at cut
        cases cut
        exact ⟨_, rfl, rfl, rfl, rfl⟩
      · rename_i cut
        rw [Text.cutFirstCharsAppend (fun member => inside _ member rfl)] at cut
        cases cut
    · rename_i same
      rw [quote] at same
      cases same
  · rename_i other
    rw [left, sign] at other
    exact absurd rfl (other _)

theorem attributesWritten {tag : String} {attributes : List (String × String)} {seen : List String}
    (plain : ∀ a ∈ attributes, Plain a.1) (distinct : (attributes.map Prod.fst).Nodup)
    (fresh : ∀ a ∈ attributes, a.1 ∉ seen) :
    attributesFrom tag seen (attributes.flatMap attributeChars) = .ok attributes := by
  induction attributes generalizing seen with
  | nil => rw [List.flatMap_nil, attributesFrom, List.dropWhile_nil]
  | cons a rest ih =>
    obtain ⟨⟨name, parts⟩, others⟩ := List.forall_mem_cons.mp plain
    obtain ⟨unseen, later⟩ := List.forall_mem_cons.mp fresh
    rw [List.map_cons, List.nodup_cons] at distinct
    obtain ⟨c, cs, spelled⟩ := List.exists_cons_of_ne_nil name
    rw [spelled] at parts
    obtain ⟨⟨blank, _⟩, inner⟩ := List.forall_mem_cons.mp parts
    have signs : ∀ d ∈ cs, isSpace d = false ∧ d ≠ '=' := by
      intro d member
      obtain ⟨space, marks⟩ := inner d member
      exact ⟨space, fun same => marks (by simp [same])⟩
    have value : ∀ d ∈ (Element.escapeText a.2).toList, d ≠ '"' := fun _ => escapedPlain
    obtain ⟨found, stepped, named, raw, left⟩ :=
      stepWritten (c := c) signs value (rest.flatMap attributeChars)
    have written : (a :: rest).flatMap attributeChars = ' ' :: c ::
        (cs ++ '=' :: ('"' :: (Element.escapeText a.2).toList ++ ['"']) ++
          rest.flatMap attributeChars) := by
      rw [List.flatMap_cons, attributeChars, spelled]
      simp
    have starts : List.dropWhile isSpace ((a :: rest).flatMap attributeChars) = c ::
        (cs ++ '=' :: ('"' :: (Element.escapeText a.2).toList ++ ['"']) ++
          rest.flatMap attributeChars) := by
      rw [written, List.dropWhile_cons_of_pos (by decide),
        List.dropWhile_cons_of_neg (by simp [blank])]
    have unlike : ∀ b ∈ rest, b.1 ∉ a.1 :: seen := by
      intro b member before
      rcases List.mem_cons.mp before with same | earlier
      · exact distinct.1 (same ▸ List.mem_map_of_mem member)
      · exact later b member earlier
    have again := ih others distinct.2 unlike
    have unread : String.ofList found.name = a.1 := by
      rw [named, ← spelled, String.ofList_toList]
    rw [attributesFrom]
    split
    · rename_i same
      rw [starts] at same
      cases same
    · rename_i d more same
      rw [starts] at same
      cases same
      rw [stepped]
      simp only [bind, Except.bind, unread, raw, left, unescapeEscaped, again,
        List.contains_iff_mem, unseen, if_false]
      rw [String.ofList_toList]
      rfl

theorem openWritten {tag : String} {attributes : List (String × String)} (name : Plain tag)
    (plain : ∀ a ∈ attributes, Plain a.1) (distinct : (attributes.map Prod.fst).Nodup) :
    openTag (tag.toList ++ attributes.flatMap attributeChars) =
      .ok { name := tag, attributes } := by
  have parts : ∀ c ∈ tag.toList, (!isSpace c) = true := by
    intro c member
    rw [(name.2 c member).1]
    rfl
  have behind : (attributes.flatMap attributeChars).takeWhile (!isSpace ·) = [] ∧
      (attributes.flatMap attributeChars).dropWhile (!isSpace ·) =
        attributes.flatMap attributeChars := by
    cases attributes with
    | nil => exact ⟨rfl, rfl⟩
    | cons a rest => exact ⟨rfl, rfl⟩
  unfold openTag
  rw [List.takeWhile_append_of_pos parts, List.dropWhile_append_of_pos parts, behind.1, behind.2,
    List.append_nil, String.ofList_toList]
  have unseen : ∀ a ∈ attributes, a.1 ∉ ([] : List String) := by simp
  simp only [attributesWritten plain distinct unseen]
  rfl

/- By its first character a tag is no comment, no instruction and no end tag. -/
theorem stepTag {c : Char} {cs inside text tail : List Char} (begins : inside = c :: cs)
    (starts : c ∉ ['!', '?', '/']) (whole : Whole inside) (written : text = inside ++ '>' :: tail) :
    ∃ found, step '<' text = .ok found ∧ found.event = tagEvent inside ∧ found.rest = tail := by
  have cut : cutTag? none text = some (inside, tail) := by
    rw [written, whole, cutTag?.eq_def]
    simp
  have other : ∀ d rest, text = d :: rest → d ∉ ['!', '?', '/'] := by
    intro d rest same
    rw [written, begins] at same
    rw [← (List.cons.inj same).1]
    exact starts
  unfold step
  rw [if_pos rfl]
  split
  · exact absurd (by decide) (other _ _ rfl)
  · exact absurd (by decide) (other _ _ rfl)
  · exact absurd (by decide) (other _ _ rfl)
  · split
    · rename_i same
      rw [cut] at same
      cases same
      exact ⟨_, rfl, rfl, rfl⟩
    · rename_i same
      rw [cut] at same
      cases same

theorem stepEnd {name : String} (plain : Plain name) (tail : List Char) :
    ∃ found, step '<' ('/' :: name.toList ++ '>' :: tail) = .ok found ∧
      found.event = .closing name.toList ∧ found.rest = tail := by
  have cut : cutTag? none (name.toList ++ '>' :: tail) = some (name.toList, tail) := by
    rw [wholePlain plain, cutTag?.eq_def]
    simp
  have last : closingName name.toList = name.toList := by
    have kept : name.toList.reverse.dropWhile isSpace = name.toList.reverse := by
      cases split : name.toList.reverse with
      | nil => rfl
      | cons c rest =>
        have member : c ∈ name.toList := List.mem_reverse.mp (split ▸ List.mem_cons_self)
        rw [List.dropWhile_cons_of_neg (by simp [(plain.2 c member).1])]
    rw [closingName, kept, List.reverse_reverse, ite_self]
  unfold step
  rw [if_pos rfl]
  simp only [List.cons_append]
  split
  · rename_i inside rest same
    rw [cut] at same
    cases same
    exact ⟨_, rfl, by rw [last], rfl⟩
  · rename_i same
    rw [cut] at same
    cases same

theorem closedTag (inside : List Char) : tagEvent (inside ++ ['/']) = .closed inside := by
  rw [tagEvent, List.reverse_append]
  simp

/- A quote stands at the end of the last attribute. -/
theorem openingTag {tag : List Char} {attributes : List (String × String)}
    (plain : ∀ c ∈ tag, c ∉ ['!', '?', '/']) :
    tagEvent (tag ++ attributes.flatMap attributeChars) =
      .opening (tag ++ attributes.flatMap attributeChars) := by
  unfold tagEvent
  split
  · rename_i content same
    rcases List.eq_nil_or_concat attributes with rfl | ⟨others, last, rfl⟩
    · rw [List.flatMap_nil, List.append_nil] at same
      have member : '/' ∈ tag := List.mem_reverse.mp (same ▸ List.mem_cons_self)
      exact absurd (by decide) (plain '/' member)
    · simp [attributeChars] at same
  · rfl

theorem readStep {p : Progress} {c : Char} {rest tail : List Char} {event : Event}
    (stepped : ∃ found, step c rest = .ok found ∧ found.event = event ∧ found.rest = tail) :
    readFrom p (c :: rest) = p.take event >>= (readFrom · tail) := by
  obtain ⟨found, ok, rfl, rfl⟩ := stepped
  rw [readFrom, ok]
  rfl

end Markup

namespace Element
open Markup (Plain Frame Progress attributeChars readFrom readStep stepTag)

mutual

def asNode : Element → Node
  | ⟨kind, id, isExported, isInjected, styles, properties, tooling, layout, actions, children⟩ =>
    let e : Element :=
      ⟨kind, id, isExported, isInjected, styles, properties, tooling, layout, actions, []⟩
    { name := kind.tag, attributes := e.writtenAttributes, children := asNodes children }

def asNodes : List Element → List Node
  | [] => []
  | e :: rest => e.asNode :: asNodes rest

end

theorem asNodeSplit (e : Element) : e.asNode =
    { name := e.kind.tag, attributes := e.writtenAttributes, children := asNodes e.children } := by
  cases e
  rw [asNode]
  rfl

def tagChars (e : Element) : List Char :=
  e.kind.tag.toList ++ e.writtenAttributes.flatMap attributeChars

theorem serializeChars (e : Element) : e.serialize.toList =
    if e.children.isEmpty then '<' :: (e.tagChars ++ ['/'] ++ ['>'])
    else '<' :: (e.tagChars ++ '>' ::
      ((serializeAll e.children).toList ++ '<' :: ('/' :: e.kind.tag.toList ++ ['>']))) := by
  cases e with
  | mk kind id isExported isInjected styles properties tooling layout actions children =>
    rw [serialize]
    simp only [String.toList_append, Markup.attributesChars]
    split
    · simp [tagChars, writtenAttributes]
    · simp [tagChars, writtenAttributes]

inductive Writable : Element → Prop where
  | mk {e : Element} (tag : Plain e.kind.tag) (mark : ∀ c ∈ e.kind.tag.toList, c ∉ ['!', '?', '/'])
      (names : ∀ a ∈ e.writtenAttributes, Plain a.1)
      (distinct : (e.writtenAttributes.map Prod.fst).Nodup)
      (children : ∀ child ∈ e.children, Writable child) : Writable e

theorem readAllSerialized {es : List Element}
    (each : ∀ e ∈ es, ∀ p tail,
      readFrom p (e.serialize.toList ++ tail) = p.add e.asNode >>= (readFrom · tail))
    (frame : Frame) (outer : List Frame) (root : Option Node) (tail : List Char) :
    readFrom ⟨frame :: outer, root⟩ ((serializeAll es).toList ++ tail) =
      readFrom ⟨{ frame with children := (asNodes es).reverse ++ frame.children } :: outer, root⟩
        tail := by
  induction es generalizing frame with
  | nil => rw [serializeAll, asNodes]; rfl
  | cons e rest ih =>
    obtain ⟨first, others⟩ := List.forall_mem_cons.mp each
    rw [serializeAll, String.toList_append, List.append_assoc, first, asNodes, List.reverse_cons,
      List.append_assoc, List.singleton_append]
    exact ih others _

theorem readSerialized {e : Element} (written : e.Writable) (p : Progress) (tail : List Char) :
    readFrom p (e.serialize.toList ++ tail) = p.add e.asNode >>= (readFrom · tail) := by
  induction written generalizing p tail with
  | @mk e tag mark names distinct children ih =>
    have opened : Markup.openTag e.tagChars =
        .ok { name := e.kind.tag, attributes := e.writtenAttributes } :=
      Markup.openWritten tag names distinct
    have whole : Markup.Whole e.tagChars :=
      Markup.wholeAppend (Markup.wholePlain tag) (Markup.wholeAttributes names)
    obtain ⟨c, cs, begins⟩ := List.exists_cons_of_ne_nil tag.1
    have starts : c ∉ ['!', '?', '/'] := mark c (begins ▸ List.mem_cons_self)
    have inside : e.tagChars = c :: (cs ++ e.writtenAttributes.flatMap attributeChars) := by
      rw [tagChars, begins, List.cons_append]
    rw [serializeChars, asNodeSplit]
    split
    · rename_i leaf
      have slash : Markup.Whole ['/'] := Markup.wholeOther (by decide) (by decide) (by decide)
      have text : e.tagChars ++ ['/'] ++ ['>'] ++ tail = e.tagChars ++ ['/'] ++ '>' :: tail := by
        simp
      have stepped := stepTag (congrArg (· ++ ['/']) inside) starts
        (Markup.wholeAppend whole slash) text
      rw [Markup.closedTag] at stepped
      rw [List.cons_append, readStep stepped, Progress.take, opened, List.isEmpty_iff.mp leaf,
        asNodes]
      rfl
    · have text : e.tagChars ++ '>' :: ((serializeAll e.children).toList ++
          '<' :: ('/' :: e.kind.tag.toList ++ ['>'])) ++ tail = e.tagChars ++ '>' ::
          ((serializeAll e.children).toList ++
            '<' :: ('/' :: e.kind.tag.toList ++ '>' :: tail)) := by simp
      have stepped := stepTag inside starts whole text
      rw [tagChars, Markup.openingTag mark, ← tagChars] at stepped
      have ended := Markup.stepEnd tag tail
      have closed : Frame.close ⟨⟨e.kind.tag, e.writtenAttributes, [], ""⟩,
          (asNodes e.children).reverse ++ [], []⟩ =
          { name := e.kind.tag, attributes := e.writtenAttributes,
            children := asNodes e.children } := by
        simp [Frame.close]
      rw [List.cons_append, readStep stepped, Progress.take, opened]
      change readFrom ⟨⟨⟨e.kind.tag, e.writtenAttributes, [], ""⟩, [], []⟩ :: p.stack, p.root⟩ _ = _
      rw [readAllSerialized ih, readStep ended, Progress.take]
      simp only [if_true, closed]

/- The markup of an element is a document with the element at its root. -/
theorem parseSerialized {e : Element} (written : e.Writable) :
    Markup.parse e.serialize = .ok e.asNode := by
  have first : Markup.dropByteOrderMark e.serialize.toList = e.serialize.toList := by
    rw [serializeChars]
    split <;> rfl
  have read : readFrom {} e.serialize.toList = .ok e.asNode := by
    rw [← List.append_nil e.serialize.toList, readSerialized written]
    change readFrom { root := some e.asNode } [] = _
    rw [readFrom]
    rfl
  rw [Markup.parse, first, read]

end Element
end ViewForge
