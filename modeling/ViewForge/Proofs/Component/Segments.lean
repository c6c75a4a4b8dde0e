import Mathlib.Data.List.Chain
import Mathlib.Data.List.Induction
import ViewForge.Proofs.Code
import ViewForge.Proofs.Layout.Plan
import ViewForge.Proofs.Ordered
import ViewForge.Proofs.Token
import ViewForge.Source.Component

/-! Templates cut at their placeholders. A placeholder has braces at its ends only, so two of them
never overlap, and there is one way to cut a text into placeholders and texts without any. The
parameters of the generated function are the names that the cut gives. -/
namespace ViewForge
open Code (Expr)
open Markup (Node)

namespace Template
open Text (isBlank isAsciiLetter isAsciiDigit isNamePart)

/-- What a placeholder for an argument is written as: its name between double braces, with blanks
on either side of the name. -/
inductive Placeholder (name : List Char) : List Char → Prop where
  | mk {c : Char} {rest before after : List Char} (spelled : name = c :: rest)
      (start : isArgumentStart c = true) (parts : ∀ d ∈ rest, isArgumentPart d = true)
      (blanks : ∀ d ∈ before ++ after, isBlank d = true) :
      Placeholder name
        ('\x7b' :: '\x7b' :: (before ++ (name ++ (after ++ ['\x7d', '\x7d']))))

theorem partName {c : Char} (part : isArgumentPart c = true) : isNamePart c = true := by
  simp only [isArgumentPart, isArgumentStart, Bool.or_eq_true] at part
  rcases part with (letter | score) | digit
  · simp [isNamePart, Text.isAlphanumeric, Text.letterAlphabetic letter]
  · simp [isNamePart, score]
  · have ascii : c.toNat < 128 := by
      have code := Text.digitCode digit
      omega
    simp [isNamePart, Text.isAlphanumeric, Text.isNumeric, ascii, digit]

theorem startPart {c : Char} (start : isArgumentStart c = true) : isArgumentPart c = true := by
  simp [isArgumentPart, start]

theorem partNoBlank {c : Char} (part : isArgumentPart c = true) : isBlank c = false :=
  Text.partBlank (partName part)

/- Blanks and the characters of a name end where the other begin, and at a brace. -/
theorem placeholderRead {name source : List Char} (written : Placeholder name source)
    (tail : List Char) : placeholder? (source ++ tail) = some (name, tail) := by
  obtain ⟨rfl, start, parts, blanks⟩ := written
  rename_i c rest before after
  obtain ⟨front, back⟩ := List.forall_mem_append.mp blanks
  have closes : (after ++ '\x7d' :: '\x7d' :: tail).dropWhile isBlank = '\x7d' :: '\x7d' :: tail := by
    rw [List.dropWhile_append_of_pos back, List.dropWhile_cons_of_neg (by decide)]
  have named : (rest ++ (after ++ '\x7d' :: '\x7d' :: tail)).takeWhile isArgumentPart = rest ∧
      (rest ++ (after ++ '\x7d' :: '\x7d' :: tail)).dropWhile isArgumentPart =
        after ++ '\x7d' :: '\x7d' :: tail := by
    rw [List.takeWhile_append_of_pos parts, List.dropWhile_append_of_pos parts]
    cases after with
    | nil =>
      rw [List.nil_append, List.takeWhile_cons_of_neg (by decide),
        List.dropWhile_cons_of_neg (by decide), List.append_nil]
      exact ⟨rfl, rfl⟩
    | cons d others =>
      have other : ¬ isArgumentPart d = true := by
        intro part
        have blank := back d List.mem_cons_self
        rw [partNoBlank part] at blank
        cases blank
      rw [List.cons_append, List.takeWhile_cons_of_neg other, List.dropWhile_cons_of_neg other,
        List.append_nil]
      exact ⟨rfl, rfl⟩
  have opens : (before ++ (c :: rest ++ (after ++ '\x7d' :: '\x7d' :: tail))).dropWhile isBlank =
      c :: (rest ++ (after ++ '\x7d' :: '\x7d' :: tail)) := by
    rw [List.dropWhile_append_of_pos front, List.cons_append,
      List.dropWhile_cons_of_neg (by simp [partNoBlank (startPart start)])]
  have whole : '\x7b' :: '\x7b' :: (before ++ (c :: rest ++ (after ++ ['\x7d', '\x7d']))) ++ tail =
      '\x7b' :: '\x7b' :: (before ++ (c :: rest ++ (after ++ '\x7d' :: '\x7d' :: tail))) := by
    simp
  rw [whole, placeholder?]
  simp only [opens, start, if_true, named, closes]

theorem placeholderFound {cs name tail : List Char} (found : placeholder? cs = some (name, tail)) :
    ∃ source, Placeholder name source ∧ cs = source ++ tail := by
  unfold placeholder? at found
  split at found <;> try contradiction
  rename_i rest
  split at found <;> try contradiction
  rename_i c more opens
  split at found <;> try contradiction
  rename_i start
  split at found <;> try contradiction
  rename_i closes
  cases found
  have parts : ∀ d ∈ more.takeWhile isArgumentPart, isArgumentPart d = true :=
    fun _ => List.mem_takeWhile_imp
  have blanks : ∀ d ∈ rest.takeWhile isBlank ++ (more.dropWhile isArgumentPart).takeWhile isBlank,
      isBlank d = true :=
    List.forall_mem_append.mpr ⟨fun _ => List.mem_takeWhile_imp, fun _ => List.mem_takeWhile_imp⟩
  refine ⟨_, .mk rfl start parts blanks, ?_⟩
  have left := List.takeWhile_append_dropWhile (p := isBlank) (l := rest)
  have inner := List.takeWhile_append_dropWhile (p := isArgumentPart) (l := more)
  have right := List.takeWhile_append_dropWhile (p := isBlank)
    (l := more.dropWhile isArgumentPart)
  rw [opens] at left
  rw [closes] at right
  simp only [List.cons_append, List.append_assoc, List.nil_append, right, inner, left]

/- Behind its two opening braces a placeholder has no other. -/
theorem placeholderBraces {name source : List Char} (written : Placeholder name source) :
    ∃ inner, source = '\x7b' :: '\x7b' :: inner ∧ inner ≠ [] ∧ '\x7b' ∉ inner := by
  obtain ⟨rfl, start, parts, blanks⟩ := written
  rename_i c rest before after
  obtain ⟨front, back⟩ := List.forall_mem_append.mp blanks
  refine ⟨_, rfl, by simp, ?_⟩
  intro member
  simp only [List.mem_append, List.mem_cons, List.not_mem_nil, or_false] at member
  rcases member with inside | (rfl | inside) | inside | same | same
  · exact absurd (front _ inside) (by decide)
  · exact absurd start (by decide)
  · exact absurd (parts _ inside) (by decide)
  · exact absurd (back _ inside) (by decide)
  · exact absurd same (by decide)
  · exact absurd same (by decide)

/- A placeholder does not begin before another and end in it. -/
theorem placeholdersApart {name other left right tail rest before : List Char}
    (first : Placeholder name (before ++ left)) (second : Placeholder other right)
    (inside : before ≠ []) (overlap : left ≠ []) (same : left ++ tail = right ++ rest) : False := by
  obtain ⟨inner, braces, filled, plain⟩ := placeholderBraces first
  obtain ⟨more, rfl, _, _⟩ := placeholderBraces second
  obtain ⟨d, ds, rfl⟩ := List.exists_cons_of_ne_nil overlap
  obtain ⟨b, bs, rfl⟩ := List.exists_cons_of_ne_nil inside
  simp only [List.cons_append, List.cons.injEq] at braces same
  obtain ⟨rfl, later⟩ := same
  cases bs with
  | nil =>
    obtain ⟨e, es, rfl⟩ := List.exists_cons_of_ne_nil filled
    simp only [List.nil_append, List.cons.injEq] at braces
    obtain ⟨-, -, rfl⟩ := braces
    rw [List.cons_append, List.cons.injEq] at later
    exact plain (by simp [later.1])
  | cons e es =>
    simp only [List.cons_append, List.cons.injEq] at braces
    exact plain (by simp [← braces.2.2])

end Template

namespace Segment

def text? : Segment → Option String
  | text s => some s
  | argument _ => none

def argument? : Segment → Option String
  | text _ => none
  | argument name => some name

end Segment

namespace Template

inductive Joins : List Segment → List Char → Prop where
  | nil : Joins [] []
  | text (s : String) {segments : List Segment} {cs : List Char} (others : Joins segments cs) :
      Joins (.text s :: segments) (s.toList ++ cs)
  | argument {name : String} {source : List Char} {segments : List Segment} {cs : List Char}
      (written : Placeholder name.toList source) (others : Joins segments cs) :
      Joins (.argument name :: segments) (source ++ cs)

/-- The segments are the text cut at every placeholder and nowhere else. -/
structure Cuts (segments : List Segment) (cs : List Char) : Prop where
  joins : Joins segments cs
  filled : ∀ s, .text s ∈ segments → s ≠ ""
  apart : segments.IsChain fun a b => a.text?.isSome → b.text? = none
  plain : ∀ s, .text s ∈ segments → ∀ name source, Placeholder name source →
    ¬ source <:+: s.toList

/- No placeholder begins in the first part and has its end in the second, or before. -/
def Clear (first second : List Char) : Prop :=
  ∀ before after, first = before ++ after → after ≠ [] → placeholder? (after ++ second) = none

theorem clearNil (cs : List Char) : Clear [] cs := by
  intro before after split inside
  exact absurd (List.append_eq_nil_iff.mp split.symm).2 inside

theorem clearNext {first second : List Char} {c : Char} (clear : Clear first (c :: second))
    (none : placeholder? (c :: second) = none) : Clear (first ++ [c]) second := by
  intro before after split inside
  rcases List.eq_nil_or_concat after with rfl | ⟨rest, last, rfl⟩
  · exact absurd rfl inside
  · rw [List.concat_eq_append] at split ⊢
    rw [← List.append_assoc] at split
    obtain ⟨same, ends⟩ := List.append_inj' split rfl
    obtain rfl := List.singleton_inj.mp ends
    rw [List.append_assoc, List.singleton_append]
    cases rest with
    | nil => exact none
    | cons d ds => exact clear before (d :: ds) same (List.cons_ne_nil d ds)

theorem clearPlain {first second name source : List Char} (clear : Clear first second)
    (written : Placeholder name source) : ¬ source <:+: first := by
  rintro ⟨before, after, rfl⟩
  have filled : source ++ after ≠ [] := by
    obtain ⟨inner, rfl, _⟩ := placeholderBraces written
    exact List.cons_ne_nil _ _
  have none := clear before (source ++ after) (List.append_assoc ..) filled
  rw [List.append_assoc, placeholderRead written] at none
  cases none

theorem segmentsFound {pending cs name tail : List Char}
    (found : placeholder? cs = some (name, tail)) : segmentsFrom pending cs =
      textSegment pending ++ .argument (String.ofList name) :: segmentsFrom [] tail := by
  rw [segmentsFrom]
  split
  · rename_i same
    cases found.symm.trans same
    rfl
  · rename_i none
    cases found.symm.trans none

theorem segmentsEnd (pending : List Char) : segmentsFrom pending [] = textSegment pending := by
  rw [segmentsFrom]
  rfl

theorem segmentsNext {pending rest : List Char} {c : Char} (none : placeholder? (c :: rest) = none) :
    segmentsFrom pending (c :: rest) = segmentsFrom (pending ++ [c]) rest := by
  rw [segmentsFrom]
  split
  · rename_i found
    cases none.symm.trans found
  · rfl

theorem cutsText {pending cs : List Char} {segments : List Segment} (clear : Clear pending cs)
    (cuts : Cuts segments cs) (first : ∀ s ∈ segments.head?, s.text? = none) :
    Cuts (textSegment pending ++ segments) (pending ++ cs) := by
  unfold textSegment
  split
  · rename_i empty
    rw [List.isEmpty_iff.mp empty]
    exact cuts
  · rename_i filled
    rw [List.singleton_append]
    refine ⟨?_, ?_, ?_, ?_⟩
    · have joins := Joins.text (String.ofList pending) cuts.joins
      rwa [String.toList_ofList] at joins
    · intro s member
      rcases List.mem_cons.mp member with same | later
      · obtain rfl := Segment.text.inj same
        rintro none
        rw [List.isEmpty_iff, ← String.toList_ofList (l := pending), none] at filled
        exact filled rfl
      · exact cuts.filled s later
    · refine List.isChain_cons.mpr ⟨fun s member _ => first s member, cuts.apart⟩
    · intro s member name source written
      rcases List.mem_cons.mp member with same | later
      · obtain rfl := Segment.text.inj same
        rw [String.toList_ofList]
        exact clearPlain clear written
      · exact cuts.plain s later name source written

theorem cutsArgument {name source cs : List Char} {segments : List Segment}
    (written : Placeholder name source) (cuts : Cuts segments cs) :
    Cuts (.argument (String.ofList name) :: segments) (source ++ cs) where
  joins := .argument (by rwa [String.toList_ofList]) cuts.joins
  filled s member := cuts.filled s (by simpa using member)
  apart := List.isChain_cons.mpr ⟨fun _ _ text => (by cases text), cuts.apart⟩
  plain s member := cuts.plain s (by simpa using member)

/- The text since the last placeholder stays clear while it grows. -/
theorem cutsFrom {pending cs : List Char} (clear : Clear pending cs) :
    Cuts (segmentsFrom pending cs) (pending ++ cs) := by
  induction pending, cs using segmentsFrom.induct with
  | case1 pending cs name tail found ih =>
    obtain ⟨source, written, rfl⟩ := placeholderFound found
    rw [segmentsFound found]
    refine cutsText clear (cutsArgument written (ih (clearNil tail))) ?_
    rintro s ⟨⟩
    rfl
  | case2 pending none =>
    have empty : Cuts [] [] := ⟨.nil, by simp, .nil, by simp⟩
    rw [segmentsEnd, ← List.append_nil (textSegment pending)]
    exact cutsText clear empty (by simp)
  | case3 pending c rest none ih =>
    have cuts := ih (clearNext clear none)
    rw [List.append_assoc, List.singleton_append] at cuts
    rw [segmentsNext none]
    exact cuts

theorem segmentsClear {first second : List Char} (clear : Clear first second)
    (pending : List Char) :
    segmentsFrom pending (first ++ second) = segmentsFrom (pending ++ first) second := by
  induction first generalizing pending with
  | nil => rw [List.nil_append, List.append_nil]
  | cons c rest ih =>
    have none : placeholder? (c :: (rest ++ second)) = none :=
      clear [] (c :: rest) rfl (List.cons_ne_nil c rest)
    have later : Clear rest second := fun before after split inside =>
      clear (c :: before) after (by rw [split, List.cons_append]) inside
    rw [List.cons_append, segmentsNext none, ih later, List.append_assoc, List.singleton_append]

/- A placeholder that begins in a literal text ends in it, or else it overlaps the next one. -/
theorem clearText {s : String} {segments : List Segment} {cs : List Char}
    (cuts : Cuts (.text s :: segments) (s.toList ++ cs)) (joins : Joins segments cs) :
    Clear s.toList cs := by
  intro before after split inside
  by_contra some
  obtain ⟨⟨name, tail⟩, found⟩ := Option.ne_none_iff_exists'.mp some
  obtain ⟨source, written, same⟩ := placeholderFound found
  have plain := cuts.plain s List.mem_cons_self name source written
  rcases List.append_eq_append_iff.mp same with ⟨rest, whole, left⟩ | ⟨rest, rfl, _⟩
  · by_cases none : rest = []
    · subst none
      rw [List.append_nil] at whole
      exact plain ⟨before, [], by rw [List.append_nil, split, whole]⟩
    · cases joins with
      | nil => exact none (List.append_eq_nil_iff.mp left.symm).1
      | text other others =>
        have apart := (List.isChain_cons.mp cuts.apart).1 _ rfl rfl
        cases apart
      | argument next others =>
        exact placeholdersApart (whole ▸ written) next inside none left.symm
  · exact plain ⟨before, rest, by rw [split, List.append_assoc]⟩

theorem segmentsCut {segments : List Segment} {cs : List Char} (cuts : Cuts segments cs) :
    segmentsFrom [] cs = segments := by
  induction segments generalizing cs with
  | nil =>
    cases cuts.joins
    exact segmentsEnd []
  | cons segment rest ih =>
    have later : ∀ {ds}, Joins rest ds → Cuts rest ds := fun joins =>
      ⟨joins, fun s member => cuts.filled s (List.mem_cons_of_mem _ member),
        (List.isChain_cons.mp cuts.apart).2,
        fun s member => cuts.plain s (List.mem_cons_of_mem _ member)⟩
    cases joined : cuts.joins with
    | @argument name source _ ds written others =>
      rw [segmentsFound (placeholderRead written ds), ih (later others), String.ofList_toList]
      rfl
    | @text s _ ds others =>
      have filled : s.toList.isEmpty = false := by
        have named := cuts.filled s List.mem_cons_self
        simpa [List.isEmpty_iff] using named
      have text : textSegment s.toList = [.text s] := by
        rw [textSegment, filled, String.ofList_toList]
        rfl
      rw [segmentsClear (clearText cuts others), List.nil_append]
      have again := ih (later others)
      cases others with
      | nil => rw [segmentsEnd, text]
      | text other more =>
        have apart := (List.isChain_cons.mp cuts.apart).1 _ rfl rfl
        cases apart
      | @argument name source _ es written more =>
        rw [segmentsFound (placeholderRead written es)] at again ⊢
        rw [text, List.singleton_append]
        exact congrArg _ again

/- Both passes over a text meet the same placeholders. -/
theorem placeholdersSegments (pending cs : List Char) :
    (segmentsFrom pending cs).filterMap Segment.argument? = placeholders cs := by
  have text : ∀ cs : List Char, (textSegment cs).filterMap Segment.argument? = [] := by
    intro cs
    unfold textSegment
    split <;> rfl
  induction pending, cs using segmentsFrom.induct with
  | case1 pending cs name tail found ih =>
    have own : (Segment.argument (String.ofList name)).argument? = some (String.ofList name) := rfl
    rw [segmentsFound found, List.filterMap_append, text, List.nil_append,
      List.filterMap_cons_some own, ih, placeholders.eq_def cs]
    split
    · rename_i same
      cases found.symm.trans same
      rfl
    · rename_i none
      cases found.symm.trans none
  | case2 pending none =>
    rw [segmentsEnd, text, placeholders]
    rfl
  | case3 pending c rest none ih =>
    rw [segmentsNext none, ih, placeholders.eq_def (c :: rest)]
    split
    · rename_i found
      cases none.symm.trans found
    · rfl

theorem distinctFirst (names : List String) : distinct names = names.eraseDups := by
  induction names using List.reverseRecOn with
  | nil => rfl
  | append_singleton rest name ih =>
    have last : distinct (rest ++ [name]) =
        if (distinct rest).contains name then distinct rest else distinct rest ++ [name] := by
      rw [distinct, List.foldl_append, ← distinct]
      rfl
    rw [last, ih, Ordered.eraseDupsNext]
    simp only [List.contains_iff_mem, List.mem_eraseDups]

theorem textMentions (t : Template) (name : String) :
    t.textCode.mentions name = true ↔ name ∈ t.segments.filterMap Segment.argument? := by
  have sum : ∀ (es : List Expr) (first : Expr),
      (es.foldl (fun sum next => .binary sum "+" next) first).mentions name =
        (first :: es).any (·.mentions name) := by
    intro es
    induction es with
    | nil => simp
    | cons e rest ih => simp [ih, Expr.mentions, Bool.or_assoc]
  have each : ∀ s : Segment, (segmentCode s).mentions name = true ↔ s.argument? = some name := by
    intro s
    cases s <;> simp [segmentCode, Expr.string, Expr.mentions, Segment.argument?]
  have whole : t.textCode.mentions name = (t.segments.map segmentCode).any (·.mentions name) := by
    unfold textCode
    split
    · rename_i none
      rw [none]
      rfl
    · rename_i first rest same
      rw [sum, same]
  rw [whole, List.any_map, List.any_eq_true, List.mem_filterMap]
  exact exists_congr fun s => and_congr_right fun _ => each s

theorem readArguments {node : Node} {t : Template} (ok : read node = .ok t) :
    t.arguments = (t.segments.filterMap Segment.argument?).eraseDups := by
  have given : t.arguments = distinct (placeholders t.text.toList) := by
    unfold read at ok
    simp only at ok
    by_cases tag : node.name = "attributedText"
    · rw [if_neg (not_not.mpr tag)] at ok
      obtain ⟨name, _, ok⟩ := Result.bindOk.mp ok
      split at ok
      · obtain ⟨style, _, last⟩ := Result.bindOk.mp ok
        cases last
        rfl
      · cases ok
        rfl
    · rw [if_pos tag] at ok
      cases ok
  rw [given, segments, placeholdersSegments, distinctFirst]

theorem functionText {s : StyleSource} {t : Template} {f : Code.Function}
    (ok : t.function s = .ok f) : f.parameters.map (·.name) = t.arguments ∧
      ∃ attributes, f.body = [.ret (some ((Expr.identifier "NSAttributedString").apply [
        (some "string", t.textCode), (some "attributes", attributes)]))] := by
  have names : (t.arguments.map fun name => ({ name, typeName := "String" } : Code.Parameter)).map
      (·.name) = t.arguments := by
    rw [List.map_map]
    exact List.map_id _
  unfold function at ok
  simp only at ok
  split at ok
  · obtain ⟨attributes, _, last⟩ := Result.bindOk.mp ok
    cases last
    exact ⟨names, attributes, rfl⟩
  · cases ok
    exact ⟨names, .dictionary [], rfl⟩

/- The segments of a text are the one cut of it in which no literal text is empty, follows another
or has a placeholder in it. The arguments of a template are the names in it as they first come, and
they are what the code of the text reads and what the function takes. -/
theorem segmentsExactly : (∀ (t : Template) (segments : List Segment),
      Cuts segments t.text.toList ↔ segments = t.segments) ∧
    ∀ (node : Node) (t : Template), read node = .ok t →
      t.arguments = (t.segments.filterMap Segment.argument?).eraseDups ∧
      ∀ (s : StyleSource) (f : Code.Function), t.function s = .ok f →
        f.parameters.map (·.name) = t.arguments ∧ (f.parameters.map (·.name)).Nodup ∧
        ∃ text attributes, f.body = [.ret (some ((Expr.identifier "NSAttributedString").apply [
            (some "string", text), (some "attributes", attributes)]))] ∧
          ∀ name, text.mentions name = true ↔ name ∈ f.parameters.map (·.name) := by
  refine ⟨fun t segments => ⟨fun cuts => (segmentsCut cuts).symm, ?_⟩, fun node t ok => ?_⟩
  · rintro rfl
    exact cutsFrom (clearNil _)
  · have first := readArguments ok
    refine ⟨first, fun s f made => ?_⟩
    obtain ⟨named, attributes, body⟩ := functionText made
    refine ⟨named, ?_, t.textCode, attributes, body, fun name => ?_⟩
    · rw [named, first, ← distinctFirst]
      exact distinctNodup _
    · rw [named, first, List.mem_eraseDups]
      exact t.textMentions name

/- Of the three braces the last two begin a placeholder, two placeholders stand side by side, and one
of the names comes twice. -/
def greetingNode : Node :=
  { name := "attributedText", attributes := [("name", "greeting")]
    text := "\x7b\x7b\x7bfirst\x7d\x7d, \x7b\x7b last \x7d\x7d\x7b\x7bfirst\x7d\x7d" }

def greetingTemplate : Template :=
  (read greetingNode).toOption.getD { name := "", style := none, text := "", arguments := [] }

def greetingSource : StyleSource :=
  .ofGlobal { platform := .iOS, application := { themes := [], defaultTheme := "" } }
    { platform := .iOS } { name := "Greetings" }

theorem greetingComputed : (read greetingNode).isOk = true ∧
    (greetingTemplate.function greetingSource).isOk = true ∧
    greetingTemplate.segments = [.text "\x7b", .argument "first", .text ", ", .argument "last",
      .argument "first"] := by
  decide +kernel

theorem greetingSegments : ∃ f : Code.Function, read greetingNode = .ok greetingTemplate ∧
    greetingTemplate.function greetingSource = .ok f ∧
    (∀ segments, Cuts segments greetingTemplate.text.toList ↔
      segments = [.text "\x7b", .argument "first", .text ", ", .argument "last",
        .argument "first"]) ∧
    greetingTemplate.arguments = ["first", "last"] ∧
    f.parameters.map (·.name) = ["first", "last"] ∧
    ∃ text attributes, f.body = [.ret (some ((Expr.identifier "NSAttributedString").apply [
        (some "string", text), (some "attributes", attributes)]))] ∧
      ∀ name, text.mentions name = true ↔ name ∈ ["first", "last"] := by
  obtain ⟨readable, generated, segments⟩ := greetingComputed
  have ok : read greetingNode = .ok greetingTemplate := Result.okGetD readable _
  have made := Result.okGetD generated { access := .publicScope, name := "" }
  obtain ⟨cut, given⟩ := segmentsExactly
  obtain ⟨first, functions⟩ := given greetingNode greetingTemplate ok
  obtain ⟨named, _, text, attributes, body, reads⟩ := functions greetingSource _ made
  have arguments : greetingTemplate.arguments = ["first", "last"] := by
    rw [first, segments]
    decide
  rw [named, arguments] at reads
  refine ⟨_, ok, made, fun cuts => ?_, arguments, named.trans arguments, text, attributes, body,
    reads⟩
  rw [cut, segments]

end Template
end ViewForge
