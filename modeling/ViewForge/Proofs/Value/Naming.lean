import Mathlib.Data.List.DropRight
import ViewForge.Value.Type

/-! Types and the texts that name them. A text is looked up from the outside to the inside, so what
matters is that the text of a type has no blank at an end and is taken apart again by the marks it
was made with. The attribute name of a type found by a lookup is such a text, and so is its name in
generated code. -/
namespace ViewForge

namespace Text

def Tight (cs : List Char) : Prop :=
  (∀ c ∈ cs.head?, isBlank c = false) ∧ ∀ c ∈ cs.getLast?, isBlank c = false

/- One character is tested at each end, whatever else could decide a statement on all characters. -/
instance (cs : List Char) : Decidable (Tight cs) :=
  @instDecidableAnd _ _ (Option.decidableForallMem cs.head?) (Option.decidableForallMem cs.getLast?)

theorem trimTight {cs : List Char} (tight : Tight cs) : trimChars cs = cs := by
  have start : trimStart cs = cs := by
    refine List.dropWhile_eq_self_iff.mpr fun some' => ?_
    simpa using tight.1 cs[0] (by simp [List.head?_eq_getElem?, some'])
  have finish : trimEnd cs = cs := by
    refine List.rdropWhile_eq_self_iff.mpr fun some' => ?_
    simpa using tight.2 _ (List.getLast?_eq_some_getLast some')
  rw [trimChars, start, finish]

theorem tightTrimmed (cs : List Char) : Tight (trimChars cs) := by
  constructor
  · intro c first
    have before : trimChars cs <+: trimStart cs := List.rdropWhile_prefix isBlank _
    obtain ⟨rest, whole⟩ := before
    have head : (cs.dropWhile isBlank).head? = some c := by
      rw [← trimStart, ← whole, List.head?_append, first]
      rfl
    simpa [head] using List.head?_dropWhile_not isBlank cs
  · intro c last
    rw [trimChars, trimEnd, List.getLast?_reverse] at last
    simpa [Option.mem_def.mp last] using
      List.head?_dropWhile_not isBlank (trimStart cs).reverse

theorem tightMarked {cs : List Char} {mark : Char} (tight : Tight cs)
    (visible : isBlank mark = false) : Tight (cs ++ [mark]) := by
  constructor
  · intro c first
    rw [List.head?_append] at first
    cases here : cs.head? with
    | none => simp_all
    | some d => exact tight.1 c (by simp_all)
  · intro c last
    simp_all

theorem tightEnclosed {left right : Char} (cs : List Char) (opens : isBlank left = false)
    (closes : isBlank right = false) : Tight (left :: (cs ++ [right])) := by
  constructor
  · intro c first
    simp_all
  · intro c last
    rw [← List.cons_append, List.getLast?_concat] at last
    simp_all

end Text

namespace ValueType
open Text (Tight trimChars)

def IsLeaf (cs : List Char) : Prop :=
  Tight cs ∧ optionalPart? cs = none ∧ arrayPart? cs = none

instance (cs : List Char) : Decidable (IsLeaf cs) := inferInstanceAs (Decidable (_ ∧ _ ∧ _))

/-- The text is made from the text of a leaf with the marks of the type. -/
inductive Spells : List Char → ValueType → Prop where
  | leaf {cs : List Char} (leaf : IsLeaf cs) : Spells cs (ofLeaf (String.ofList cs))
  | optional {cs : List Char} {t : ValueType} (inner : Spells cs t) :
      Spells (cs ++ ['?']) (.optional t)
  | array {cs : List Char} {t : ValueType} (inner : Spells cs t) :
      Spells ('[' :: (cs ++ [']'])) (.array t)

section Lookup

variable {cs inner : List Char}

theorem lookupOptional (marked : optionalPart? (trimChars cs) = some inner) :
    lookupChars cs = .optional (lookupChars inner) := by
  rw [lookupChars]
  split <;> simp_all

theorem lookupArray (required : optionalPart? (trimChars cs) = none)
    (enclosed : arrayPart? (trimChars cs) = some inner) :
    lookupChars cs = .array (lookupChars inner) := by
  rw [lookupChars]
  split
  · simp_all
  · split <;> simp_all

theorem lookupLeaf (required : optionalPart? (trimChars cs) = none)
    (single : arrayPart? (trimChars cs) = none) :
    lookupChars cs = ofLeaf (String.ofList (trimChars cs)) := by
  rw [lookupChars]
  split
  · simp_all
  · split <;> simp_all

end Lookup

theorem spelledTight {cs : List Char} {t : ValueType} (spells : Spells cs t) : Tight cs := by
  induction spells with
  | leaf leaf => exact leaf.1
  | optional _ ih => exact Text.tightMarked ih (by decide)
  | array _ _ => exact Text.tightEnclosed _ (by decide) (by decide)

theorem spelledRead {cs : List Char} {t : ValueType} (spells : Spells cs t) :
    lookupChars cs = t := by
  have trimmed := Text.trimTight (spelledTight spells)
  induction spells with
  | leaf leaf =>
    obtain ⟨_, required, single⟩ := leaf
    rw [lookupLeaf (by rw [trimmed, required]) (by rw [trimmed, single]), trimmed]
  | @optional cs t inner ih =>
    have marked : optionalPart? (trimChars (cs ++ ['?'])) = some cs := by
      rw [trimmed]
      simp [optionalPart?]
    rw [lookupOptional marked, ih (Text.trimTight (spelledTight inner))]
  | @array cs t inner ih =>
    have required : optionalPart? (trimChars ('[' :: (cs ++ [']']))) = none := by
      rw [trimmed]
      simp [optionalPart?]
    have enclosed : arrayPart? (trimChars ('[' :: (cs ++ [']']))) = some cs := by
      rw [trimmed]
      simp [arrayPart?]
    rw [lookupArray required enclosed, ih (Text.trimTight (spelledTight inner))]

theorem spelledKnown {name : String} {t : ValueType} (known : ofLeaf name = t)
    (leaf : IsLeaf name.toList) : Spells name.toList t := by
  have spells := Spells.leaf leaf
  rwa [String.ofList_toList, known] at spells

theorem keywordSpelled (set : KeywordSet) : Spells set.name.toList (.keyword set) ∧
    Spells set.runtimeType.toList (.keyword set) := by
  cases set <;> exact ⟨spelledKnown (by decide) (by decide), spelledKnown (by decide) (by decide)⟩

/- Only a name that stands for nothing else is kept, and then as it is. -/
theorem leafKinds (text : String) : (∀ name, ofLeaf text = .foreign name → name = text) ∧
    (∀ t, ofLeaf text ≠ .array t) ∧ ∀ t, ofLeaf text ≠ .optional t := by
  unfold ofLeaf
  cases found : KeywordSet.find? text <;> split <;> simp [found, eq_comm]

theorem leafSpelled {cs : List Char} (leaf : IsLeaf cs) :
    Spells (ofLeaf (String.ofList cs)).name.toList (ofLeaf (String.ofList cs)) ∧
      Spells (ofLeaf (String.ofList cs)).runtimeType.toList (ofLeaf (String.ofList cs)) := by
  have itself := Spells.leaf leaf
  obtain ⟨kept, single, required⟩ := leafKinds (String.ofList cs)
  cases known : ofLeaf (String.ofList cs) with
  | array t => exact absurd known (single t)
  | optional t => exact absurd known (required t)
  | keyword set => exact keywordSpelled set
  | foreign name =>
    cases kept name known
    rw [known] at itself
    simpa [ValueType.name, runtimeType] using itself
  | _ => exact ⟨spelledKnown (by decide) (by decide), spelledKnown (by decide) (by decide)⟩

theorem lookupSpelled (cs : List Char) :
    Spells (lookupChars cs).name.toList (lookupChars cs) ∧
      Spells (lookupChars cs).runtimeType.toList (lookupChars cs) := by
  induction cs using lookupChars.induct with
  | case1 cs inner marked ih =>
    rw [lookupOptional marked]
    simp only [name, runtimeType, String.toList_append]
    exact ⟨.optional ih.1, .optional ih.2⟩
  | case2 cs required inner enclosed ih =>
    rw [lookupArray required enclosed]
    simp only [name, runtimeType, String.toList_append, List.append_assoc]
    exact ⟨.array ih.1, .array ih.2⟩
  | case3 cs required single =>
    rw [lookupLeaf required single]
    exact leafSpelled ⟨Text.tightTrimmed cs, required, single⟩

theorem lookupPrinted (s : String) :
    lookup (lookup s).name = lookup s ∧ lookup (lookup s).runtimeType = lookup s ∧
    ∀ other : String, lookup other = lookup s ∨
      ((lookup other).name ≠ (lookup s).name ∧
        (lookup other).runtimeType ≠ (lookup s).runtimeType ∧
        (lookup other).name ≠ (lookup s).runtimeType) := by
  have named : ∀ text : String, lookup (lookup text).name = lookup text :=
    fun text => spelledRead (lookupSpelled text.toList).1
  have typed : ∀ text : String, lookup (lookup text).runtimeType = lookup text :=
    fun text => spelledRead (lookupSpelled text.toList).2
  refine ⟨named s, typed s, fun other => ?_⟩
  by_cases same : lookup other = lookup s
  · exact .inl same
  · refine .inr ⟨fun equal => same ?_, fun equal => same ?_, fun equal => same ?_⟩
    · rw [← named other, equal, named]
    · rw [← typed other, equal, typed]
    · rw [← named other, equal, typed]

end ValueType
end ViewForge
