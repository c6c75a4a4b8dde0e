import ViewForge.Action.Call
import ViewForge.Proofs.Token

/-! Actions as texts. The tokens of a call are those of a small grammar, and a printed call has such
tokens again unless a string in it needs an escape or a number in it is not finite. -/
namespace ViewForge
open ParseError (Reason)
open Token (EndsName EndsNumber Unquoted label? scan)

/- The tokens that stand for a value. -/
inductive ArgumentValue.Spelled : ArgumentValue → List Token → Prop where
  | true : Spelled (.constant (.bool true)) [.identifier "true"]
  | false : Spelled (.constant (.bool false)) [.identifier "false"]
  | string (text : String) : Spelled (.constant (.string text)) [.string text]
  | number (x : Float) : Spelled (.constant (ActionCall.numberLiteral x)) [.number x]
  | state (name : String) : Spelled (.state name) [.dollar, .identifier name]
  | whole {name : String} (other : name ≠ "true" ∧ name ≠ "false") :
      Spelled (.reference (ActionCall.readReference.target name) none) [.identifier name]
  | part {name : String} (other : name ≠ "true" ∧ name ≠ "false") (property : String) :
      Spelled (.reference (ActionCall.readReference.target name) (some property))
        [.identifier name, .period, .identifier property]

def labelTokens : Option String → List Token
  | some name => [.identifier name, .colon]
  | none => []

/- The tokens of an argument list up to the parenthesis that closes it. -/
inductive CallArgument.Listed : List CallArgument → List Token → Prop where
  | last {label : Option String} {value : ArgumentValue} {used : List Token}
      (spelled : value.Spelled used) :
      Listed [⟨label, value⟩] (labelTokens label ++ used ++ [.parensClose])
  | next {label : Option String} {value : ArgumentValue} {used : List Token}
      (spelled : value.Spelled used) {others : List CallArgument} {rest : List Token}
      (listed : Listed others rest) :
      Listed (⟨label, value⟩ :: others) (labelTokens label ++ used ++ .comma :: rest)

inductive ActionCall.Spelled : ActionCall → List Token → Prop where
  | bare (name : String) : Spelled ⟨name, none⟩ [.identifier name]
  | empty (name : String) :
      Spelled ⟨name, some []⟩ [.identifier name, .parensOpen, .parensClose]
  | given (name : String) {arguments : List CallArgument} {rest : List Token}
      (listed : CallArgument.Listed arguments rest) :
      Spelled ⟨name, some arguments⟩ (.identifier name :: .parensOpen :: rest)

namespace ActionCall

theorem valueSpelled {ts : List Token} {p : Token.Parsed ts ArgumentValue}
    (ok : readValue ts = .ok p) : ∃ used, ts = used ++ p.rest ∧ p.value.Spelled used := by
  unfold readValue at ok
  split at ok
  · rename_i rest
    unfold Token.expectIdentifier at ok
    split at ok
    · cases ok
      exact ⟨_, rfl, .state _⟩
    · cases ok
  · cases ok
    exact ⟨_, rfl, .string _⟩
  · cases ok
    exact ⟨_, rfl, .number _⟩
  · rename_i name rest
    split_ifs at ok with yes no
    · cases ok
      subst yes
      exact ⟨_, rfl, .true⟩
    · cases ok
      subst no
      exact ⟨_, rfl, .false⟩
    · unfold readReference at ok
      split at ok
      · unfold Token.expectIdentifier at ok
        split at ok
        · cases ok
          exact ⟨_, rfl, .part ⟨yes, no⟩ _⟩
        · cases ok
      · cases ok
        exact ⟨_, rfl, .whole ⟨yes, no⟩⟩
  · cases ok
  · cases ok

theorem spelledRead {value : ArgumentValue} {used rest : List Token} (spelled : value.Spelled used)
    (ends : ∀ more, rest ≠ .period :: more) :
    ∃ p, readValue (used ++ rest) = .ok p ∧ p.value = value ∧ p.rest = rest := by
  cases spelled with
  | true => exact ⟨_, rfl, rfl, rfl⟩
  | false => exact ⟨_, rfl, rfl, rfl⟩
  | string text => exact ⟨_, rfl, rfl, rfl⟩
  | number x => exact ⟨_, rfl, rfl, rfl⟩
  | state name => exact ⟨_, rfl, rfl, rfl⟩
  | whole other =>
    rw [List.singleton_append, readValue, if_neg other.1, if_neg other.2]
    unfold readReference
    split
    · exact absurd rfl (ends _)
    · exact ⟨_, rfl, rfl, rfl⟩
  | part other property =>
    rw [List.cons_append, readValue, if_neg other.1, if_neg other.2]
    exact ⟨_, rfl, rfl, rfl⟩

theorem labelRead {value : ArgumentValue} {used rest : List Token} (spelled : value.Spelled used)
    (ends : ∀ more, rest ≠ .colon :: more) (label : Option String) :
    label? (labelTokens label ++ used ++ rest) = (label, used ++ rest) := by
  cases label with
  | some name => rfl
  | none =>
    cases spelled with
    | true | false | whole =>
      simp only [labelTokens, List.nil_append, List.singleton_append]
      unfold label?
      split
      · rename_i same
        cases same
        exact absurd rfl (ends _)
      · rfl
    | string | number | state | part => rfl

theorem labelSplit (ts : List Token) : ts = labelTokens (label? ts).1 ++ (label? ts).2 := by
  unfold label?
  split <;> rfl

def readFurther (argument : CallArgument) : List Token → Except Reason (List CallArgument)
  | .parensClose :: rest => (Token.expectEnd rest).map fun _ => [argument]
  | .comma :: rest => (readArguments rest).map (argument :: ·)
  | others => .error (Token.unexpected "','" others)

theorem readArgumentsStep {ts rest others : List Token} {label : Option String}
    {value : ArgumentValue} (named : label? ts = (label, rest))
    (read : ∃ p, readValue rest = .ok p ∧ p.value = value ∧ p.rest = others) :
    readArguments ts = readFurther ⟨label, value⟩ others := by
  obtain ⟨⟨value, others, shorter⟩, read, rfl, rfl⟩ := read
  rw [readArguments]
  generalize label? ts = pair at named
  subst named
  rw [read]
  cases others with
  | nil => rfl
  | cons t more => cases t <;> rfl

section
variable {value : ArgumentValue} {used : List Token} (spelled : value.Spelled used)
  (label : Option String)
include spelled

theorem readLast :
    readArguments (labelTokens label ++ used ++ [.parensClose]) = .ok [⟨label, value⟩] :=
  readArgumentsStep (labelRead spelled (by simp) label) (spelledRead spelled (by simp))

theorem readNext (rest : List Token) :
    readArguments (labelTokens label ++ used ++ .comma :: rest) =
      (readArguments rest).map (⟨label, value⟩ :: ·) :=
  readArgumentsStep (labelRead spelled (by simp) label) (spelledRead spelled (by simp))

end

theorem listedRead {arguments : List CallArgument} {ts : List Token}
    (listed : CallArgument.Listed arguments ts) : readArguments ts = .ok arguments := by
  induction listed with
  | last spelled => exact readLast spelled _
  | next spelled _ ih =>
    rw [readNext spelled, ih]
    rfl

theorem argumentsListed {arguments : List CallArgument} {ts : List Token}
    (ok : readArguments ts = .ok arguments) : CallArgument.Listed arguments ts := by
  have given := ok
  rw [readArguments] at given
  obtain ⟨p, read, _⟩ := Result.bindOk.mp given
  have split := labelSplit ts
  obtain ⟨used, taken, spelled⟩ := valueSpelled read
  rw [readArgumentsStep (Prod.eta _).symm ⟨p, read, rfl, rfl⟩] at ok
  rw [taken, ← List.append_assoc] at split
  unfold readFurther at ok
  split at ok
  · rename_i more ends
    obtain ⟨_, last, rfl⟩ := Result.mapOk.mp ok
    cases more with
    | nil =>
      rw [ends] at split
      exact (congrArg (CallArgument.Listed _) split).mpr (.last spelled)
    | cons => cases last
  · rename_i more next
    obtain ⟨others, further, rfl⟩ := Result.mapOk.mp ok
    have shorter : more.length < ts.length := by
      rw [split, next]
      simp
      omega
    rw [next] at split
    exact (congrArg (CallArgument.Listed _) split).mpr (.next spelled (argumentsListed further))
  · cases ok
termination_by ts.length

theorem callSpelled {ts : List Token} {call : ActionCall} (ok : read ts = .ok call) :
    call.Spelled ts := by
  unfold read Token.expectIdentifier at ok
  split at ok
  · rename_i name rest
    simp only [bind, Except.bind, Token.Parsed.front] at ok
    split at ok
    · rename_i more
      cases more with
      | nil =>
        cases ok
        exact .empty name
      | cons => cases ok
    · split at ok
      · cases ok
      · rename_i listed
        cases ok
        exact .given name (argumentsListed listed)
    · cases rest with
      | nil =>
        cases ok
        exact .bare name
      | cons => cases ok
  · cases ok

theorem listedOpens {arguments : List CallArgument} {ts : List Token}
    (listed : CallArgument.Listed arguments ts) (more : List Token) : ts ≠ .parensClose :: more := by
  cases listed with
  | @last label _ _ spelled | @next label _ _ spelled =>
    cases label with
    | some name => nofun
    | none => cases spelled <;> nofun

theorem spelledCall {ts : List Token} {call : ActionCall} (spelled : call.Spelled ts) :
    read ts = .ok call := by
  cases spelled with
  | bare name => rfl
  | empty name => rfl
  | @given name _ rest listed =>
    have reads := listedRead listed
    cases rest with
    | nil =>
      unfold read Token.expectIdentifier
      simp [bind, Except.bind, Token.Parsed.front, reads, pure, Except.pure]
    | cons t more =>
      have opens : t ≠ .parensClose := fun same => listedOpens listed more (same ▸ rfl)
      unfold read Token.expectIdentifier
      simp [bind, Except.bind, Token.Parsed.front, reads, opens, pure, Except.pure]

/- What is read is what the grammar says. -/
theorem readsSpelled {ts : List Token} {call : ActionCall} :
    read ts = .ok call ↔ call.Spelled ts :=
  ⟨callSpelled, spelledCall⟩

end ActionCall

/- A literal whose text needs no escape and is not the name of a number. -/
def Literal.Plain : Literal → Prop
  | .string text => Unquoted text.toList
  | .double x => Number.isFinite x = true
  | .bool _ => True
  | .int _ => True

def ArgumentValue.Plain : ArgumentValue → Prop
  | .constant literal => literal.Plain
  | .state _ => True
  | .reference _ _ => True

def ActionCall.Plain (call : ActionCall) : Prop :=
  ∀ arguments, call.arguments = some arguments → ∀ a ∈ arguments, a.value.Plain

instance : DecidablePred Literal.Plain
  | .string text => inferInstanceAs (Decidable (Unquoted text.toList))
  | .double x => inferInstanceAs (Decidable (Number.isFinite x = true))
  | .bool _ => .isTrue trivial
  | .int _ => .isTrue trivial

instance : DecidablePred ArgumentValue.Plain
  | .constant literal => inferInstanceAs (Decidable literal.Plain)
  | .state _ => .isTrue trivial
  | .reference _ _ => .isTrue trivial

instance (call : ActionCall) : Decidable call.Plain :=
  decidable_of_iff (∀ a ∈ call.arguments.getD [], a.value.Plain) <| by
    cases given : call.arguments <;> simp [ActionCall.Plain, given]

namespace ActionCall

theorem zeroLiteral {x : Float} (zero : x = 0.0 ∨ x = -0.0) : numberLiteral x = .int 0 := by
  rcases zero with rfl | rfl <;> decide +kernel

theorem plainFinite {x : Float} (plain : (numberLiteral x).Plain) :
    ∃ d, Number.classify x = .finite d := by
  unfold numberLiteral at plain
  split at plain
  · rename_i whole
    have exact := ((Bool.and_eq_true _ _).mp whole).1
    unfold Number.isWhole at exact
    split at exact
    · exact ⟨_, ‹_›⟩
    · cases exact
  · change Number.isFinite x = true at plain
    unfold Number.isFinite at plain
    split at plain
    · exact ⟨_, ‹_›⟩
    · cases plain

theorem numberPrinted {x : Float} (plain : (numberLiteral x).Plain) :
    ∃ y negative cs, numberLiteral y = numberLiteral x ∧
      (numberLiteral x).display.toList = Number.signed negative cs ∧
      Number.Spells negative cs y := by
  obtain ⟨d, finite⟩ := plainFinite plain
  rcases Nat.eq_zero_or_pos d.mantissa with zero | positive
  · have given := zeroLiteral (Number.zeroCases finite zero)
    refine ⟨0.0, false, ['0'], ?_, ?_, Number.zeroSpells⟩
    · rw [given, zeroLiteral (.inl rfl)]
    · rw [given]
      rfl
  · unfold numberLiteral at plain ⊢
    split
    · rename_i whole
      obtain ⟨cs, written, spells⟩ := Number.wholeSpells finite positive
        ((Bool.and_eq_true _ _).mp whole).1
      refine ⟨x, _, cs, if_pos whole, ?_, spells⟩
      rw [Literal.display, written, String.toList_ofList]
    · rename_i other
      obtain ⟨cs, written, spells⟩ := Number.textSpells finite positive
      refine ⟨x, _, cs, if_neg other, ?_, spells⟩
      rw [Literal.display, written, String.toList_ofList]

def Named (ts : List Token) : Prop := ∀ name, .identifier name ∈ ts → Text.isName name.toList = true

/- A value in a list ends at a comma or at the parenthesis. -/
def Stops (tail : List Char) : Prop := tail.head? = some ',' ∨ tail.head? = some ')'

theorem stopsName {tail : List Char} (stops : Stops tail) : EndsName tail := by
  intro c head
  rcases stops with same | same
  · cases head.symm.trans same
    rfl
  · cases head.symm.trans same
    rfl

theorem stopsNumber {tail : List Char} (stops : Stops tail) : EndsNumber tail := by
  intro c head
  rcases stops with same | same
  · cases head.symm.trans same
    decide
  · cases head.symm.trans same
    decide

theorem mapTwice {ε : Type} (x : Except ε (List Token)) (ts us : List Token) :
    (x.map (us ++ ·)).map (ts ++ ·) = x.map (ts ++ us ++ ·) := by
  cases x with
  | error e => rfl
  | ok vs => exact congrArg Except.ok (List.append_assoc ts us vs).symm

theorem scanIdentifier {name : String} (named : Text.isName name.toList = true) {tail : List Char}
    (ends : EndsName tail) : scan false (name.toList ++ tail) =
      (scan false tail).map ([.identifier name] ++ ·) := by
  rw [Token.scanName named ends, String.ofList_toList]

theorem targetPrinted (name : String) : (readReference.target name).display = name := by
  unfold readReference.target
  split
  · rename_i self
    exact self.symm
  · rfl

theorem nameDigit {name : String} (named : Text.isName name.toList = true) (tail : List Char) :
    Token.startsWithDigit (name.toList ++ tail) = false := by
  cases letters : name.toList with
  | nil =>
    rw [letters] at named
    cases named
  | cons c rest =>
    rw [letters] at named
    exact (Text.nameStartPlain ((Bool.and_eq_true _ _).mp named).1).2

theorem valuePrinted {value : ArgumentValue} {used : List Token} (spelled : value.Spelled used)
    (plain : value.Plain) (named : Named used) {tail : List Char} (stops : Stops tail) :
    ∃ again, value.Spelled again ∧
      scan false (value.display.toList ++ tail) = (scan false tail).map (again ++ ·) := by
  have ends := stopsName stops
  cases spelled with
  | true => exact ⟨_, .true, scanIdentifier (named "true" (by simp)) ends⟩
  | false => exact ⟨_, .false, scanIdentifier (named "false" (by simp)) ends⟩
  | string text =>
    have quoted : scan false _ = _ := Token.scanString plain tail
    rw [String.ofList_toList] at quoted
    refine ⟨_, .string text, ?_⟩
    simpa [ArgumentValue.display, Literal.display] using quoted
  | number x =>
    obtain ⟨y, negative, cs, same, written, spells⟩ := numberPrinted plain
    refine ⟨[.number y], same ▸ .number y, ?_⟩
    rw [ArgumentValue.display, written]
    exact Token.scanNumber spells (stopsNumber stops)
  | state name =>
    have marked : scan false ('$' :: (name.toList ++ tail)) = _ := Token.scanMark rfl rfl _
    rw [scanIdentifier (named name (by simp)) ends, mapTwice] at marked
    refine ⟨_, .state name, ?_⟩
    simpa [ArgumentValue.display] using marked
  | @whole name other =>
    refine ⟨_, .whole other, ?_⟩
    rw [ArgumentValue.display, targetPrinted]
    exact scanIdentifier (named name (by simp)) ends
  | @part name other property =>
    have following := named property (by simp)
    have pointed : scan false ('.' :: (property.toList ++ tail)) = _ :=
      Token.scanPeriod (nameDigit following tail)
    rw [scanIdentifier following ends, mapTwice] at pointed
    have point : EndsName ('.' :: (property.toList ++ tail)) := by
      rintro c ⟨⟩
      rfl
    have written := scanIdentifier (named name (by simp)) point
    rw [pointed, mapTwice] at written
    refine ⟨_, .part other property, ?_⟩
    simpa [ArgumentValue.display, targetPrinted] using written

theorem labelPrinted {label : Option String} (named : Named (labelTokens label)) (a : ArgumentValue)
    (tail : List Char) : scan false ((CallArgument.display ⟨label, a⟩).toList ++ tail) =
      (scan false (a.display.toList ++ tail)).map (labelTokens label ++ ·) := by
  cases label with
  | none =>
    simp only [CallArgument.display, labelTokens, List.nil_append]
    cases scan false (a.display.toList ++ tail) <;> rfl
  | some name =>
    have colon : scan false (':' :: ' ' :: (a.display.toList ++ tail)) = _ :=
      Token.scanMark rfl rfl _
    have ends : EndsName (':' :: ' ' :: (a.display.toList ++ tail)) := by
      rintro c ⟨⟩
      rfl
    have written := scanIdentifier (named name (by simp [labelTokens])) ends
    rw [Token.scanBlank (show Text.isBlank ' ' = true from rfl)] at colon
    rw [colon, mapTwice] at written
    simpa [CallArgument.display, labelTokens] using written

def listText (arguments : List CallArgument) : List Char :=
  (Text.join ", " (arguments.map (·.display))).toList

theorem listTextNext (a b : CallArgument) (more : List CallArgument) (tail : List Char) :
    listText (a :: b :: more) ++ tail =
      a.display.toList ++ ',' :: ' ' :: (listText (b :: more) ++ tail) := by
  simp [listText, Text.join]

theorem scanClose : scan false [')'] = .ok [.parensClose] := by
  have closed : scan false [')'] = _ := Token.scanMark rfl rfl []
  rw [closed, scan]
  rfl

theorem scanNext (tail : List Char) : scan false (',' :: ' ' :: tail) =
    (scan false tail).map ([.comma] ++ ·) := by
  have marked : scan false (',' :: ' ' :: tail) = _ := Token.scanMark rfl rfl _
  rw [marked, Token.scanBlank (show Text.isBlank ' ' = true from rfl)]

section
variable {label : Option String} {value : ArgumentValue} {used : List Token}
  (spelled : value.Spelled used) (plain : value.Plain) (named : Named (labelTokens label ++ used))
include spelled plain named

theorem argumentPrinted {tail : List Char} (stops : Stops tail) : ∃ again, value.Spelled again ∧
    scan false ((CallArgument.display ⟨label, value⟩).toList ++ tail) =
      (scan false tail).map (labelTokens label ++ again ++ ·) := by
  have front : Named (labelTokens label) := fun name member =>
    named name (List.mem_append_left _ member)
  have behind : Named used := fun name member => named name (List.mem_append_right _ member)
  obtain ⟨again, same, scanned⟩ := valuePrinted spelled plain behind stops
  refine ⟨again, same, ?_⟩
  rw [labelPrinted front, scanned, mapTwice]

end

theorem listedSome {arguments : List CallArgument} {ts : List Token}
    (listed : CallArgument.Listed arguments ts) : ∃ a more, arguments = a :: more := by
  cases listed with
  | last => exact ⟨_, _, rfl⟩
  | next => exact ⟨_, _, rfl⟩

theorem listPrinted {arguments : List CallArgument} {ts : List Token}
    (listed : CallArgument.Listed arguments ts) (plain : ∀ a ∈ arguments, a.value.Plain)
    (named : Named ts) : ∃ again, CallArgument.Listed arguments again ∧
      scan false (listText arguments ++ [')']) = .ok again := by
  induction listed with
  | @last label value used spelled =>
    have front : Named (labelTokens label ++ used) := fun name member =>
      named name (List.mem_append_left _ member)
    obtain ⟨again, same, scanned⟩ := argumentPrinted spelled (plain _ List.mem_cons_self) front
      (show Stops [')'] from .inr rfl)
    rw [scanClose] at scanned
    exact ⟨_, .last same, scanned⟩
  | @next label value used spelled others rest listed ih =>
    have front : Named (labelTokens label ++ used) := fun name member =>
      named name (List.mem_append_left _ member)
    have behind : Named rest := fun name member =>
      named name (List.mem_append_right _ (List.mem_cons_of_mem _ member))
    obtain ⟨again, following, scanned⟩ := ih (fun a member => plain a (List.mem_cons_of_mem _ member))
      behind
    obtain ⟨b, more, rfl⟩ := listedSome listed
    obtain ⟨first, same, printed⟩ := argumentPrinted spelled (plain _ List.mem_cons_self) front
      (show Stops (',' :: ' ' :: (listText (b :: more) ++ [')'])) from .inl rfl)
    rw [scanNext, scanned] at printed
    refine ⟨_, .next same following, ?_⟩
    rw [listTextNext]
    exact printed

theorem bracketsPrinted {name : String} (named : Text.isName name.toList = true) (s : String) :
    scan false (name ++ "(" ++ s ++ ")").toList =
      (scan false (s.toList ++ [')'])).map ([.identifier name, .parensOpen] ++ ·) := by
  have opened : scan false ('(' :: (s.toList ++ [')'])) = _ := Token.scanMark rfl rfl _
  have ends : EndsName ('(' :: (s.toList ++ [')'])) := by
    rintro c ⟨⟩
    rfl
  have written := scanIdentifier named ends
  rw [opened, mapTwice] at written
  simpa using written

theorem callPrinted {call : ActionCall} {ts : List Token} (spelled : call.Spelled ts)
    (plain : call.Plain) (named : Named ts) :
    ∃ again, call.Spelled again ∧ scan false call.display.toList = .ok again := by
  cases spelled with
  | bare name =>
    have written := scanIdentifier (named name (by simp)) (show EndsName [] by nofun)
    rw [List.append_nil, scan] at written
    exact ⟨_, .bare name, written⟩
  | empty name =>
    have written := bracketsPrinted (named name (by simp)) ""
    rw [show "".toList ++ [')'] = [')'] from rfl, scanClose] at written
    exact ⟨_, .empty name, written⟩
  | @given name arguments rest listed =>
    have behind : Named rest := fun name member =>
      named name (List.mem_cons_of_mem _ (List.mem_cons_of_mem _ member))
    obtain ⟨again, same, scanned⟩ := listPrinted listed (plain arguments rfl) behind
    have written := bracketsPrinted (named name (by simp))
      (Text.join ", " (arguments.map (·.display)))
    change _ = (scan false (listText arguments ++ [')'])).map _ at written
    rw [scanned] at written
    exact ⟨_, .given name same, written⟩

/- The first token of a value that is not plain is another one when its text is read. -/
theorem spelledString {text : String} {used : List Token}
    (spelled : (ArgumentValue.constant (.string text)).Spelled used) : used = [.string text] := by
  generalize same : ArgumentValue.constant (.string text) = value at spelled
  cases spelled with
  | number x =>
    unfold numberLiteral at same
    split at same <;> cases same
  | string => cases same; rfl
  | _ => cases same

theorem spelledDouble {x : Float} {used : List Token}
    (spelled : (ArgumentValue.constant (.double x)).Spelled used) : ∃ y, used = [.number y] := by
  generalize same : ArgumentValue.constant (.double x) = value at spelled
  cases spelled with
  | number y => exact ⟨y, rfl⟩
  | _ => cases same

theorem minusPrinted (tail : List Char) : scan false ('-' :: 'i' :: 'n' :: 'f' :: tail) =
    (scan false ('i' :: 'n' :: 'f' :: tail)).map ([.operator "-"] ++ ·) :=
  Token.scanToken rfl rfl

theorem strangeNumber {x : Float} (strange : ¬ (Literal.double x).Plain) {tail : List Char}
    (stops : Stops tail) {ts : List Token}
    (scanned : scan false ((Number.text x).toList ++ tail) = .ok ts) (y : Float)
    (more : List Token) : ts ≠ .number y :: more := by
  have ends := stopsName stops
  unfold Number.text at scanned
  change ¬ Number.isFinite x = true at strange
  unfold Number.isFinite at strange
  cases kind : Number.classify x with
  | finite d =>
    rw [kind] at strange
    exact absurd rfl strange
  | notANumber =>
    rw [kind] at scanned
    rw [scanIdentifier (by decide) ends] at scanned
    obtain ⟨_, _, rfl⟩ := Result.mapOk.mp scanned
    nofun
  | infinite negative =>
    rw [kind] at scanned
    cases negative with
    | false =>
      simp only [Bool.false_eq_true, if_false] at scanned
      rw [scanIdentifier (by decide) ends] at scanned
      obtain ⟨_, _, rfl⟩ := Result.mapOk.mp scanned
      nofun
    | true =>
      obtain ⟨_, _, rfl⟩ := Result.mapOk.mp ((minusPrinted tail).symm.trans scanned)
      nofun

theorem strangeString {text : String} (strange : ¬ (Literal.string text).Plain) {tail : List Char}
    {ts : List Token} (scanned : scan false ('\'' :: (text.toList ++ '\'' :: tail)) = .ok ts)
    (more : List Token) : ts ≠ .string text :: more := by
  have lexed := Token.quoteLexeme (text.toList ++ '\'' :: tail)
  cases read : Token.stringText '\'' (text.toList ++ '\'' :: tail) with
  | none =>
    rw [read] at lexed
    rw [Token.scanError rfl lexed] at scanned
    cases scanned
  | some found =>
    rw [read] at lexed
    rw [Token.scanToken rfl lexed] at scanned
    obtain ⟨_, _, rfl⟩ := Result.mapOk.mp scanned
    intro same
    injection same with first
    injection first with first
    refine Token.stringLost tail found.2 text.toList 0 (.inr strange) ?_
    rw [read, List.replicate_zero, List.nil_append, ← first, String.toList_ofList]

/- Read again, a value that is not plain becomes another one. -/
theorem strangePrinted {value : ArgumentValue} (strange : ¬ value.Plain) {tail : List Char}
    (stops : Stops tail) {ts : List Token}
    (scanned : scan false (value.display.toList ++ tail) = .ok ts) {used : List Token}
    (spelled : value.Spelled used) (more : List Token) : ts ≠ used ++ more := by
  cases value with
  | state => exact absurd trivial strange
  | reference => exact absurd trivial strange
  | constant literal =>
    cases literal with
    | bool => exact absurd trivial strange
    | int => exact absurd trivial strange
    | double x =>
      obtain ⟨y, rfl⟩ := spelledDouble spelled
      exact strangeNumber strange stops scanned y more
    | string text =>
      obtain rfl := spelledString spelled
      have quoted : scan false ('\'' :: (text.toList ++ '\'' :: tail)) = .ok ts := by
        simpa [ArgumentValue.display, Literal.display] using scanned
      exact strangeString strange quoted more

theorem headPlain {label : Option String} {value : ArgumentValue} {others : List CallArgument}
    {again : List Token} (listed : CallArgument.Listed (⟨label, value⟩ :: others) again)
    (named : Named (labelTokens label)) {tail : List Char} (stops : Stops tail)
    (scanned : scan false ((CallArgument.display ⟨label, value⟩).toList ++ tail) = .ok again) :
    value.Plain := by
  by_contra strange
  rw [labelPrinted named] at scanned
  obtain ⟨ts, written, rfl⟩ := Result.mapOk.mp scanned
  generalize split : labelTokens label ++ ts = us at listed
  cases listed with
  | last spelled | next spelled =>
    rw [List.append_assoc] at split
    exact strangePrinted strange stops written spelled _ (List.append_cancel_left split)

theorem listPlain {arguments : List CallArgument} {ts : List Token}
    (listed : CallArgument.Listed arguments ts) (named : Named ts) {again : List Token}
    (same : CallArgument.Listed arguments again)
    (scanned : scan false (listText arguments ++ [')']) = .ok again) :
    ∀ a ∈ arguments, a.value.Plain := by
  induction listed generalizing again with
  | @last label value used spelled =>
    have front : Named (labelTokens label) := fun name member =>
      named name (List.mem_append_left _ (List.mem_append_left _ member))
    have plain := headPlain same front (.inr rfl) scanned
    simpa using plain
  | @next label value used spelled others rest listed ih =>
    have front : Named (labelTokens label ++ used) := fun name member =>
      named name (List.mem_append_left _ member)
    have behind : Named rest := fun name member =>
      named name (List.mem_append_right _ (List.mem_cons_of_mem _ member))
    obtain ⟨b, more, rfl⟩ := listedSome listed
    have stops : Stops (',' :: ' ' :: (listText (b :: more) ++ [')'])) := .inl rfl
    rw [listTextNext] at scanned
    have plain := headPlain same (fun name member => front name (List.mem_append_left _ member))
      stops scanned
    obtain ⟨first, again', printed⟩ := argumentPrinted spelled plain front stops
    rw [scanNext, mapTwice, scanned] at printed
    obtain ⟨us, following, rfl⟩ := Result.mapOk.mp printed.symm
    have reads := listedRead same
    rw [show labelTokens label ++ first ++ [Token.comma] ++ us =
      labelTokens label ++ first ++ .comma :: us by simp, readNext again' label us] at reads
    obtain ⟨_, read, rest⟩ := Result.mapOk.mp reads
    injection rest with _ rest
    subst rest
    exact List.forall_mem_cons.mpr ⟨plain, ih behind (argumentsListed read) following⟩

theorem parseSpelled {value : String} {call : ActionCall} :
    parse value = .ok call ↔ ∃ ts, scan false value.toList = .ok ts ∧ call.Spelled ts := by
  unfold parse Token.tokenize
  simp only [Result.bindOk, readingOk, readsSpelled]

/- A call is what its text is read as exactly if every string in it can stand between single quotes
as it is, and every number in it is finite. -/
theorem printedParses {value : String} {call : ActionCall} (parsed : parse value = .ok call) :
    parse call.display = .ok call ↔ call.Plain := by
  obtain ⟨ts, scanned, spelled⟩ := parseSpelled.mp parsed
  have named : Named ts := fun name member => Token.scanNames scanned member
  constructor
  · intro again arguments given
    obtain ⟨us, printed, same⟩ := parseSpelled.mp again
    cases spelled with
    | bare => cases given
    | empty =>
      cases given
      simp
    | @given name arguments rest listed =>
      cases given
      have behind : Named rest := fun name member =>
        named name (List.mem_cons_of_mem _ (List.mem_cons_of_mem _ member))
      have written := bracketsPrinted (named name (by simp))
        (Text.join ", " (arguments.map (·.display)))
      obtain ⟨vs, inside, split⟩ := Result.mapOk.mp (written.symm.trans printed)
      cases same with
      | empty => cases listed
      | given name following =>
        cases split
        exact listPlain listed behind following inside
  · intro plain
    obtain ⟨us, same, printed⟩ := callPrinted spelled plain named
    exact parseSpelled.mpr ⟨us, printed, same⟩

end ActionCall
end ViewForge
