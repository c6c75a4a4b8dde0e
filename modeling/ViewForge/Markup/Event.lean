import ViewForge.Error
/-! Markup as a sequence of events: tags, texts, and what is passed over. Each event takes at least
one character, so that reading ends. -/
namespace ViewForge.Markup

def isSpace (c : Char) : Bool := c == ' ' || c == '\r' || c == '\n' || c == '\t'

def cutAt? (mark : List Char) : List Char → Option (List Char × List Char)
  | [] => none
  | c :: rest =>
    match Text.dropLead? mark (c :: rest) with
    | some tail => some ([], tail)
    | none => (cutAt? mark rest).map fun p => (c :: p.1, p.2)

theorem cutAtShortens {mark cs before tail : List Char}
    (h : cutAt? mark cs = some (before, tail)) : tail.length ≤ cs.length := by
  induction cs generalizing before with
  | nil => simp [cutAt?] at h
  | cons c rest ih =>
    unfold cutAt? at h
    split at h
    · rename_i found
      simp only [Option.some.injEq, Prod.mk.injEq] at h
      have := Text.dropLeadLength found
      rw [← h.2]; omega
    · simp only [Option.map_eq_some_iff, Prod.mk.injEq] at h
      obtain ⟨⟨b, t⟩, found, _, rfl⟩ := h
      have : t.length ≤ rest.length := ih found
      simp only [List.length_cons]; omega

/-- The inside of a tag and what follows it; a tag ends at the first `>` outside quotes. -/
def cutTag? (quote : Option Char) : List Char → Option (List Char × List Char)
  | [] => none
  | c :: rest =>
    match quote with
    | none =>
      if c = '>' then some ([], rest)
      else
        let inside := if c = '\'' ∨ c = '"' then some c else none
        (cutTag? inside rest).map fun p => (c :: p.1, p.2)
    | some q =>
      let inside := if c = q then none else some q
      (cutTag? inside rest).map fun p => (c :: p.1, p.2)

theorem cutTagShortens {quote : Option Char} {cs inside tail : List Char}
    (h : cutTag? quote cs = some (inside, tail)) : tail.length < cs.length := by
  induction cs generalizing quote inside with
  | nil => simp [cutTag?] at h
  | cons c rest ih =>
    unfold cutTag? at h
    split at h
    · split at h
      · simp only [Option.some.injEq, Prod.mk.injEq] at h
        rw [← h.2]; simp
      · simp only [Option.map_eq_some_iff, Prod.mk.injEq] at h
        obtain ⟨⟨b, t⟩, found, _, rfl⟩ := h
        have : t.length < rest.length := ih found
        simp only [List.length_cons]; omega
    · simp only [Option.map_eq_some_iff, Prod.mk.injEq] at h
      obtain ⟨⟨b, t⟩, found, _, rfl⟩ := h
      have : t.length < rest.length := ih found
      simp only [List.length_cons]; omega

def cutDeclaration? (depth : Nat) : List Char → Option (List Char × List Char)
  | [] => none
  | '<' :: rest => (cutDeclaration? (depth + 1) rest).map fun p => ('<' :: p.1, p.2)
  | '>' :: rest =>
    match depth with
    | 0 => some ([], rest)
    | outer + 1 => (cutDeclaration? outer rest).map fun p => ('>' :: p.1, p.2)
  | c :: rest => (cutDeclaration? depth rest).map fun p => (c :: p.1, p.2)

theorem cutDeclarationShortens {depth : Nat} {cs inside tail : List Char}
    (h : cutDeclaration? depth cs = some (inside, tail)) : tail.length ≤ cs.length := by
  fun_induction cutDeclaration? depth cs generalizing inside with
  | case1 => simp at h
  | case3 => simp only [Option.some.injEq, Prod.mk.injEq] at h; rw [← h.2]; simp
  | case2 _ rest ih | case4 rest _ ih | case5 _ _ rest _ _ ih =>
    simp only [Option.map_eq_some_iff, Prod.mk.injEq] at h
    obtain ⟨⟨b, t⟩, found, _, rfl⟩ := h
    have : t.length ≤ rest.length := ih found
    simp only [List.length_cons]; omega

inductive Event where
  | text (raw : List Char)
  | verbatim (text : List Char)
  | opening (inside : List Char)
  | closed (inside : List Char)
  | closing (name : List Char)
  | skipped
  deriving DecidableEq, Repr

structure Step (cs : List Char) where
  event : Event
  rest : List Char
  shorter : rest.length < cs.length

def malformed (detail : String) : Except DocumentError α := .error (.malformed detail)

def bang (cs : List Char) :
    Except DocumentError (Event × { rest : List Char // rest.length ≤ cs.length }) :=
  match h : Text.dropLead? "--".toList cs with
  | some body =>
    match h' : cutAt? "-->".toList body with
    | some (_, tail) => .ok (.skipped, ⟨tail, by
        have h₁ := Text.dropLeadLength h
        have h₂ := cutAtShortens h'
        omega⟩)
    | none => malformed "comment is not closed"
  | none =>
    match h' : Text.dropLead? "[CDATA[".toList cs with
    | some body =>
      match h'' : cutAt? "]]>".toList body with
      | some (text, tail) => .ok (.verbatim text, ⟨tail, by
          have h₁ := Text.dropLeadLength h'
          have h₂ := cutAtShortens h''
          omega⟩)
      | none => malformed "character data is not closed"
    | none =>
      match h'' : cutDeclaration? 0 cs with
      | some (inside, tail) =>
        if (inside.take 7).map Char.toUpper = "DOCTYPE".toList
            ∧ (inside.drop 7).any (!isSpace ·) then
          .ok (.skipped, ⟨tail, cutDeclarationShortens h''⟩)
        else malformed "unknown declaration"
      | none => malformed "declaration is not closed"

def tagEvent (inside : List Char) : Event :=
  match inside.reverse with
  | '/' :: content => .closed content.reverse
  | _ => .opening inside

def closingName (inside : List Char) : List Char :=
  if inside.all isSpace then inside else (inside.reverse.dropWhile isSpace).reverse

def step (c : Char) (rest : List Char) : Except DocumentError (Step (c :: rest)) :=
  if c = '<' then
    match rest with
    | '!' :: body => do
      let (event, ⟨tail, h⟩) ← bang body
      return ⟨event, tail, by simp only [List.length_cons]; omega⟩
    | '?' :: body =>
      match h : cutAt? "?>".toList body with
      | some (_, tail) => .ok ⟨.skipped, tail, by
        have := cutAtShortens h
        simp only [List.length_cons]; omega⟩
      | none => malformed "instruction is not closed"
    | '/' :: body =>
      match h : cutTag? none body with
      | some (inside, tail) =>
        .ok ⟨.closing (closingName inside), tail, by
          have := cutTagShortens h
          simp only [List.length_cons]; omega⟩
      | none => malformed "tag is not closed"
    | body =>
      match h : cutTag? none body with
      | some (inside, tail) =>
        .ok ⟨tagEvent inside, tail, by
          have := cutTagShortens h
          simp only [List.length_cons]; omega⟩
      | none => malformed "tag is not closed"
  else
    .ok ⟨.text (c :: rest.takeWhile (· != '<')), rest.dropWhile (· != '<'), by
      have := (List.dropWhile_sublist (· != '<') (l := rest)).length_le
      simp only [List.length_cons]; omega⟩

def entity? : List Char → Option Char
  | ['l', 't'] => some '<'
  | ['g', 't'] => some '>'
  | ['a', 'm', 'p'] => some '&'
  | ['a', 'p', 'o', 's'] => some '\''
  | ['q', 'u', 'o', 't'] => some '"'
  | _ => none

def hexDigit (c : Char) : Nat :=
  if Text.isAsciiDigit c then c.toNat - '0'.toNat
  else if 'a' ≤ c then c.toNat - 'a'.toNat + 10
  else c.toNat - 'A'.toNat + 10

def codePoint? (code : Nat) : Option Char :=
  if code = 0 ∨ (0xD800 ≤ code ∧ code ≤ 0xDFFF) ∨ 0x10FFFF < code then none
  else some (Char.ofNat code)

def reference? : List Char → Option Char
  | '#' :: 'x' :: digits =>
    if digits.isEmpty || !digits.all Text.isHexDigit then none
    else codePoint? (digits.foldl (fun n c => n * 16 + hexDigit c) 0)
  | '#' :: digits =>
    if digits.isEmpty || !digits.all Text.isAsciiDigit then none
    else codePoint? (digits.foldl (fun n c => n * 10 + (c.toNat - '0'.toNat)) 0)
  | name => entity? name

/-- Replaces the references of a text. `pending` holds the characters of the reference that has
been begun, if one has. -/
def unescapeFrom : Option (List Char) → List Char → Option (List Char)
  | none, [] => some []
  | some _, [] => none
  | none, c :: rest =>
    if c = '&' then unescapeFrom (some []) rest
    else (unescapeFrom none rest).map (c :: ·)
  | some name, c :: rest =>
    if c = ';' then do
      let found ← reference? name.reverse
      let others ← unescapeFrom none rest
      return found :: others
    else if c = '&' then none
    else unescapeFrom (some (c :: name)) rest

def unescape (cs : List Char) : Except DocumentError (List Char) :=
  match unescapeFrom none cs with
  | some text => .ok text
  | none => malformed "invalid reference"

end ViewForge.Markup
