import ViewForge.Token.Lexer
/-! Reading tokens from the front of a list. A step that must take a token returns what is left
together with the fact that it is shorter, so that loops over steps end. -/
namespace ViewForge.Token
open ParseError (Reason)

structure Parsed (ts : List Token) (α : Type) where
  value : α
  rest : List Token
  shorter : rest.length < ts.length

structure Optional (ts : List Token) (α : Type) where
  value : α
  rest : List Token
  bounded : rest.length ≤ ts.length

def Optional.unread {ts : List Token} {α : Type} (value : α) : Optional ts α :=
  ⟨value, ts, Nat.le_refl _⟩

namespace Parsed
variable {ts : List Token} {t : Token} {α β : Type}

def front (value : α) : Parsed (t :: ts) α := ⟨value, ts, Nat.lt_succ_self _⟩

def map (f : α → β) (p : Parsed ts α) : Parsed ts β := ⟨f p.value, p.rest, p.shorter⟩

def behind (p : Parsed ts α) : Parsed (t :: ts) α :=
  ⟨p.value, p.rest, Nat.lt_succ_of_lt p.shorter⟩

def andThen (p : Parsed ts α) (q : Parsed p.rest β) : Parsed ts β :=
  ⟨q.value, q.rest, Nat.lt_trans q.shorter p.shorter⟩

def closedBy (p : Parsed ts α) (q : Parsed p.rest β) : Parsed ts α :=
  ⟨p.value, q.rest, Nat.lt_trans q.shorter p.shorter⟩

def toOptional (p : Parsed ts α) : Optional ts α := ⟨p.value, p.rest, Nat.le_of_lt p.shorter⟩

def andThenOptional (p : Parsed ts α) (q : Optional p.rest β) : Parsed ts β :=
  ⟨q.value, q.rest, Nat.lt_of_le_of_lt q.bounded p.shorter⟩

end Parsed

namespace Optional
variable {ts : List Token} {t : Token} {α β : Type}

def map (f : α → β) (p : Optional ts α) : Optional ts β := ⟨f p.value, p.rest, p.bounded⟩

def behind (p : Optional ts α) : Parsed (t :: ts) α :=
  ⟨p.value, p.rest, Nat.lt_succ_of_le p.bounded⟩

end Optional

def unexpected (what : String) (ts : List Token) : Reason :=
  .expected what (ts.head?.map display)

def consume? (token : Token) : List Token → Option (List Token)
  | t :: rest => if t.agrees token then some rest else none
  | [] => none

def consumeIdentifier? (name : String) : List Token → Option (List Token)
  | identifier n :: rest => if n = name then some rest else none
  | _ => none

def consumeOperator? (symbol : String) : List Token → Option (List Token)
  | operator s :: rest => if s = symbol then some rest else none
  | _ => none

def expect (token : Token) : (ts : List Token) → Except Reason (Parsed ts Unit)
  | t :: rest =>
    if t.agrees token then .ok (.front ())
    else .error (unexpected ("'" ++ token.display ++ "'") (t :: rest))
  | [] => .error (unexpected ("'" ++ token.display ++ "'") [])

def expectIdentifier : (ts : List Token) → Except Reason (Parsed ts String)
  | identifier name :: _ => .ok (.front name)
  | ts => .error (unexpected "identifier" ts)

def expectNumber : (ts : List Token) → Except Reason (Parsed ts Float)
  | number value :: _ => .ok (.front value)
  | ts => .error (unexpected "number" ts)

def expectFraction : (ts : List Token) → Except Reason (Parsed ts Float)
  | number value :: percent :: _ => .ok (Parsed.front (value / 100.0)).behind
  | number value :: _ => .ok (.front value)
  | ts => .error (unexpected "number" ts)

def expectEnd : List Token → Except Reason Unit
  | [] => .ok ()
  | ts => .error (unexpected "end of value" ts)

def label? : List Token → Option String × List Token
  | identifier name :: colon :: rest => (some name, rest)
  | ts => (none, ts)

theorem labelShortens (ts : List Token) : (label? ts).2.length ≤ ts.length := by
  unfold label?
  split
  · simp only [List.length_cons]; omega
  · exact Nat.le_refl _

end ViewForge.Token
