import ViewForge.Text.Basic
/-! The arguments of the program: options before and after the name of a command. -/
namespace ViewForge

inductive ArgumentKind where
  | value
  | flag
  | count
  | help
  | version
  deriving DecidableEq, Repr

structure ArgumentRule where
  name : String
  short : Option Char := none
  kind : ArgumentKind
  deriving DecidableEq, Repr

inductive CommandName where
  | generate
  | check
  deriving DecidableEq, Repr

namespace CommandName

def all : List CommandName := [generate, check]

def text : CommandName → String
  | generate => "generate"
  | check => "check"

def ofText? (text : String) : Option CommandName := all.find? (·.text == text)

end CommandName

def sharedRules : List ArgumentRule := [
  { name := "config", short := some 'c', kind := .value },
  { name := "verbose", short := some 'v', kind := .count },
  { name := "help", short := some 'h', kind := .help }]

def topRules : List ArgumentRule :=
  sharedRules ++ [{ name := "version", short := some 'V', kind := .version }]

def inputRules : List ArgumentRule := [
  { name := "input", short := some 'i', kind := .value },
  { name := "app", short := some 'a', kind := .value },
  { name := "platform", short := some 'p', kind := .value },
  { name := "min-version", kind := .value },
  { name := "access", kind := .value },
  { name := "live-reload", kind := .flag }]

def outputRules : List ArgumentRule := [
  { name := "output-file", short := some 'o', kind := .value },
  { name := "output-dir", short := some 'd', kind := .value },
  { name := "stdout", kind := .flag },
  { name := "skip-unchanged", kind := .flag },
  { name := "stats", kind := .flag }]

def CommandName.rules : CommandName → List ArgumentRule
  | generate => inputRules ++ outputRules ++ sharedRules
  | check => inputRules ++ sharedRules

inductive ArgumentStop where
  | usage
  | help
  | version
  deriving DecidableEq, Repr

structure Given where
  values : List (String × String) := []
  flags : List String := []
  verbosity : Nat := 0
  pending : Option (String × Option String) := none
  deriving DecidableEq, Repr

namespace Given

def value? (g : Given) (name : String) : Option String := g.values.lookup name

def hasFlag (g : Given) (name : String) : Bool := g.flags.contains name

def isWaiting (g : Given) : Bool :=
  match g.pending with
  | some (_, none) => true
  | _ => false

def setValue (name value : String) (g : Given) : Except ArgumentStop Given :=
  if (g.value? name).isSome then .error .usage
  else .ok { g with values := g.values ++ [(name, value)] }

def settle (g : Given) : Except ArgumentStop Given :=
  match g.pending with
  | none => .ok g
  | some (_, none) => .error .usage
  | some (name, some value) => { g with pending := none }.setValue name value

def maxVerbosity : Nat := 255

def raise (rule : ArgumentRule) (g : Given) : Except ArgumentStop Given := do
  let g ← g.settle
  match rule.kind with
  | .flag =>
    if g.hasFlag rule.name then .error .usage else .ok { g with flags := g.flags ++ [rule.name] }
  | .count => .ok { g with verbosity := min maxVerbosity (g.verbosity + 1) }
  | .help => .error .help
  | .version => .error .version
  | .value => .ok { g with pending := some (rule.name, none) }

def attach (rule : ArgumentRule) (value : String) (g : Given) : Except ArgumentStop Given := do
  (← g.settle).setValue rule.name value

end Given

namespace ArgumentRule

def readLong (rules : List ArgumentRule) (g : Given) (text : String) : Except ArgumentStop Given :=
  let (name, value) := match Text.cutFirst? '=' text with
    | some (name, value) => (name, some value)
    | none => (text, none)
  match rules.find? (·.name == name) with
  | none => .error .usage
  | some rule =>
    match value, rule.kind with
    | some value, .value => g.attach rule value
    | some _, _ => .error .usage
    | none, _ => g.raise rule

def readShort (rules : List ArgumentRule) : Given → List Char → Except ArgumentStop Given
  | g, [] => .ok g
  | g, c :: rest =>
    match rules.find? (·.short == some c) with
    | none => .error .usage
    | some rule =>
      match rule.kind, rest with
      | .value, '=' :: value => g.attach rule (String.ofList value)
      | .value, [] => g.raise rule
      | .value, value => g.attach rule (String.ofList value)
      | _, _ => do readShort rules (← g.raise rule) rest

end ArgumentRule

abbrev Continuation := Option (CommandName × List String)

namespace Given

def isOption (argument : String) : Bool := Text.startsWith "-" argument && argument != "-"

def readOption (rules : List ArgumentRule) (g : Given) (argument : String) :
    Except ArgumentStop Given :=
  match argument.toList with
  | '-' :: '-' :: name => ArgumentRule.readLong rules g (String.ofList name)
  | '-' :: letters => ArgumentRule.readShort rules g letters
  | _ => .error .usage

def helpFor : List String → ArgumentStop
  | [] => .help
  | [name] => if name == "help" || (CommandName.ofText? name).isSome then .help else .usage
  | _ => .usage

def read (rules : List ArgumentRule) (expectsCommand : Bool) :
    Given → List String → Except ArgumentStop (Given × Continuation)
  | g, [] => .ok (g, none)
  | g, argument :: rest =>
    if g.isWaiting then
      if isOption argument then .error .usage
      else read rules expectsCommand
        { g with pending := g.pending.map fun p => (p.1, some argument) } rest
    else if expectsCommand && argument == "help" then .error (helpFor rest)
    else match if expectsCommand then CommandName.ofText? argument else none with
      | some command => .ok (g, some (command, rest))
      | none =>
        if argument == "--" then if rest.isEmpty then .ok (g, none) else .error .usage
        else if isOption argument then do
          read rules expectsCommand (← g.readOption rules argument) rest
        else .error .usage

end Given

structure Invocation where
  configPath : Option String := none
  verbosity : Nat := 0
  command : Option (CommandName × Given) := none
  deriving DecidableEq, Repr

namespace Invocation

def readCommand (name : CommandName) (arguments : List String) : Except ArgumentStop Given := do
  let (given, _) ← Given.read name.rules false {} arguments
  given.settle

def combine (top given : Given) (name : CommandName) : Invocation :=
  { configPath := (given.value? "config").or (top.value? "config")
    verbosity := if given.verbosity = 0 then top.verbosity else given.verbosity
    command := some (name, given) }

def parse (arguments : List String) : Except ArgumentStop Invocation := do
  let (top, continuation) ← Given.read topRules true {} arguments
  match continuation with
  | none =>
    let top ← top.settle
    return { configPath := top.value? "config", verbosity := top.verbosity }
  | some (name, rest) =>
    let given ← readCommand name rest
    return combine (← top.settle) given name

end Invocation

end ViewForge
