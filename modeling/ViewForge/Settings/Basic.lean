import ViewForge.Text.Basic
/-! The settings file: defaults for what the command line leaves open. -/
namespace ViewForge

inductive SettingValue where
  | text (text : String)
  | flag (value : Bool)
  | nothing
  | other
  deriving DecidableEq, Repr

structure Settings where
  platform : Option String := none
  minimumVersion : Option String := none
  accessModifier : Option String := none
  liveReload : Option Bool := none
  inputPath : Option String := none
  applicationDescription : Option String := none
  outputFile : Option String := none
  outputDirectory : Option String := none
  skipUnchanged : Option Bool := none
  deriving DecidableEq, Repr

namespace SettingValue

def text? : SettingValue → Option (Option String)
  | text s => some (some s)
  | nothing => some none
  | _ => none

def flag? : SettingValue → Option (Option Bool)
  | flag b => some (some b)
  | nothing => some none
  | _ => none

end SettingValue

namespace Settings

def keys : List String := ["platform", "minimum-version", "access-modifier", "live-reload",
  "input-path", "application-description", "output-file", "output-directory", "skip-unchanged"]

def set (s : Settings) (key : String) (value : SettingValue) : Option Settings :=
  match key with
  | "platform" => value.text?.map ({ s with platform := · })
  | "minimum-version" => value.text?.map ({ s with minimumVersion := · })
  | "access-modifier" => value.text?.map ({ s with accessModifier := · })
  | "live-reload" => value.flag?.map ({ s with liveReload := · })
  | "input-path" => value.text?.map ({ s with inputPath := · })
  | "application-description" => value.text?.map ({ s with applicationDescription := · })
  | "output-file" => value.text?.map ({ s with outputFile := · })
  | "output-directory" => value.text?.map ({ s with outputDirectory := · })
  | "skip-unchanged" => value.flag?.map ({ s with skipUnchanged := · })
  | _ => some s

def setAll (s : Settings) : List (String × SettingValue) → Option Settings
  | [] => some s
  | (key, value) :: rest => (s.set key value).bind (·.setAll rest)

def repeats : List String → Bool
  | [] => false
  | key :: rest => (keys.contains key && rest.contains key) || repeats rest

def ofEntries (entries : List (String × SettingValue)) : Option Settings :=
  if repeats (entries.map (·.1)) then none else setAll {} entries

end Settings

abbrev TextReader (α : Type) := List Char → Option (α × List Char)

namespace TextReader

def hexValue? (c : Char) : Option Nat :=
  if '0' ≤ c && c ≤ '9' then some (c.toNat - '0'.toNat)
  else if 'a' ≤ c && c ≤ 'f' then some (c.toNat - 'a'.toNat + 10)
  else if 'A' ≤ c && c ≤ 'F' then some (c.toNat - 'A'.toNat + 10)
  else none

def hex : Nat → Nat → TextReader Nat
  | 0, value, cs => some (value, cs)
  | n + 1, value, c :: rest => (hexValue? c).bind fun digit => hex n (value * 16 + digit) rest
  | _ + 1, _, [] => none

def charOf? (code : Nat) : Option Char :=
  if code.isValidChar then some (Char.ofNat code) else none

def digits (cs : List Char) : Option (List Char) :=
  match cs with
  | c :: rest => if c.isDigit then some (rest.dropWhile Char.isDigit) else none
  | [] => none

end TextReader

end ViewForge
