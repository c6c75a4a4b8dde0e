import ViewForge.Error
import ViewForge.Text.Case
/-! The platforms that source is generated for, and their versions. -/
namespace ViewForge

inductive Platform where
  | iOS
  | tvOS
  deriving DecidableEq, Repr

namespace Platform

def name : Platform → String
  | iOS => "iOS"
  | tvOS => "tvOS"

def ofSdk? : String → Option Platform
  | "iphoneos" | "iphonesimulator" => some iOS
  | "appletvos" | "appletvsimulator" => some tvOS
  | _ => none

def parse (value : String) : Except ConfigurationError Platform :=
  match Text.asciiLower value with
  | "ios" => .ok iOS
  | "tvos" => .ok tvOS
  | _ => .error (.invalidPlatform value)

end Platform

structure Version where
  major : Nat
  minor : Nat
  patch : Nat := 0
  deriving DecidableEq, Repr

namespace Version

def least : Version := { major := 12, minor := 0 }

def atLeast (v : Version) (major minor : Nat) : Bool :=
  major < v.major || (v.major == major && minor ≤ v.minor)

def display (v : Version) : String :=
  let core := toString v.major ++ "." ++ toString v.minor
  if v.patch = 0 then core else core ++ "." ++ toString v.patch

def part? (s : String) : Option Nat := (Number.readNat? s).filter (· < Nat.pow 2 32)

def parse (value : String) : Except ConfigurationError Version :=
  match (Text.cut '.' (Text.trim value)).mapM part? with
  | some [major, minor] => .ok { major, minor }
  | some [major, minor, patch] => .ok { major, minor, patch }
  | _ => .error (.invalidVersion value)

end Version

end ViewForge
