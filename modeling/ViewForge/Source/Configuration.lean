import ViewForge.Code.Basic
import ViewForge.Platform
/-! What the generated source depends on besides its input. -/
namespace ViewForge
open Code (Access)

structure Configuration where
  platform : Platform
  minimumVersion : Version := .least
  liveReload : Bool := false
  access : Access := .moduleScope
  deriving DecidableEq, Repr

def Configuration.plainAccess (c : Configuration) : Access := c.access.outsideClass

end ViewForge
