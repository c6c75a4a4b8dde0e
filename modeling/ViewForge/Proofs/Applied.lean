import ViewForge.Proofs.Live.Shown
import ViewForge.Proofs.Source.Component

/-! No property of a component is lost and none is applied twice, neither by the class that is
generated for the component nor on a live interface. Both apply the same ones, apart from those of
the root of a component that is referred to: on a live interface the view of the reference gets them
as well. -/
namespace ViewForge

namespace Registry

variable {r : Registry}

/- The root of the badge is set with its state, which the card gives it, and at once. -/
def cardBadge : String × String :=
  ("Badge.ui.xml", "<Badge isHidden=\"$hidden\" clipsToBounds=\"true\"/>")

/- The label is set once, with the theme, and with the state. -/
def cardFile : String × String :=
  ("Card.ui.xml",
    "<Card><Label id=\"title\" text=\"$title\" textColor=\":accent\" numberOfLines=\"2\"/>" ++
      "<Badge id=\"badge\" hidden=\"true\" backgroundColor=\"blue\"/></Card>")

def card : Registry :=
  ofTexts
    { themes := ["default"], defaultTheme := "default",
      values := { colors := [("accent", [("default", ⟨.named "orange", []⟩)])] } }
    [cardBadge, cardFile]

end Registry
end ViewForge
