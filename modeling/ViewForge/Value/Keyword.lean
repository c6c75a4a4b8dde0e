/-! Closed sets of keywords, each standing for the cases of a platform type. -/
namespace ViewForge

inductive KeywordSet where
  | textAlignment
  | lineBreakMode
  | contentMode
  | keyboardType
  | returnKeyType
  | textBorderStyle
  | autocapitalizationType
  | layoutAxis
  | stackDistribution
  | stackAlignment
  | activityIndicatorStyle
  | datePickerMode
  | contentHorizontalAlignment
  | contentVerticalAlignment
  deriving DecidableEq, Repr

namespace KeywordSet

def all : List KeywordSet := [textAlignment, lineBreakMode, contentMode, keyboardType,
  returnKeyType, textBorderStyle, autocapitalizationType, layoutAxis, stackDistribution,
  stackAlignment, activityIndicatorStyle, datePickerMode, contentHorizontalAlignment,
  contentVerticalAlignment]

def name : KeywordSet → String
  | textAlignment => "TextAlignment"
  | lineBreakMode => "LineBreakMode"
  | contentMode => "ContentMode"
  | keyboardType => "KeyboardType"
  | returnKeyType => "ReturnKeyType"
  | textBorderStyle => "TextBorderStyle"
  | autocapitalizationType => "AutocapitalizationType"
  | layoutAxis => "LayoutAxis"
  | stackDistribution => "StackDistribution"
  | stackAlignment => "StackAlignment"
  | activityIndicatorStyle => "ActivityIndicatorStyle"
  | datePickerMode => "DatePickerMode"
  | contentHorizontalAlignment => "ContentHorizontalAlignment"
  | contentVerticalAlignment => "ContentVerticalAlignment"

def runtimeType : KeywordSet → String
  | textAlignment => "NSTextAlignment"
  | lineBreakMode => "NSLineBreakMode"
  | contentMode => "UIView.ContentMode"
  | keyboardType => "UIKeyboardType"
  | returnKeyType => "UIReturnKeyType"
  | textBorderStyle => "UITextField.BorderStyle"
  | autocapitalizationType => "UITextAutocapitalizationType"
  | layoutAxis => "NSLayoutConstraint.Axis"
  | stackDistribution => "UIStackView.Distribution"
  | stackAlignment => "UIStackView.Alignment"
  | activityIndicatorStyle => "UIActivityIndicatorView.Style"
  | datePickerMode => "UIDatePicker.Mode"
  | contentHorizontalAlignment => "UIControl.ContentHorizontalAlignment"
  | contentVerticalAlignment => "UIControl.ContentVerticalAlignment"

def cases : KeywordSet → List (String × Int)
  | textAlignment =>
    [("left", 0), ("center", 1), ("right", 2), ("justified", 3), ("natural", 4)]
  | lineBreakMode => [("byWordWrapping", 0), ("byCharWrapping", 1), ("byClipping", 2),
      ("byTruncatingHead", 3), ("byTruncatingTail", 4), ("byTruncatingMiddle", 5)]
  | contentMode => [("scaleToFill", 0), ("scaleAspectFit", 1), ("scaleAspectFill", 2),
      ("redraw", 3), ("center", 4), ("top", 5), ("bottom", 6), ("left", 7), ("right", 8),
      ("topLeft", 9), ("topRight", 10), ("bottomLeft", 11), ("bottomRight", 12)]
  | keyboardType => [("default", 0), ("asciiCapable", 1), ("numbersAndPunctuation", 2),
      ("URL", 3), ("numberPad", 4), ("phonePad", 5), ("namePhonePad", 6), ("emailAddress", 7),
      ("decimalPad", 8), ("twitter", 9), ("webSearch", 10)]
  | returnKeyType => [("default", 0), ("go", 1), ("google", 2), ("join", 3), ("next", 4),
      ("route", 5), ("search", 6), ("send", 7), ("yahoo", 8), ("done", 9),
      ("emergencyCall", 10), ("continue", 11)]
  | textBorderStyle => [("none", 0), ("line", 1), ("bezel", 2), ("roundedRect", 3)]
  | autocapitalizationType =>
    [("none", 0), ("words", 1), ("sentences", 2), ("allCharacters", 3)]
  | layoutAxis => [("horizontal", 0), ("vertical", 1)]
  | stackDistribution => [("fill", 0), ("fillEqually", 1), ("fillProportionally", 2),
      ("equalSpacing", 3), ("equalCentering", 4)]
  | stackAlignment => [("fill", 0), ("leading", 1), ("firstBaseline", 2), ("center", 3),
      ("trailing", 4), ("lastBaseline", 5)]
  | activityIndicatorStyle => [("medium", 100), ("large", 101)]
  | datePickerMode => [("time", 0), ("date", 1), ("dateAndTime", 2), ("countDownTimer", 3)]
  | contentHorizontalAlignment => [("center", 0), ("left", 1), ("right", 2), ("fill", 3),
      ("leading", 4), ("trailing", 5)]
  | contentVerticalAlignment => [("center", 0), ("top", 1), ("bottom", 2), ("fill", 3)]

def find? (name : String) : Option KeywordSet :=
  all.find? fun k => k.name == name || k.runtimeType == name

def index? (k : KeywordSet) (keyword : String) : Option Nat :=
  k.cases.findIdx? (·.1 == keyword)

def keyword (k : KeywordSet) (index : Nat) : String := ((k.cases[index]?).map (·.1)).getD ""

def raw? (k : KeywordSet) (index : Nat) : Option Int := (k.cases[index]?).map (·.2)

end KeywordSet

end ViewForge
