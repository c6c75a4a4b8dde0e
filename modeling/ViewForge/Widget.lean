import ViewForge.Action.Call
import ViewForge.Property
/-! The built-in kinds of elements: their properties, the events they send, and how they are
made. -/
namespace ViewForge
open Code (Expr Stmt)

inductive Widget where
  | view
  | container
  | stackView
  | scrollView
  | label
  | button
  | textField
  | textView
  | imageView
  | switch
  | slider
  | stepper
  | segmentedControl
  | activityIndicator
  | datePicker
  deriving DecidableEq, Repr

inductive EventSource where
  | control (event : String)
  | component (action : String)
  | barButton
  deriving DecidableEq, Repr

structure EventParameter where
  label : Option String
  type : ValueType
  accessor : String
  deriving DecidableEq, Repr

structure EventDescription where
  name : String
  aliases : List String := []
  parameters : List EventParameter := []
  source : EventSource
  deriving DecidableEq, Repr

namespace EventDescription

def answersTo (d : EventDescription) (event : String) : Bool :=
  d.name == event || d.aliases.contains event

def find? (events : List EventDescription) (event : String) : Option EventDescription :=
  List.find? (·.answersTo event) events

def control (name : String) (aliases : List String) (event : String)
    (parameters : List (String × String × String)) : EventDescription :=
  { name, aliases, source := .control event,
    parameters := parameters.map fun p => ⟨some p.1, .lookup p.2.1, p.2.2⟩ }

end EventDescription

namespace Widget

def all : List Widget := [view, container, stackView, scrollView, label, button, textField,
  textView, imageView, switch, slider, stepper, segmentedControl, activityIndicator, datePicker]

def tag : Widget → String
  | view => "View"
  | container => "Container"
  | stackView => "StackView"
  | scrollView => "ScrollView"
  | label => "Label"
  | button => "Button"
  | textField => "TextField"
  | textView => "TextView"
  | imageView => "ImageView"
  | switch => "Switch"
  | slider => "Slider"
  | stepper => "Stepper"
  | segmentedControl => "SegmentedControl"
  | activityIndicator => "ActivityIndicator"
  | datePicker => "DatePicker"

def ofTag? (tag : String) : Option Widget := all.find? (·.tag == tag)

def ofStyleTag? (tag : String) : Option Widget := (Text.before? "Style" tag).bind ofTag?

def runtimeType : Widget → String
  | view | container => "UIView"
  | stackView => "UIStackView"
  | scrollView => "UIScrollView"
  | label => "UILabel"
  | button => "UIButton"
  | textField => "UITextField"
  | textView => "UITextView"
  | imageView => "UIImageView"
  | switch => "UISwitch"
  | slider => "UISlider"
  | stepper => "UIStepper"
  | segmentedControl => "UISegmentedControl"
  | activityIndicator => "UIActivityIndicatorView"
  | datePicker => "UIDatePicker"

def isContainer : Widget → Bool
  | container | stackView | scrollView => true
  | _ => false

def isAvailable (platform : Platform) : Widget → Bool
  | switch | slider | stepper | datePicker => platform == .iOS
  | _ => true

def viewEntries : List TableEntry := [
  .assign "backgroundColor" "Color?",
  .assign "tintColor" "Color?",
  .assign "alpha" "Float",
  .assign "isHidden" "Bool",
  .assign "isOpaque" "Bool",
  .assign "clipsToBounds" "Bool",
  .assign "isUserInteractionEnabled" "Bool",
  .assign "contentMode" "ContentMode",
  .assign "frame" "Rect",
  .assign "layoutMargins" "EdgeInsets",
  .assign "tag" "Int",
  .assign "accessibilityLabel" "String?",
  .assign "accessibilityIdentifier" "String?",
  .within "layer" [
    .assign "cornerRadius" "Float",
    .assign "borderWidth" "Float",
    .assign "borderColor" "CGColor?",
    .assign "masksToBounds" "Bool",
    .assign "shadowColor" "CGColor?",
    .assign "shadowOffset" "Size",
    .assign "shadowRadius" "Float"]]

def controlEntries : List TableEntry := viewEntries ++ [
  .assign "isEnabled" "Bool",
  .assign "isSelected" "Bool",
  .assign "isHighlighted" "Bool",
  .assign "contentHorizontalAlignment" "ContentHorizontalAlignment",
  .assign "contentVerticalAlignment" "ContentVerticalAlignment"]

def textInputEntries : List TableEntry := [
  .assign "text" "String?",
  .assign "textColor" "Color?",
  .assign "font" "Font?",
  .assign "textAlignment" "TextAlignment",
  .assign "keyboardType" "KeyboardType",
  .assign "returnKeyType" "ReturnKeyType",
  .assign "autocapitalizationType" "AutocapitalizationType",
  .assign "isSecureTextEntry" "Bool"]

def entries : Widget → List TableEntry
  | view | container => viewEntries
  | stackView => viewEntries ++ [
      .assign "axis" "LayoutAxis",
      .assign "spacing" "Float",
      .assign "distribution" "StackDistribution",
      .assign "alignment" "StackAlignment",
      .assign "isBaselineRelativeArrangement" "Bool",
      .assign "isLayoutMarginsRelativeArrangement" "Bool"]
  | scrollView => viewEntries ++ [
      .assign "contentSize" "Size",
      .assign "contentOffset" "Point",
      .assign "contentInset" "EdgeInsets",
      .assign "isScrollEnabled" "Bool",
      .assign "isPagingEnabled" "Bool",
      .assign "bounces" "Bool",
      .assign "alwaysBounceVertical" "Bool",
      .assign "alwaysBounceHorizontal" "Bool",
      .assign "showsVerticalScrollIndicator" "Bool",
      .assign "showsHorizontalScrollIndicator" "Bool"]
  | label => viewEntries ++ [
      .assign "text" "String?",
      .assign "textColor" "Color",
      .assign "highlightedTextColor" "Color?",
      .assign "font" "Font",
      .assign "numberOfLines" "Int",
      .assign "textAlignment" "TextAlignment",
      .assign "lineBreakMode" "LineBreakMode",
      .assign "adjustsFontSizeToFitWidth" "Bool",
      .assign "minimumScaleFactor" "Float"]
  | button => controlEntries ++ [
      .perState "title" "String?" "setTitle",
      .perState "titleColor" "Color?" "setTitleColor",
      .perState "image" "Image?" "setImage",
      .perState "backgroundImage" "Image?" "setBackgroundImage",
      .assign "contentEdgeInsets" "EdgeInsets",
      .within "titleLabel" [
        .assign "font" "Font",
        .assign "numberOfLines" "Int",
        .assign "textAlignment" "TextAlignment",
        .assign "lineBreakMode" "LineBreakMode"]]
  | textField => controlEntries ++ textInputEntries ++ [
      .assign "placeholder" "String?",
      .assign "borderStyle" "TextBorderStyle",
      .assign "clearsOnBeginEditing" "Bool",
      .assign "adjustsFontSizeToFitWidth" "Bool",
      .assign "minimumFontSize" "Float"]
  | textView => viewEntries ++ textInputEntries ++ [
      .assign "isEditable" "Bool",
      .assign "isSelectable" "Bool",
      .assign "isScrollEnabled" "Bool",
      .assign "textContainerInset" "EdgeInsets"]
  | imageView => viewEntries ++ [
      .assign "image" "Image?",
      .assign "highlightedImage" "Image?",
      .assign "isHighlighted" "Bool"]
  | switch => controlEntries ++ [
      .assign "isOn" "Bool",
      .assign "onTintColor" "Color?",
      .assign "thumbTintColor" "Color?"]
  | slider => controlEntries ++ [
      .assign "value" "Float",
      .assign "minimumValue" "Float",
      .assign "maximumValue" "Float",
      .assign "isContinuous" "Bool",
      .assign "minimumTrackTintColor" "Color?",
      .assign "maximumTrackTintColor" "Color?"]
  | stepper => controlEntries ++ [
      .assign "value" "Double",
      .assign "minimumValue" "Double",
      .assign "maximumValue" "Double",
      .assign "stepValue" "Double",
      .assign "wraps" "Bool",
      .assign "autorepeat" "Bool",
      .assign "isContinuous" "Bool"]
  | segmentedControl => controlEntries ++ [
      .assign "selectedSegmentIndex" "Int",
      .assign "selectedSegmentTintColor" "Color?",
      .assign "isMomentary" "Bool"]
  | activityIndicator => viewEntries ++ [
      .assign "style" "ActivityIndicatorStyle",
      .assign "color" "Color",
      .assign "hidesWhenStopped" "Bool"]
  | datePicker => controlEntries ++ [
      .assign "datePickerMode" "DatePickerMode",
      .assign "minuteInterval" "Int"]

def table (w : Widget) : PropertyTable := PropertyTable.build w.entries

def events : Widget → List EventDescription
  | button => [.control "tap" ["touchUpInside"] "touchUpInside" []]
  | textField => [
      .control "textChanged" ["editingChanged", "text"] "editingChanged"
        [("text", "String", "sender.text ?? \"\"")],
      .control "editingDidBegin" ["beginEditing"] "editingDidBegin" [],
      .control "editingDidEnd" ["endEditing"] "editingDidEnd"
        [("text", "String", "sender.text ?? \"\"")],
      .control "primaryAction" ["returnKey"] "editingDidEndOnExit" []]
  | switch =>
    [.control "valueChanged" ["toggle", "isOn"] "valueChanged" [("isOn", "Bool", "sender.isOn")]]
  | slider =>
    [.control "valueChanged" ["value"] "valueChanged" [("value", "Double", "Double(sender.value)")]]
  | stepper =>
    [.control "valueChanged" ["value"] "valueChanged" [("value", "Double", "sender.value")]]
  | segmentedControl => [.control "valueChanged" ["selectedSegment"] "valueChanged"
      [("index", "Int", "sender.selectedSegmentIndex")]]
  | datePicker =>
    [.control "valueChanged" ["date"] "valueChanged" [("date", "Date", "sender.date")]]
  | _ => []

def creation : Widget → Expr
  | button => (Expr.identifier "UIButton").apply [(some "type", .implicitMember "custom")]
  | w => (Expr.identifier w.runtimeType).apply []

def insertionMethod : Widget → String
  | stackView => "addArrangedSubview"
  | _ => "addSubview"

end Widget

def attributedTextTable : PropertyTable := PropertyTable.build [
  .assign "font" "Font",
  .assign "foregroundColor" "Color",
  .assign "backgroundColor" "Color",
  .assign "kern" "Float",
  .assign "baselineOffset" "Float"]

end ViewForge
