import ViewForge.Error.Reading
/-! Everything that can end a compilation. Each cause is a constructor; `Error.message` words it. -/
namespace ViewForge

inductive ConfigurationError where
  | missingInput
  | missingApplication
  | missingPlatform
  | invalidPlatform (value : String)
  | invalidVersion (value : String)
  | invalidAccess (value : String)
  | conflictingModes (modes : String)
  | invalidFile (detail : String)
  deriving DecidableEq, Repr

def ConfigurationError.message : ConfigurationError → String
  | missingInput => "Input path has to be specified"
  | missingApplication => "Application description file has to be specified"
  | missingPlatform =>
    "Platform has to be specified either with --platform or the PLATFORM_NAME environment variable"
  | invalidPlatform value => s!"Invalid platform '{value}', expected one of: ios, tvos"
  | invalidVersion value => s!"Invalid version '{value}', expected major.minor[.patch]"
  | invalidAccess value => s!"Invalid access modifier '{value}'"
  | conflictingModes modes => s!"Output modes are mutually exclusive, got: {modes}"
  | invalidFile detail => s!"Invalid configuration file: {detail}"

inductive DocumentError where
  | malformed (detail : String)
  | severalRoots
  | noRoot
  | neverClosed (tag : String)
  | duplicateAttribute (name tag : String)
  | missingAttribute (tag name : String)
  | unknownStyleType (tag : String)
  | styleSheetExpected (tag : String)
  | applicationExpected (tag : String)
  | itemWithoutName (category : String)
  | unknownTemplateType (tag : String)
  | notStructural (tag : String)
  | childrenForbidden (tag : String)
  deriving DecidableEq, Repr

def DocumentError.message : DocumentError → String
  | malformed detail => detail
  | severalRoots => "Document has more than one root element"
  | noRoot => "Document has no root element"
  | neverClosed tag => s!"Element <{tag}> is never closed"
  | duplicateAttribute name tag => s!"Duplicate attribute '{name}' on <{tag}>"
  | missingAttribute tag name => s!"<{tag}> is missing its '{name}' attribute"
  | unknownStyleType tag => s!"Unknown style type <{tag}>"
  | styleSheetExpected tag => s!"Expected <styleGroup> as the root of a style sheet, found <{tag}>"
  | applicationExpected tag => s!"Expected <Application> as the root, found <{tag}>"
  | itemWithoutName category => s!"<item> in <{category}> is missing its 'name' attribute"
  | unknownTemplateType tag => s!"Unknown template type <{tag}>"
  | notStructural tag => s!"<{tag}> is not a structural block"
  | childrenForbidden tag => s!"<{tag}> cannot contain child elements"

inductive StateError where
  | boundInStyle (style property : String)
  | declaredTwice (name : String)
  | conflictingTypes (name first second : String)
  | unknownVariable (action name : String)
  deriving DecidableEq, Repr

def StateError.message : StateError → String
  | boundInStyle style property =>
    s!"Style '{style}' binds '{property}' to state, which styles cannot do"
  | declaredTwice name => s!"State item '{name}' is declared twice"
  | conflictingTypes name first second =>
    s!"State variable '{name}' is bound to properties of different types ({first} and {second})"
  | unknownVariable action name => s!"Action '{action}' refers to unknown state variable '{name}'"

inductive Error where
  | io (detail : String)
  | configuration (cause : ConfigurationError)
  | parse (cause : ParseError)
  | document (cause : DocumentError)
  | unknownValue (value typeName : String)
  | invalidType (name path : String)
  | state (cause : StateError)
  | unknownStyle (name : String)
  | styleTypeMismatch (style styleType elementType : String)
  | unknownComponent (name : String)
  | unknownElement (id component : String)
  | unknownProperty (property element : String)
  | unknownAction (action element : String)
  | actionMismatch (action detail : String)
  | duplicateIdentifier (id component : String)
  | mixedConstraintField (field : String)
  | cyclicReference (chain : String)
  | themedItemNotFound (theme item : String)
  | unsupportedPlatform (element platform : String)
  | missingFactory (runtimeType : String)
  | missingInserter (runtimeType : String)
  | outputCollision (path first second : String)
  | inFile (path : String) (cause : Error)
  deriving DecidableEq, Repr

namespace Error

def message : Error → String
  | io detail => s!"IO error: {detail}"
  | configuration cause => cause.message
  | parse cause => "Parse error: " ++ cause.message
  | document cause => "Malformed XML: " ++ cause.message
  | unknownValue value typeName => s!"Unknown value '{value}' for type {typeName}"
  | invalidType name path => s!"Invalid type '{name}' in {path}: the name is reserved"
  | state cause => "Tokenization error: " ++ cause.message
  | unknownStyle name => s!"Unknown style '{name}'"
  | styleTypeMismatch style styleType elementType =>
    s!"Style '{style}' is declared for {styleType} and can't be applied to {elementType}"
  | unknownComponent name => s!"Unknown component type '{name}'"
  | unknownElement id component => s!"Component '{component}' references unknown element '{id}'"
  | unknownProperty property element => s!"Element '{element}' has no property '{property}'"
  | unknownAction action element => s!"Element '{element}' doesn't support action '{action}'"
  | actionMismatch action detail => s!"Action '{action}' has incompatible sources: {detail}"
  | duplicateIdentifier id component =>
    s!"Identifier '{id}' is used more than once in component '{component}'"
  | mixedConstraintField field =>
    s!"Constraint field '{field}' is declared both with and without a condition"
  | cyclicReference chain => s!"Cyclic reference detected: {chain}"
  | themedItemNotFound theme item => s!"Themed item '{item}' not found for theme '{theme}'"
  | unsupportedPlatform element platform => s!"Element '{element}' is not available on {platform}"
  | missingFactory runtimeType => s!"No live factory registered for '{runtimeType}'"
  | missingInserter runtimeType => s!"No live inserter can add a subview to '{runtimeType}'"
  | outputCollision path first second =>
    s!"Output file {path} would be written for both {first} and {second}"
  | inFile path cause => path ++ ": " ++ cause.message

/-- Names the file an error arose in, unless the error names one already. -/
def annotate (path : String) : Error → Error
  | inFile p cause => inFile p cause
  | invalidType name p => invalidType name p
  | e => inFile path e

end Error

abbrev Result := Except Error

def Result.inFile (path : String) : Result α → Result α
  | .ok a => .ok a
  | .error e => .error (e.annotate path)

def Result.ofParse : Except ParseError α → Result α
  | .ok a => .ok a
  | .error e => .error (.parse e)

end ViewForge
