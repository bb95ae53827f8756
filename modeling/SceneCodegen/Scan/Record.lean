import SceneCodegen.Symbol.Basic
import SceneCodegen.Text.Blank

/-!
# Records of scanned classes

What the renderers need to know of a declared class: its names, the declarations around it, and its
marked members with the arguments of their markers.
-/
namespace SceneCodegen

inductive MarkedKind | accessor | remoteCall | eventEmit | singletonClass | notifyField
  deriving DecidableEq, Repr

def MarkedKind.text : MarkedKind → String
  | .accessor => "accessor"
  | .remoteCall => "remote_call"
  | .eventEmit => "event_emit"
  | .singletonClass => "singleton_class"
  | .notifyField => "notify_field"

/-- A marked declaration with the arguments of its marker. -/
structure DeclaredMember where
  kind : MarkedKind
  owner : String
  name : String
  type : String
  markerArgs : List Json := []
  symbolKind : String := ""
  /-- Names with types. -/
  parameters : List (String × String) := []
  location : SourceLocation := {}
  deriving BEq

namespace DeclaredMember

def explicitPath (m : DeclaredMember) : String := (m.markerArgs.head?.map Json.asText).getD ""

def notNull (m : DeclaredMember) : Bool := (m.markerArgs[1]?.map Json.isTruthy).getD true

/-- The path an accessor looks up: the one given, or the unique name of the member. -/
def nodePath (m : DeclaredMember) : String :=
  if Text.trim m.explicitPath == "" then "%" ++ m.name else m.explicitPath

end DeclaredMember

structure SingletonRecord where
  baseIsSingleton : Bool
  nameSpace : String
  hintName : String
  name : String
  fullyQualifiedName : String
  deriving DecidableEq, Repr

structure ClassRecord where
  name : String
  nameSpace : String
  hintName : String
  sourcePaths : List String
  /-- Method names with a call of each. -/
  methods : List (String × String)
  deriving DecidableEq, Repr

structure ScannedClass where
  qualifiedName : String
  name : String
  nameSpace : String
  nameWithTypeParameters : String
  hintName : String
  /-- Keyword and name of every enclosing type, outermost first. -/
  containingDeclarations : List (String × String)
  derivesFromRoot : Bool
  members : List DeclaredMember
  singleton : Option SingletonRecord := none
  classRecord : Option ClassRecord := none
  deriving BEq

namespace ScannedClass

def isNested (c : ScannedClass) : Bool := !c.containingDeclarations.isEmpty

def membersOf (kind : MarkedKind) (c : ScannedClass) : List DeclaredMember :=
  c.members.filter (·.kind == kind)

end ScannedClass

/-- File names hold no angle brackets. -/
def hintNameOf (qualifiedName : String) : String :=
  Text.replaceChars
    (fun c => if c == '<' then "(Of ".toList else if c == '>' then [')'] else [c]) qualifiedName

def includeGlobal (qualifiedName : String) : String :=
  if qualifiedName == "" || Text.hasPrefix Symbol.globalPrefix qualifiedName then qualifiedName
  else Symbol.globalPrefix ++ qualifiedName

end SceneCodegen
