import SceneCodegen.Diagnostic
import SceneCodegen.Json.Basic

/-!
# Declared types

The declarations of the host program as its build exports them. A type may be declared in several
parts; a part and a whole type are told apart by their types here. Names are qualified by the
enclosing type, or by the namespace of an outermost type; a type is looked up by its qualified name
without type parameters.
-/
namespace SceneCodegen.Symbol

/-- One application of a marker with its constructor arguments. -/
structure Marker where
  name : String
  args : List Json := []
  namedArgs : List (String × Json) := []
  deriving BEq

namespace Marker

def named? (key : String) (m : Marker) : Option Json := m.namedArgs.lookup key

/-- The argument at a place, or else by name, or else a default. A null counts as not given at a
place, but not by name. -/
def argument (place : Nat) (key : String) (default : Json) (m : Marker) : Json :=
  match m.args[place]? with
  | none | some .null => (m.named? key).getD default
  | some x => x

end Marker

structure Parameter where
  name : String
  type : String
  deriving DecidableEq, Repr

inductive MemberKind | field | property | method | delegate | event
  deriving DecidableEq, Repr

def MemberKind.text : MemberKind → String
  | .field => "field"
  | .property => "property"
  | .method => "method"
  | .delegate => "delegate"
  | .event => "event"

structure Member where
  kind : MemberKind
  name : String
  type : String := "void"
  isStatic : Bool := false
  isImplicit : Bool := false
  methodKind : String := "ordinary"
  parameters : List Parameter := []
  markers : List Marker := []
  location : SourceLocation := {}
  deriving BEq

def hasMarker (name : String) (markers : List Marker) : Bool := markers.any (·.name == name)

/-- The first application of a marker. -/
def findMarker? (name : String) (markers : List Marker) : Option Marker :=
  markers.find? (·.name == name)

inductive TypeKind | classType | structType | interfaceType | recordType | delegateType
  deriving DecidableEq, Repr

def TypeKind.text : TypeKind → String
  | .classType => "class"
  | .structType => "struct"
  | .interfaceType => "interface"
  | .recordType => "record"
  | .delegateType => "delegate"

def globalPrefix : String := "global::"

/-- A name qualified by the enclosing type, or else by the namespace. -/
def qualify (name nameSpace : String) (containing : Option String) : String :=
  match containing with
  | some outer => if outer != "" then outer ++ "." ++ name else inSpace
  | none => inSpace
where
  inSpace := if nameSpace != "" then nameSpace ++ "." ++ name else name

/-- What a part and a whole type have in common. -/
structure Declaration where
  name : String
  nameSpace : String := ""
  containingType : Option String := none
  assembly : String := ""
  kind : TypeKind := .classType
  typeParameters : List String := []
  baseType : Option String := none
  markers : List Marker := []
  members : List Member := []
  location : SourceLocation := {}
  deriving BEq

namespace Declaration

def nameWithTypeParameters (d : Declaration) : String :=
  if d.typeParameters.isEmpty then d.name
  else d.name ++ "<" ++ Text.join ", " d.typeParameters ++ ">"

def qualifiedName (d : Declaration) : String :=
  qualify d.nameWithTypeParameters d.nameSpace d.containingType

def lookupName (d : Declaration) : String := qualify d.name d.nameSpace d.containingType

def displayName (d : Declaration) : String := globalPrefix ++ d.qualifiedName

end Declaration

/-- One part of a type's declaration, in one file. -/
structure Part extends Declaration where
  sourcePath : Option String := none
  deriving BEq

end Symbol

/-- A declared type with all its parts put together. -/
structure TypeSymbol extends Symbol.Declaration where
  sourcePaths : List String := []
  deriving BEq

end SceneCodegen
