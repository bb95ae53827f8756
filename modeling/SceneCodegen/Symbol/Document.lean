import SceneCodegen.Symbol.SymbolTable

/-!
# Symbol documents

The form of the document in which the host build exports its declared types: an object whose
`types` lists the parts of all types. Fields that are left out have defaults, except names, the kind
of a member and the type of a parameter.
-/
namespace SceneCodegen.Symbol
open Checked

/-- The members of an object as pairs in the order of their names. -/
def sortedPairs (members : List (String × Json)) : Json :=
  .list ((members.mergeSort fun a b => a.1 ≤ b.1).map fun (name, x) => .list [.text name, x])

def namedArgs : Form (List (String × Json))
  | .object members => items (pair text anything) (sortedPairs members)
  | x => items (pair text anything) x

def location : Form SourceLocation := model fun ms =>
  SourceLocation.mk <$> optional "path" "" text ms <*> optional "line" 0 integer ms
    <*> optional "column" 0 integer ms

def marker : Form Marker := model fun ms =>
  Marker.mk <$> required "name" text ms <*> optional "args" [] (items anything) ms
    <*> optional "named_args" [] namedArgs ms

def parameter : Form Parameter := model fun ms =>
  Parameter.mk <$> required "name" text ms <*> required "type" text ms

def MemberKind.ofText? : String → Option MemberKind
  | "field" => some .field
  | "property" => some .property
  | "method" => some .method
  | "delegate" => some .delegate
  | "event" => some .event
  | _ => none

def TypeKind.ofText? : String → Option TypeKind
  | "class" => some .classType
  | "struct" => some .structType
  | "interface" => some .interfaceType
  | "record" => some .recordType
  | "delegate" => some .delegateType
  | _ => none

def member : Form Member := model fun ms =>
  Member.mk <$> required "kind" (literal MemberKind.ofText?) ms <*> required "name" text ms
    <*> optional "type" "void" text ms <*> optional "is_static" false bool ms
    <*> optional "is_implicit" false bool ms <*> optional "method_kind" "ordinary" text ms
    <*> optional "parameters" [] (items parameter) ms <*> optional "markers" [] (items marker) ms
    <*> optional "location" {} location ms

def part : Form Part := model fun ms =>
  build <$> required "name" text ms <*> optional "namespace" "" text ms
    <*> optional "containing_type" none (nullable text) ms <*> optional "assembly" "" text ms
    <*> optional "kind" .classType (literal TypeKind.ofText?) ms
    <*> optional "type_parameters" [] (items text) ms
    <*> optional "base_type" none (nullable text) ms
    <*> optional "source_path" none (nullable text) ms <*> optional "markers" [] (items marker) ms
    <*> optional "members" [] (items member) ms <*> optional "location" {} location ms
where
  build (name nameSpace : String) (containingType : Option String) (assembly : String)
      (kind : TypeKind) (typeParameters : List String) (baseType sourcePath : Option String)
      (markers : List Marker) (members : List Member) (location : SourceLocation) : Part :=
    { name, nameSpace, containingType, assembly, kind, typeParameters, baseType, sourcePath,
      markers, members, location }

def document : Form (List Part) := model fun ms => optional "types" [] (items part) ms

def reader : SymbolTable.Reader := fun x => (document x).toExcept

end SceneCodegen.Symbol
