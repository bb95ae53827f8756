import SceneCodegen.Fragment.Basic
import SceneCodegen.Scan.Record
import SceneCodegen.Table

/-!
# Helper fragments

The helper fragment of a class looks up the nodes of its accessors in one method, and wraps its
remote calls and its events. Two accessors may not look up one node, and an event's delegate has to
carry the suffix of event handlers; a member that breaks a rule is refused and leaves no trace.
-/
namespace SceneCodegen.Fragment

/-- The lines gathered for one class. -/
structure HelperState where
  fieldLines : List String := []
  propertyLines : List String := []
  wrapperLines : List String := []
  /-- The accepted accessors by the node they look up. -/
  membersByPath : Table String DeclaredMember := []

namespace HelperState

def hasAccessors (s : HelperState) : Bool := !s.fieldLines.isEmpty || !s.propertyLines.isEmpty

def isEmpty (s : HelperState) : Bool := !s.hasAccessors && s.wrapperLines.isEmpty

def lookupStatement (m : DeclaredMember) : String :=
  indent2 ++ m.name ++ " = " ++ (if m.notNull then "GetNode" else "GetNodeOrNull") ++ "<" ++ m.type
    ++ ">(" ++ stringLiteral m.nodePath ++ ");"

def duplicatePath (previous m : DeclaredMember) : Diagnostic :=
  { id := Diagnostic.duplicateAccessorPath, severity := .error, location := m.location
    message := "Members '" ++ previous.name ++ "' and '" ++ m.name ++ "' of " ++ m.owner ++
      " both resolve to node path '" ++ m.nodePath ++ "'." }

def parameterList (m : DeclaredMember) : String :=
  Text.join ", " (m.parameters.map fun (name, type) => type ++ " " ++ name)

/-- The parameters as further arguments of a call. -/
def forwarded (m : DeclaredMember) : String :=
  Text.join "" (m.parameters.map fun (name, _) => ", " ++ name)

/-- A documented method whose body is one statement. -/
def wrapper (documented header statement : String) : List String :=
  [indent ++ "/// <inheritdoc cref=\"" ++ documented ++ "\"/>",
    indent ++ "public void " ++ header,
    indent ++ "\x7b",
    indent2 ++ statement,
    indent ++ "\x7d",
    ""]

def remoteCallLines (m : DeclaredMember) : List String :=
  let parameters := parameterList m
  let directed := "long peerId" ++ if parameters == "" then "" else ", " ++ parameters
  let target := "MethodName." ++ m.name ++ forwarded m ++ ");"
  wrapper m.name ("Rpc" ++ m.name ++ "(" ++ parameters ++ ")") ("Rpc(" ++ target) ++
    wrapper m.name ("Rpc" ++ m.name ++ "(" ++ directed ++ ")") ("RpcId(peerId, " ++ target)

def eventLines (m : DeclaredMember) (signal : String) : List String :=
  wrapper (includeGlobal (m.owner ++ "." ++ m.name))
    ("Emit" ++ signal ++ "(" ++ parameterList m ++ ")")
    ("EmitSignal(SignalName." ++ signal ++ forwarded m ++ ");")

def missingSuffix (m : DeclaredMember) : Diagnostic :=
  { id := Diagnostic.signalNameSuffix, severity := .error, location := m.location
    message := "Signal delegate '" ++ m.name ++ "' must end with '" ++ eventSuffix ++ "'." }

def accessorMethod (s : HelperState) : List String :=
  if s.hasAccessors then
    [indent ++ "public void GetNodes()", indent ++ "\x7b"] ++ s.fieldLines ++
      (if s.fieldLines.isEmpty || s.propertyLines.isEmpty then [] else [""]) ++ s.propertyLines ++
      [indent ++ "\x7d", ""]
  else []

end HelperState

/-- The file of a class's helpers around the lines gathered for it. -/
def helperLines (c : ScannedClass) (s : HelperState) : List String :=
  let opening :=
    ["using Godot;", "using Godot.NativeInterop;", ""] ++
      (if c.nameSpace == "" then [] else ["namespace " ++ c.nameSpace ++ " \x7b", ""]) ++
      c.containingDeclarations.flatMap (fun (keyword, name) =>
        ["partial " ++ keyword ++ " " ++ name, "\x7b"]) ++
      ["partial class " ++ c.nameWithTypeParameters, "\x7b"]
  dropEmptyEnd (opening ++ s.accessorMethod ++ s.wrapperLines) ++ ["\x7d"] ++
    c.containingDeclarations.map (fun _ => "\x7d") ++
    if c.nameSpace == "" then [] else ["", "\x7d"]

/-- Steps on the state of a class that may end with a refusal. A refusal takes no step back. -/
abbrev Handling := ExceptT Diagnostic (StateM HelperState)

namespace Handling
open HelperState

def accessor (m : DeclaredMember) : Handling Unit := do
  match (← get).membersByPath.get? m.nodePath with
  | some previous => throw (duplicatePath previous m)
  | none =>
    modify fun s => { s with membersByPath := s.membersByPath.set m.nodePath m }
    if m.symbolKind == "property" then
      modify fun s => { s with propertyLines := s.propertyLines ++ [lookupStatement m] }
    else modify fun s => { s with fieldLines := s.fieldLines ++ [lookupStatement m] }

def remoteCall (m : DeclaredMember) : Handling Unit :=
  modify fun s => { s with wrapperLines := s.wrapperLines ++ remoteCallLines m }

def event (m : DeclaredMember) : Handling Unit :=
  match signalName? m.name with
  | none => throw (missingSuffix m)
  | some signal => modify fun s => { s with wrapperLines := s.wrapperLines ++ eventLines m signal }

end Handling

/-- What handles the members of a class, by their kinds. -/
abbrev EmitterRegistry := Table MarkedKind (DeclaredMember → Handling Unit)

namespace EmitterRegistry

/-- Singleton classes and notify fields have fragments of their own. -/
def standard : EmitterRegistry :=
  .ofList [(.accessor, Handling.accessor), (.remoteCall, Handling.remoteCall),
    (.eventEmit, Handling.event)]

/-- Handles a member by the handler of its kind; a kind without one is passed over. -/
def handle (m : DeclaredMember) (registry : EmitterRegistry) : Handling Unit :=
  match registry.get? m.kind with
  | some handler => handler m
  | none => pure ()

end EmitterRegistry

/-- The helper fragment of a class derived from the root type, if it has helpers. The members are
handled in order, up to the first that is refused. -/
def renderHelpers (c : ScannedClass) (registry : EmitterRegistry := .standard) :
    Except Diagnostic (Option GeneratedFragment) :=
  if c.derivesFromRoot then
    match (c.members.forM fun m => registry.handle m).run.run {} with
    | (.error d, _) => .error d
    | (.ok (), s) => .ok <| if s.isEmpty then none
        else some (ofLines (c.hintName ++ "_GodotHelper.g.cs") (helperLines c s))
  else .ok none

end SceneCodegen.Fragment
