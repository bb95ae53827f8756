import SceneCodegen.Scan.Ancestry
import SceneCodegen.Scan.Record

/-!
# Scanning declared classes

Which of a class's declarations carry a marker that code is generated for. A class is of interest
if it derives from the root object type or carries such a marker; types of the engine itself never
are.
-/
namespace SceneCodegen.Scan

def singletonMarker : String := "GodotHelper.SourceGenerators.Attributes.AutoLoadGetAttribute"
def accessorMarker : String := "GodotHelper.SourceGenerators.Attributes.AutoGetAttribute"
def notifyMarker : String := "GodotHelper.SourceGenerators.Attributes.NotifyAttribute"
def remoteCallMarker : String := "Godot.RpcAttribute"
def eventSignalMarker : String := "Godot.SignalAttribute"

/-- The path an accessor marker gives, none counting as empty, and whether a node has
to be there. -/
def accessorArgs (m : Symbol.Marker) : List Json :=
  let path := m.argument 0 "path" (.text "")
  let notNull := m.argument 1 "notNull" (.bool true)
  [if path.isTruthy then path else .text "", .bool notNull.isTruthy]

def notifyArgs (m : Symbol.Marker) : List Json :=
  [.bool (m.argument 0 "useSignal" (.bool false)).isTruthy,
    .bool (m.argument 1 "useExport" (.bool false)).isTruthy]

def declaredMember (kind : MarkedKind) (owner : TypeSymbol) (m : Symbol.Member)
    (markerArgs : List Json := []) : DeclaredMember :=
  { kind, owner := owner.qualifiedName, name := m.name, type := m.type, markerArgs
    symbolKind := m.kind.text, parameters := m.parameters.map fun p => (p.name, p.type)
    location := m.location }

def notifyField? (owner : TypeSymbol) (m : Symbol.Member) : Option DeclaredMember := do
  guard (m.kind == .field && !m.isImplicit)
  let marker ← Symbol.findMarker? notifyMarker m.markers
  pure (declaredMember .notifyField owner m (notifyArgs marker))

def isOrdinaryMethod (m : Symbol.Member) : Bool :=
  m.kind == .method && !m.isImplicit && m.methodKind == "ordinary"

/-- The accessor, remote call or event a member declares, in a class derived from the root type. -/
def rootMember? (owner : TypeSymbol) (m : Symbol.Member) : Option DeclaredMember :=
  if (m.kind == .field || m.kind == .property) && !m.isImplicit then
    (Symbol.findMarker? accessorMarker m.markers).map fun marker =>
      declaredMember .accessor owner m (accessorArgs marker)
  else if isOrdinaryMethod m then
    if Symbol.hasMarker remoteCallMarker m.markers then some (declaredMember .remoteCall owner m)
    else none
  else if m.kind == .delegate && Symbol.hasMarker eventSignalMarker m.markers then
    some (declaredMember .eventEmit owner m)
  else none

/-- What one member declares; a static member declares nothing. -/
def markedMembersOf (owner : TypeSymbol) (derivesFromRoot : Bool) (m : Symbol.Member) :
    List DeclaredMember :=
  if m.isStatic then []
  else
    (notifyField? owner m).toList ++ if derivesFromRoot then (rootMember? owner m).toList else []

def markedMembers (s : TypeSymbol) (derivesFromRoot : Bool) : List DeclaredMember :=
  s.members.flatMap (markedMembersOf s derivesFromRoot)

def isSingleton (s : TypeSymbol) : Bool := Symbol.hasMarker singletonMarker s.markers

def singletonRecord (s : TypeSymbol) (base : Option TypeSymbol) : SingletonRecord :=
  { baseIsSingleton := base.any isSingleton, nameSpace := s.nameSpace
    hintName := hintNameOf s.qualifiedName ++ "_GodotHelper_AutoLoad.g.cs", name := s.name
    fullyQualifiedName := s.displayName }

/-- A call that refers to a method with a default value for each parameter. -/
def methodCall (m : Symbol.Member) : String :=
  m.name ++ "(" ++ Text.join ", " (m.parameters.map fun p => "default(" ++ p.type ++ ")") ++ ");"

/-- The ordinary methods with a call of the first overload of each. -/
def methods (members : List Symbol.Member) : Table String String :=
  members.foldl
    (fun t m => if isOrdinaryMethod m && !m.isStatic then t.setNew m.name (methodCall m) else t) []

def classRecord (s : TypeSymbol) : ClassRecord :=
  { name := s.name, nameSpace := s.nameSpace, hintName := hintNameOf s.qualifiedName
    sourcePaths := s.sourcePaths, methods := methods s.members }

def singletonMember (s : TypeSymbol) : DeclaredMember :=
  { kind := .singletonClass, owner := s.qualifiedName, name := s.name, type := s.displayName
    symbolKind := "class", location := s.location }

variable {m : Type → Type} [Monad m]

/-- Scans one type; nothing if no code can come of it. -/
def scanClass (r : TypeResolver m) (s : TypeSymbol) : m (Option ScannedClass) := do
  if s.kind != .classType || s.assembly == TypeResolver.rootAssembly then return none
  let base ← r.baseOf s
  let derivesFromRoot ← r.inheritsFromRoot base
  let singleton ←
    if isSingleton s then some <$> singletonRecord s <$> r.baseOf s else pure none
  let members :=
    (if isSingleton s then [singletonMember s] else []) ++ markedMembers s derivesFromRoot
  if !derivesFromRoot && members.isEmpty then return none
  let containingDeclarations ← r.containingDeclarations s
  return some
    { qualifiedName := s.qualifiedName, name := s.name, nameSpace := s.nameSpace
      nameWithTypeParameters := s.nameWithTypeParameters, hintName := hintNameOf s.qualifiedName
      containingDeclarations, derivesFromRoot, members, singleton
      classRecord := if derivesFromRoot then some (classRecord s) else none }

end SceneCodegen.Scan
