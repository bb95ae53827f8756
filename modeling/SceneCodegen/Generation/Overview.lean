import SceneCodegen.Generation.Generator

/-!
# Overviews

What was read of a project, before anything is generated, as one JSON document: the entries of its
manifests, the wired connections of its scenes and the classes with marked members.
-/
namespace SceneCodegen.Overview
open SceneCodegen.Graph Generation

def texts (xs : List String) : Json := .list (xs.map .text)

def textPair (p : String × String) : Json := texts [p.1, p.2]

def optional {α : Type} (f : α → Json) (x : Option α) : Json := (x.map f).getD .null

def entry (e : Manifest.Entry) : Json :=
  .object [("kind", .text e.kind.text), ("name", .text e.name), ("path", .text e.path)]

/-- A connection by the attributes of its tag, and the method it calls. -/
def connection (tag : Scene.Tag) : Json :=
  .object (Json.setMember "method" (.text tag.name)
    (tag.properties.foldl (fun members (key, value) =>
      Json.setMember key (.text value) members) []))

def scene (a : Scene.Asset) : Json :=
  .object [("path", .text a.path), ("connections", .list (a.connectionTags.map connection))]

def location (l : SourceLocation) : Json :=
  .object [("path", .text l.path), ("line", .int l.line), ("column", .int l.column)]

def member (m : DeclaredMember) : Json :=
  .object
    [("kind", .text m.kind.text), ("owner", .text m.owner), ("name", .text m.name),
      ("type", .text m.type), ("marker_args", .list m.markerArgs),
      ("symbol_kind", .text m.symbolKind), ("parameters", .list (m.parameters.map textPair)),
      ("location", location m.location)]

def singleton (r : SingletonRecord) : Json :=
  .object
    [("base_is_singleton", .bool r.baseIsSingleton), ("namespace", .text r.nameSpace),
      ("hint_name", .text r.hintName), ("name", .text r.name),
      ("fully_qualified_name", .text r.fullyQualifiedName)]

def classRecord (r : ClassRecord) : Json :=
  .object
    [("name", .text r.name), ("namespace", .text r.nameSpace), ("hint_name", .text r.hintName),
      ("source_paths", texts r.sourcePaths), ("methods", .list (r.methods.map textPair))]

def scannedClass (c : ScannedClass) : Json :=
  .object
    [("qualified_name", .text c.qualifiedName), ("name", .text c.name),
      ("namespace", .text c.nameSpace),
      ("name_with_type_parameters", .text c.nameWithTypeParameters),
      ("hint_name", .text c.hintName),
      ("containing_declarations", .list (c.containingDeclarations.map textPair)),
      ("derives_from_root", .bool c.derivesFromRoot), ("members", .list (c.members.map member)),
      ("singleton", optional singleton c.singleton),
      ("class_record", optional classRecord c.classRecord)]

def program : Query Json := do
  let entries ← entries.items
  let scenes ← sceneAssets.items
  let classes ← scannedClasses.items
  return .object
    [("manifest", .list (entries.map fun (_, e) => entry e)),
      ("scenes", .list (scenes.map fun (_, a) => scene a)),
      ("classes", .list (classes.map fun (_, c) => scannedClass c))]

end SceneCodegen.Overview

namespace SceneCodegen

def Generator.overview (g : Generator) :
    Except (Graph.Halt Generation.Node) Json × Generator :=
  g.ask Overview.program

end SceneCodegen
