import SceneCodegen.Scene.Header
import SceneCodegen.Table

/-!
# Script wiring of a scene

Of a scene file only the wiring matters: the external resources that are scripts, the nodes with
the script each carries, and the connections whose target node carries one of those scripts. Such a
connection is retained together with the path of the script. A scene whose external resources end
without a script is left at once.
-/
namespace SceneCodegen.Scene

inductive TagKind | extResource | node | connection | other
  deriving DecidableEq, Repr

def TagKind.ofHeader : String → TagKind
  | "ext_resource" => .extResource
  | "node" => .node
  | "connection" => .connection
  | _ => .other

def TagKind.text : TagKind → String
  | .extResource => "ext_resource"
  | .node => "node"
  | .connection => "connection"
  | .other => "other"

/-- A header kept with the properties gathered for it, in order. -/
structure Tag where
  kind : TagKind
  name : String
  properties : List (String × String) := []
  deriving DecidableEq, Repr

namespace Tag

/-- The first value of a property. -/
def get? (key : String) (tag : Tag) : Option String := tag.properties.lookup key

/-- Sets a property in last place, in place of all its values. -/
def withProperty (key value : String) (tag : Tag) : Tag :=
  { tag with properties := tag.properties.filter (·.1 != key) ++ [(key, value)] }

end Tag

def rootName : String := "."

/-- The property that holds the path of a connection's script. -/
def scriptPathKey : String := "cs"

/-- The property that holds the identifier of a node's script. -/
def scriptKey : String := "script"

/-- The path of a node below the root, as connections name it. -/
def nodePath (name : String) : Option String → String
  | none => rootName
  | some parent => if parent == "" || parent == rootName then name else parent ++ "/" ++ name

/-- What has been read of a scene. -/
structure Reading where
  tags : List Tag := []
  resources : Table String Tag := []
  nodes : Table String Tag := []
  /-- The node whose body lines are being read, with its path. -/
  pending : Option (String × Tag) := none
  current : TagKind := .other
  previous : Option TagKind := none
  abandoned : Bool := false
  deriving DecidableEq, Repr

namespace Reading

def closeNode (r : Reading) : Reading :=
  match r.pending with
  | none => r
  | some (path, tag) =>
    { r with nodes := r.nodes.set path tag, tags := r.tags ++ [tag], pending := none }

/-- Whether a header of this kind shows that no external resource is a script. -/
def showsNoScript (kind : TagKind) (r : Reading) : Bool :=
  r.previous == some .extResource && kind != .extResource && r.resources.isEmpty

/-- The last value of a property; an earlier one of the same key does not count. -/
def lastValue? (key : String) (pairs : List (String × String)) : Option String :=
  pairs.reverse.lookup key

def addResource (scriptExtension : String) (pairs : List (String × String)) (r : Reading) :
    Reading :=
  match lastValue? "id" pairs with
  | none => r
  | some id =>
    if id == "" || !Text.hasSuffix scriptExtension ((lastValue? "path" pairs).getD "") then r
    else
      let tag : Tag := ⟨.extResource, id, pairs⟩
      { r with resources := r.resources.set id tag, tags := r.tags ++ [tag] }

def openNode (pairs : List (String × String)) (r : Reading) : Reading :=
  match lastValue? "name" pairs with
  | none => { r with current := .other }
  | some name =>
    if name == "" then { r with current := .other }
    else
      let parent := lastValue? "parent" pairs
      let tag : Tag := ⟨.node, if parent.isSome then name else rootName, pairs⟩
      { r with pending := some (nodePath name parent, tag) }

def scriptOf? (path : String) (r : Reading) : Option Tag := do
  let node ← r.nodes.get? path
  let id ← node.get? scriptKey
  r.resources.get? id

def addConnection (pairs : List (String × String)) (r : Reading) : Reading :=
  match lastValue? "method" pairs, lastValue? "to" pairs with
  | some method, some target =>
    if method == "" then r
    else match r.scriptOf? target with
      | none => r
      | some script =>
        let tag : Tag := ⟨.connection, method, pairs⟩
        let path := (script.get? "path").getD ""
        { r with tags := r.tags ++ [tag.withProperty scriptPathKey path] }
  | _, _ => r

/-- Takes in a header that belongs to the scene. -/
def addHeader (scriptExtension : String) (h : Header) (r : Reading) : Reading :=
  let kind := TagKind.ofHeader h.kind
  let r := { r with previous := some kind, current := kind }
  match kind with
  | .extResource => r.addResource scriptExtension h.pairs
  | .node => r.openNode h.pairs
  | .connection => r.addConnection h.pairs
  | .other => r

/-- The script identifier that a body line assigns to its node. -/
def scriptOfLine? (trimmed : String) : Option String := do
  let (key, value) ← Text.cutAt '=' trimmed.toList
  if Text.trim (String.ofList key) == scriptKey then resourceReference (String.ofList value)
  else none

def addBodyLine (trimmed : String) (r : Reading) : Reading :=
  match r.current, r.pending, scriptOfLine? trimmed with
  | .node, some (path, tag), some id =>
    { r with pending := some (path, tag.withProperty scriptKey id) }
  | _, _, _ => r

def isIgnored (trimmed : String) : Bool := trimmed == "" || Text.hasPrefix ";" trimmed

def addLine (scriptExtension trimmed : String) (r : Reading) : Reading :=
  match Header.ofLine trimmed with
  | none => r.addBodyLine trimmed
  | some h =>
    let r := r.closeNode
    if r.showsNoScript (TagKind.ofHeader h.kind) then { r with abandoned := true }
    else r.addHeader scriptExtension h

/-- Takes in lines up to the end, or up to the one at which the scene is left. -/
def addLines (scriptExtension : String) : List String → Reading → Reading
  | [], r => r.closeNode
  | line :: rest, r =>
    let trimmed := Text.trim line
    if isIgnored trimmed then r.addLines scriptExtension rest
    else
      let r := r.addLine scriptExtension trimmed
      if r.abandoned then r else r.addLines scriptExtension rest

def ofLines (scriptExtension : String) (lines : List String) : Reading :=
  ({} : Reading).addLines scriptExtension lines

end Reading

/-- A scene with at least one retained connection. -/
structure Asset where
  path : String
  tags : List Tag
  deriving DecidableEq, Repr

/-- A retained connection apart from its scene. -/
structure Connection where
  scenePath : String
  tag : Tag
  deriving DecidableEq, Repr

namespace Connection

def method (c : Connection) : String := c.tag.name
def scriptPath (c : Connection) : String := (c.tag.get? scriptPathKey).getD ""
def fromNode (c : Connection) : String := (c.tag.get? "from").getD ""
def signal (c : Connection) : String := (c.tag.get? "signal").getD ""

end Connection

namespace Asset

def connectionTags (a : Asset) : List Tag := a.tags.filter (·.kind == .connection)

/-- The retained connections, each with its place among them. -/
def connections (a : Asset) : List (Nat × Connection) :=
  a.connectionTags.zipIdx.map fun (tag, place) => (place, ⟨a.path, tag⟩)

end Asset

/-- The asset of a reading that was not left and retained a connection. -/
def Reading.asset? (path : String) (r : Reading) : Option Asset :=
  if r.abandoned || !r.tags.any (·.kind == .connection) then none else some ⟨path, r.tags⟩

/-- Parses a scene; nothing if no connection leads into a script. -/
def parse (scriptExtension path : String) (lines : List String) : Option Asset :=
  (Reading.ofLines scriptExtension lines).asset? path

end SceneCodegen.Scene
