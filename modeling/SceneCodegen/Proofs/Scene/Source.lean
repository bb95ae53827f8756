import SceneCodegen.Proofs.Scene.HeaderText
import SceneCodegen.Scene.Wiring

/-!
# Scenes before they are written

A scene has external resources with identifiers of their own, sections for what it defines itself,
a tree of nodes in which siblings have different names, and connections. A node may carry a script,
which is an external resource. The engine writes all this in lines: each part as a header, the
properties of a section or a node in lines after its header, the nodes before their children.
-/
namespace SceneCodegen.Scene

def Attribute.quoted (key text : String) (filled : key ≠ "" := by decide)
    (plain : key.toList.all isKeyChar = true := by decide) : Attribute :=
  ⟨key, .quoted text, filled, plain⟩

structure ResourceId where
  text : String
  filled : text ≠ ""
  plain : ∀ c ∈ text.toList, c ≠ '"' ∧ c ≠ '\\'
  deriving DecidableEq

theorem ResourceId.text_injective : Function.Injective ResourceId.text := by
  rintro ⟨a, _, _⟩ ⟨b, _, _⟩ h
  cases h
  rfl

/-- An external resource. -/
structure Resource where
  type : String
  path : String
  id : ResourceId
  others : List Attribute := []
  others_keys : ∀ a ∈ others, a.key ∉ ["type", "path", "id"]

/-- A line that gives a property its value. A key with an equals sign is itself in quotes. -/
structure Property where
  key : String
  value : String
  first : ∃ c rest, key.toList = c :: rest ∧ Text.isBlank c = false ∧ c ≠ '[' ∧ c ≠ ';'
  last : ∀ c, key.toList.getLast? = some c → Text.isBlank c = false
  equals : '=' ∈ key.toList → key.toList.head? = some '"'

/-- Something that the scene itself defines. -/
structure Section where
  attributes : List Attribute
  properties : List Property

structure NodeName where
  text : String
  filled : text ≠ ""
  notRoot : text ≠ rootName
  plain : '/' ∉ text.toList
  deriving DecidableEq

theorem NodeName.text_injective : Function.Injective NodeName.text := by
  rintro ⟨a, _, _, _⟩ ⟨b, _, _, _⟩ h
  cases h
  rfl

/-- A node apart from its place in the tree. -/
structure Entry where
  name : NodeName
  type : Option String := none
  others : List Attribute := []
  others_keys : ∀ a ∈ others, a.key ∉ ["name", "parent", scriptKey]
  before : List Property := []
  script : Option ResourceId := none
  after : List Property := []
  properties_keys : ∀ p ∈ before ++ after, p.key ≠ scriptKey

inductive Tree
  | node (entry : Entry) (children : List Tree)

def Tree.entry : Tree → Entry
  | node entry _ => entry

def Tree.name (t : Tree) : NodeName := t.entry.name

/-- Siblings have different names, at every node. -/
inductive Tree.Distinct : Tree → Prop
  | node {entry : Entry} {children : List Tree} : (children.map Tree.name).Nodup →
      (∀ t ∈ children, t.Distinct) → Distinct (.node entry children)

/-- A connection of a signal with a method of a node. -/
structure Wire where
  signal : String
  fromNode : String
  target : String
  method : String
  others : List Attribute := []
  others_keys : ∀ a ∈ others, a.key ∉ ["signal", "from", "to", "method", scriptPathKey]

structure Source where
  attributes : List Attribute
  resources : List Resource
  sections : List Section := []
  root : Tree
  wires : List Wire
  distinctIds : (resources.map Resource.id).Nodup
  distinctNames : root.Distinct

/-- A node with the names that lead to its parent from the root, which has none. -/
structure Placed where
  parent : Option (List NodeName)
  entry : Entry

def Placed.place (n : Placed) : List NodeName :=
  match n.parent with
  | none => []
  | some names => names ++ [n.entry.name]

/-- A place as connections write it. -/
def placeText : List NodeName → String
  | [] => rootName
  | names => String.ofList (List.intercalate ['/'] (names.map (·.text.toList)))

mutual

def Tree.nodes (parent : Option (List NodeName)) : Tree → List Placed
  | .node entry children => ⟨parent, entry⟩ :: nodesOfAll (Placed.mk parent entry).place children

def nodesOfAll (place : List NodeName) : List Tree → List Placed
  | [] => []
  | t :: rest => t.nodes (some place) ++ nodesOfAll place rest

end

def Source.nodes (s : Source) : List Placed := s.root.nodes none

def Property.line (p : Property) : String := p.key ++ " = " ++ p.value

def scriptLine (id : ResourceId) : String := scriptKey ++ " = ExtResource(\"" ++ id.text ++ "\")"

namespace Resource

def attributes (x : Resource) : List Attribute :=
  .quoted "type" x.type :: (x.others ++ [.quoted "path" x.path, .quoted "id" x.id.text])

def line (x : Resource) : String := headerLine "ext_resource" x.attributes

end Resource

def Section.lines (x : Section) : List String :=
  headerLine "sub_resource" x.attributes :: x.properties.map Property.line

namespace Placed

def attributes (n : Placed) : List Attribute :=
  .quoted "name" n.entry.name.text :: ((n.entry.type.map (.quoted "type")).toList ++
    (n.parent.map fun names => .quoted "parent" (placeText names)).toList ++ n.entry.others)

def bodyLines (n : Placed) : List String :=
  n.entry.before.map Property.line ++ (n.entry.script.map scriptLine).toList ++
    n.entry.after.map Property.line

def lines (n : Placed) : List String := headerLine "node" n.attributes :: n.bodyLines

end Placed

namespace Wire

def attributes (w : Wire) : List Attribute :=
  .quoted "signal" w.signal :: .quoted "from" w.fromNode :: .quoted "to" w.target ::
    .quoted "method" w.method :: w.others

def line (w : Wire) : String := headerLine "connection" w.attributes

end Wire

def Source.lines (s : Source) : List String :=
  headerLine "gd_scene" s.attributes :: (s.resources.map Resource.line ++
    s.sections.flatMap Section.lines ++ s.nodes.flatMap Placed.lines ++ s.wires.map Wire.line)

/-- A scene whose root holds a button that carries a script. -/
def buttonScene : Source where
  attributes := [⟨"format", .raw "3" (.char (by decide) (by decide) (by decide) .nil) (by decide),
    by decide, by decide⟩]
  resources := [⟨"Script", "res://Start.cs", ⟨"1_start", by decide, by simp⟩, [], by simp⟩]
  root := .node ⟨⟨"Menu", by decide, by decide, by decide⟩, some "Control", [], by simp, [],
    none, [],
      by simp⟩
    [.node ⟨⟨"Start", by decide, by decide, by decide⟩, some "Button", [], by simp, [],
      some ⟨"1_start", by decide, by simp⟩, [], by simp⟩ []]
  wires := [⟨"pressed", "Start", "Start", "OnPressed", [], by simp⟩]
  distinctIds := by simp
  distinctNames := .node (by simp) (by simpa using .node (by simp) (by simp))

example : buttonScene.lines = ["[gd_scene format=3]",
    "[ext_resource type=\"Script\" path=\"res://Start.cs\" id=\"1_start\"]",
    "[node name=\"Menu\" type=\"Control\"]",
    "[node name=\"Start\" type=\"Button\" parent=\".\"]",
    "script = ExtResource(\"1_start\")",
    "[connection signal=\"pressed\" from=\"Start\" to=\"Start\" method=\"OnPressed\"]"] := by
  rfl

theorem isKind_extResource : IsKind "ext_resource".toList := isKind_of_all (by decide)
theorem isKind_subResource : IsKind "sub_resource".toList := isKind_of_all (by decide)
theorem isKind_node : IsKind "node".toList := isKind_of_all (by decide)
theorem isKind_connection : IsKind "connection".toList := isKind_of_all (by decide)
theorem isKind_scene : IsKind "gd_scene".toList := isKind_of_all (by decide)

def scriptAt? (scriptExtension : String) (resources : List Resource) (nodes : List Placed)
    (place : String) : Option Resource := do
  let n ← nodes.find? fun n => placeText n.place == place
  let id ← n.entry.script
  resources.find? fun x => x.id.text == id.text && Text.hasSuffix scriptExtension x.path

/-- The connection as a tag that is retained, with the path of the script it leads to. -/
def Wire.tag (w : Wire) (script : Resource) : Tag :=
  ⟨.connection, w.method, w.attributes.map Attribute.pair ++ [(scriptPathKey, script.path)]⟩

/-- The connection with the script it leads to, if it names a method. -/
def kept? (scriptExtension : String) (resources : List Resource) (nodes : List Placed) (w : Wire) :
    Option (Wire × Resource) :=
  if w.method = "" then none
  else (scriptAt? scriptExtension resources nodes w.target).map fun script => (w, script)

namespace Source
variable (s : Source) (scriptExtension : String)

/-- The target of the connection is a node whose script is the resource, a script indeed. -/
def LeadsTo (w : Wire) (x : Resource) : Prop :=
  x ∈ s.resources ∧ Text.hasSuffix scriptExtension x.path = true ∧
    ∃ n ∈ s.nodes, placeText n.place = w.target ∧ n.entry.script = some x.id

/-- The connection names a method and leads to a script. -/
def Wired (w : Wire) : Prop := w.method ≠ "" ∧ ∃ x, s.LeadsTo scriptExtension w x

end Source

end SceneCodegen.Scene
