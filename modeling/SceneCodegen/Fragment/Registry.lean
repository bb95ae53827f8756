import SceneCodegen.Fragment.Basic
import SceneCodegen.Scan.Record

/-!
# Singleton fragments

Each singleton of the manifest has a slot in one registry class, typed with the declared class it
was matched to. A slot without one is filled from the scene root by name. A matched class gets a
fragment in which it puts itself into its slot.
-/
namespace SceneCodegen

structure SingletonSlot where
  name : String
  record : Option SingletonRecord := none
  deriving DecidableEq, Repr

namespace SingletonSlot

def isTyped (s : SingletonSlot) : Bool := s.record.isSome

def slotType (s : SingletonSlot) : String := (s.record.map (·.fullyQualifiedName)).getD "Node"

end SingletonSlot

/-- All slots, in the order of their names. -/
structure SingletonRegistry where
  slots : List SingletonSlot := []
  deriving DecidableEq, Repr

def SingletonRegistry.ofSlots (slots : List SingletonSlot) : SingletonRegistry :=
  ⟨slots.mergeSort fun a b => a.name ≤ b.name⟩

namespace Fragment

def registryHintName : String := "HelperGenerator_AutoLoad.g.cs"

def registryClass : String := "AutoLoad"

def slotLine (s : SingletonSlot) : String :=
  indent ++ "public static " ++ s.slotType ++ " " ++ s.name ++ " \x7b get; set; \x7d = null!;"

def resolveLine (s : SingletonSlot) : String :=
  indent2 ++ s.name ++ " ??= node.GetNode(" ++ stringLiteral ("/root/" ++ s.name) ++ ");"

/-- The registry class; only typed classes fill the registry, so one without them is not written. -/
def renderRegistry (r : SingletonRegistry) : Option GeneratedFragment :=
  if r.slots.any (·.isTyped) then
    some <| ofLines registryHintName <|
      ["using Godot;", "using System;", "", "public partial class " ++ registryClass, "\x7b"] ++
      r.slots.map slotLine ++
      ["", indent ++ "public static void ResolveOthers(Node node)", indent ++ "\x7b"] ++
      (r.slots.filter (!·.isTyped)).map resolveLine ++
      [indent ++ "\x7d", "\x7d"]
  else none

def singletonLines (slot : String) (r : SingletonRecord) : List String :=
  ["using Godot;", "using System;", ""] ++ fileNamespace r.nameSpace ++
    ["public partial class " ++ r.name,
      "\x7b",
      indent ++ "partial void OnInit();",
      indent ++ "public " ++ r.name ++ "()",
      indent ++ "\x7b"] ++
    (if r.baseIsSingleton then [indent2 ++ "Ready -= base.ReadyCallback;"] else []) ++
    [indent2 ++ "Ready += ReadyCallback;",
      indent2 ++ "OnInit();",
      indent ++ "\x7d",
      "",
      "#pragma warning disable CS0109",
      indent ++ "partial void OnReady();",
      indent ++ "public new void ReadyCallback()",
      indent ++ "\x7b",
      indent2 ++ registryClass ++ "." ++ slot ++ " = this;",
      indent2 ++ registryClass ++ ".ResolveOthers(this);",
      indent2 ++ "OnReady();",
      indent ++ "\x7d",
      "#pragma warning restore CS0109",
      "\x7d"]

/-- The fragment by which the class of a typed slot fills it. -/
def renderSingleton (s : SingletonSlot) : Option GeneratedFragment :=
  s.record.map fun r => ofLines r.hintName (singletonLines s.name r)

end Fragment
end SceneCodegen
