import SceneCodegen.Fragment.Basic
import SceneCodegen.Scan.Record

/-!
# Notify property fragments

A property for each notify field of an outermost class, which reports changes of its value. A field
whose name is already that of a property has none. The flags of the marker play no part.
-/
namespace SceneCodegen.Fragment

/-- The declarations of the property for a field of a type, at the given indentation. -/
def propertyLines (margin field type property : String) : List String :=
  let inner := margin ++ indent
  let inner2 := inner ++ indent
  let inner3 := inner2 ++ indent
  let both := type ++ " oldValue, " ++ type ++ " newValue"
  [margin ++ "public event Action<" ++ type ++ ", " ++ type ++ "> " ++ property ++ "Changed;",
    margin ++ "partial void On" ++ property ++ "Changing(" ++ both ++ ");",
    margin ++ "partial void On" ++ property ++ "Changed(" ++ both ++ ");",
    "",
    margin ++ "/// <inheritdoc cref=\"" ++ field ++ "\"/>",
    margin ++ "public " ++ type ++ " " ++ property,
    margin ++ "\x7b",
    inner ++ "get => " ++ field ++ ";",
    inner ++ "set",
    inner ++ "\x7b",
    inner2 ++ "if (!EqualityComparer<" ++ type ++ ">.Default.Equals(" ++ field ++ ", value))",
    inner2 ++ "\x7b",
    inner3 ++ "var oldValue = " ++ field ++ ";",
    inner3 ++ "On" ++ property ++ "Changing(oldValue, value);",
    inner3 ++ field ++ " = value;",
    inner3 ++ "On" ++ property ++ "Changed(oldValue, value);",
    inner3 ++ property ++ "Changed?.Invoke(oldValue, value);",
    inner2 ++ "\x7d",
    inner ++ "\x7d",
    margin ++ "\x7d",
    ""]

def notifyLines (margin : String) (m : DeclaredMember) : List String :=
  let property := pascalCase m.name
  if property == "" || property == m.name then [] else propertyLines margin m.name m.type property

def renderNotify (c : ScannedClass) : Option GeneratedFragment :=
  if c.isNested then none
  else
    let classIndent := if c.nameSpace == "" then "" else indent
    let body := (c.membersOf .notifyField).flatMap (notifyLines (classIndent ++ indent))
    if body.isEmpty then none
    else
      some <| ofLines (c.hintName ++ "_GodotHelperNotify.g.cs") <|
        ["using Godot;", "using System;", "using System.Collections.Generic;", ""] ++
        (if c.nameSpace == "" then [] else ["namespace " ++ c.nameSpace, "\x7b"]) ++
        [classIndent ++ "public partial class " ++ c.nameWithTypeParameters,
          classIndent ++ "\x7b"] ++
        dropEmptyEnd body ++
        [classIndent ++ "\x7d"] ++
        if c.nameSpace == "" then [] else ["\x7d"]

end SceneCodegen.Fragment
