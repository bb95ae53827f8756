import SceneCodegen.Fragment.Basic
import SceneCodegen.Manifest

/-!
# The input action fragment

One constant for each input action of the manifest, in the order of the actions' names.
-/
namespace SceneCodegen.Fragment

def inputActionHintName : String := "HelperGenerator_InputActionName.g.cs"

def inputActionLine (e : Manifest.Entry) : String :=
  indent ++ "public static readonly StringName " ++ identifier e.name ++ " = " ++
    stringLiteral e.name ++ ";"

def renderInputActions (entries : List Manifest.Entry) : Option GeneratedFragment :=
  if entries.isEmpty then none
  else
    some <| ofLines inputActionHintName <|
      ["using Godot;", "using System;", "", "public partial class InputActionName", "\x7b"] ++
      (entries.mergeSort fun a b => a.name ≤ b.name).map inputActionLine ++ ["\x7d"]

end SceneCodegen.Fragment
