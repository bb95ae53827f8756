import SceneCodegen.Fragment.Basic
import SceneCodegen.Scan.Record
import SceneCodegen.Scene.Wiring

/-!
# Connection list fragments

A method, never run, that refers to every handler of a class which scenes connect to: for each
method in the order of declaration, its connections in the order in which they are given.
-/
namespace SceneCodegen.Fragment

def connectionLines (call : String) (c : Scene.Connection) : List String :=
  ["",
    indent2 ++ "// " ++ c.scenePath ++ " - FromNode: " ++ c.fromNode ++ " - Signal: " ++ c.signal,
    indent2 ++ call]

def methodConnections (connections : List Scene.Connection) (method : String × String) :
    List String :=
  (connections.filter (·.method == method.1)).flatMap (connectionLines method.2)

def renderConnectionList (r : ClassRecord) (connections : List Scene.Connection) :
    Option GeneratedFragment :=
  let body := r.methods.flatMap (methodConnections connections)
  if body.isEmpty then none
  else
    some <| ofLines (r.hintName ++ "_GodotHelper_ConnectionTscn.g.cs") <|
      ["using Godot;", "using System;", "using System.Collections.Generic;", ""] ++
      fileNamespace r.nameSpace ++
      ["#pragma warning disable CS0162",
        "#if TOOLS",
        "public partial class " ++ r.name,
        "\x7b",
        indent ++ "public void GetMethodConnectionTscnList()",
        indent ++ "\x7b",
        indent2 ++ "return;"] ++
      body ++
      [indent ++ "\x7d",
        "\x7d",
        "#endif // TOOLS",
        "#pragma warning restore CS0162"]

end SceneCodegen.Fragment
