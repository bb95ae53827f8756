import SceneCodegen.Symbol.SymbolTable

/-!
# Base and enclosing types

The two walks over declared types: along base types, in search of the root object type, and outward
along enclosing types. Types are found through a resolver, which may record what was looked up. The
walk along base types ends at a type it has met before; as a resolver knows finitely many types,
this comes within one step more than it has types. The walk outward ends because a type's name is
longer than that of the type around it.
-/
namespace SceneCodegen

/-- A way to find types by name. -/
structure TypeResolver (m : Type → Type) where
  find : String → m (Option TypeSymbol)
  /-- No fewer than the types that can be found. -/
  size : Nat

namespace TypeResolver

def ofTable (t : SymbolTable) : TypeResolver Id := ⟨fun name => t.get? name, t.length⟩

variable {m : Type → Type} [Monad m]

def rootAssembly : String := "GodotSharp"

def rootName : String := "Godot.GodotObject"

def isRoot (s : TypeSymbol) : Bool := s.assembly == rootAssembly && s.lookupName == rootName

/-- The type a name in a declaration leads to; an absent or empty name leads nowhere. -/
def follow (r : TypeResolver m) : Option String → m (Option TypeSymbol)
  | none => pure none
  | some name => if name == "" then pure none else r.find name

def baseOf (r : TypeResolver m) (s : TypeSymbol) : m (Option TypeSymbol) := r.follow s.baseType

/-- Looks for the root type from `s` on, along at most `steps` base types. -/
def reachesRoot (r : TypeResolver m) : Nat → (visited : List String) → Option TypeSymbol → m Bool
  | _, _, none => pure false
  | 0, _, some _ => pure false
  | steps + 1, visited, some s =>
    if isRoot s then pure true
    else if visited.contains s.lookupName then pure false
    else do r.reachesRoot steps (s.lookupName :: visited) (← r.baseOf s)

/-- Whether the root type is `s` or a base of it, at any distance. -/
def inheritsFromRoot (r : TypeResolver m) (s : Option TypeSymbol) : m Bool :=
  r.reachesRoot (r.size + 2) [] s

def keyword (s : TypeSymbol) : String :=
  match s.kind with
  | .interfaceType => "interface"
  | .structType => "struct"
  | .recordType => "record"
  | _ => "class"

/-- The declarations around a type, innermost first, from the name of the innermost. A name that
leads to no type ends them, as a class of its last part. -/
def enclosing (r : TypeResolver m) (name : String) : m (List (String × String)) :=
  if name == "" then pure []
  else do
    match ← r.find name with
    | none => pure [("class", Text.afterLast '.' name)]
    | some s =>
      let here := (keyword s, s.nameWithTypeParameters)
      match s.containingType with
      | none => pure [here]
      | some outer =>
        if outer.length < name.length then return here :: (← r.enclosing outer) else pure [here]
termination_by name.length

/-- Keyword and name of every type around `s`, outermost first. -/
def containingDeclarations (r : TypeResolver m) (s : TypeSymbol) : m (List (String × String)) := do
  return (← r.enclosing (s.containingType.getD "")).reverse

end TypeResolver
end SceneCodegen
