import SceneCodegen.Text.Search

/-!
# Slash-separated paths

A path as an anchor and a list of names: empty names and single dots are dropped when a path is
read, a parent step is kept until the path is made absolute. Two slashes in front, no more and no
less, are an anchor of their own. Nothing here looks at files, so links play no part.
-/
namespace SceneCodegen

inductive Anchor | relative | root | doubleRoot
  deriving DecidableEq, Repr

def Anchor.text : Anchor → String
  | .relative => ""
  | .root => "/"
  | .doubleRoot => "//"

structure Path where
  anchor : Anchor
  parts : List String
  deriving DecidableEq, Repr

namespace Path

def anchorOf (cs : List Char) : Anchor :=
  match (cs.takeWhile (· == '/')).length with
  | 0 => .relative
  | 2 => .doubleRoot
  | _ => .root

def isStep (part : String) : Bool := part != "" && part != "."

def ofText (s : String) : Path := ⟨anchorOf s.toList, (Text.split '/' s).filter isStep⟩

def text (p : Path) : String :=
  match p.anchor, p.parts with
  | .relative, [] => "."
  | anchor, parts => anchor.text ++ Text.join "/" parts

/-- Whether a null character stands anywhere in a path. -/
def hasNull (p : Path) : Bool := p.parts.any (·.contains '\x00')

def isAbsolute (p : Path) : Bool := p.anchor != .relative

/-- One path continued by another; an absolute second path stands alone. -/
def join (p q : Path) : Path := if q.isAbsolute then q else ⟨p.anchor, p.parts ++ q.parts⟩

def name (p : Path) : String := p.parts.getLast?.getD ""

def parent (p : Path) : Path := ⟨p.anchor, p.parts.dropLast⟩

/-- The ending of a name from its last dot on; a dot at either end of the name begins none. -/
def suffixOf (name : String) : String :=
  let cs := name.toList
  let ending := (cs.reverse.takeWhile (· != '.')).reverse
  if ending.isEmpty || cs.length ≤ ending.length + 1 then "" else String.ofList ('.' :: ending)

def suffix (p : Path) : String := suffixOf p.name

def isUnder (base p : Path) : Bool := base.anchor == p.anchor && base.parts.isPrefixOf p.parts

/-- Takes parent steps back; one at the root stays there. -/
def collapse (parts : List String) : List String :=
  (parts.foldl (fun done part => if part == ".." then done.drop 1 else part :: done) []).reverse

/-- The absolute path without parent steps, read from a working directory. -/
def absolute (directory p : Path) : Path :=
  let joined := directory.join p
  ⟨if joined.anchor == .doubleRoot then .doubleRoot else .root, collapse joined.parts⟩

/-- As `absolute`, with a single slash in front. -/
def resolve (directory p : Path) : Path := ⟨.root, (absolute directory p).parts⟩

/-- The user in whose home a path starts. A first name with a tilde in front names one, and nothing
but a tilde means whoever runs the program, under the empty name. -/
def owner? (p : Path) : Option String :=
  match p.anchor, p.parts.head?.map String.toList with
  | .relative, some ('~' :: user) => some (String.ofList user)
  | _, _ => none

/-- A home as a path. Nothing but slashes, or nothing at all, is the root. -/
def ofHome (home : String) : Path :=
  if home.toList.all (· == '/') then ⟨.root, []⟩ else ofText home

/-- Writes the home out in which a path starts. None if it is not known; one that starts in a home
itself is none. -/
def expandUser? (homeOf : String → Option String) (p : Path) : Option Path :=
  match p.owner? with
  | none => some p
  | some user =>
    match homeOf user with
    | none => none
    | some home =>
      if home.toList.head? == some '~' then none
      else some ⟨(ofHome home).anchor, (ofHome home).parts ++ p.parts.drop 1⟩

/-- The steps from one list of parts to another: up to the last common directory, then down. -/
def stepsTo : List String → List String → List String
  | a :: base, b :: target =>
    if a == b then stepsTo base target
    else List.replicate (base.length + 1) ".." ++ b :: target
  | base, target => List.replicate base.length ".." ++ target

theorem collapse_nil : collapse [] = [] := rfl

end Path
end SceneCodegen
