import SceneCodegen.Json.Basic

/-!
# Writing JSON

JSON documents in ASCII alone: every other character is written as an escape, above the basic plane
as a pair of surrogates. A layout says how items are parted and indented.
-/
namespace SceneCodegen.Json

def escapeChar (c : Char) : List Char :=
  let n := c.toNat
  if c == '"' || c == '\\' then ['\\', c]
  else if c == '\n' then ['\\', 'n']
  else if c == '\r' then ['\\', 'r']
  else if c == '\t' then ['\\', 't']
  else if c == '\x08' then ['\\', 'b']
  else if c == '\x0c' then ['\\', 'f']
  else if 0x20 ≤ n && n ≤ 0x7E then [c]
  else if n < 0x10000 then '\\' :: 'u' :: Text.hexDigits 4 n
  else
    let high := 0xD800 + (n - 0x10000) / 0x400
    let low := 0xDC00 + (n - 0x10000) % 0x400
    '\\' :: 'u' :: Text.hexDigits 4 high ++ '\\' :: 'u' :: Text.hexDigits 4 low

def textLiteral (s : String) : String :=
  String.ofList ('"' :: s.toList.flatMap escapeChar ++ ['"'])

structure Layout where
  /-- Spaces per level of nesting; nothing puts a whole document on one line. -/
  indent : Option Nat
  afterName : String

def indented : Layout := ⟨some 2, ": "⟩

def compact : Layout := ⟨none, ":"⟩

/-- What stands before an item at a level of nesting. -/
def Layout.lineStart (layout : Layout) (level : Nat) : String :=
  match layout.indent with
  | none => ""
  | some width => "\n" ++ String.ofList (List.replicate (width * level) ' ')

/-- Items between brackets, each on a line of its own one level deeper; no items, no lines. -/
def Layout.bracket (layout : Layout) (level : Nat) (opening closing : String)
    (items : List String) : String :=
  if items.isEmpty then opening ++ closing
  else
    let start := layout.lineStart (level + 1)
    opening ++ start ++ Text.join ("," ++ start) items ++ layout.lineStart level ++ closing

mutual
def Layout.print (layout : Layout) (level : Nat) : Json → String
  | .null => "null"
  | .bool b => if b then "true" else "false"
  | .int n => toString n
  | .float x => Number.jsonStyle.text x
  | .text s => textLiteral s
  | .list items => layout.bracket level "[" "]" (layout.printItems (level + 1) items)
  | .object members =>
    layout.bracket level "\x7b" "\x7d" (layout.printMembers (level + 1) members)

def Layout.printItems (layout : Layout) (level : Nat) : List Json → List String
  | [] => []
  | x :: xs => layout.print level x :: layout.printItems level xs

def Layout.printMembers (layout : Layout) (level : Nat) : List (String × Json) → List String
  | [] => []
  | (name, x) :: xs =>
    (textLiteral name ++ layout.afterName ++ layout.print level x) :: layout.printMembers level xs
end

def write (layout : Layout) (x : Json) : String := layout.print 0 x

end SceneCodegen.Json
