/-!
# Blank characters

The white space of the Unicode standard together with the four information separators, and the two
ways to cut text at its ends. Cutting at both ends leaves a text that neither starts nor ends with
a cut character.
-/
namespace SceneCodegen.Text

def isWhiteSpace (c : Char) : Bool :=
  let n := c.toNat
  (9 ≤ n && n ≤ 13) || n == 32 || n == 0x85 || n == 0xA0 || n == 0x1680 ||
    (0x2000 ≤ n && n ≤ 0x200A) || n == 0x2028 || n == 0x2029 || n == 0x202F || n == 0x205F ||
    n == 0x3000

def isSeparator (c : Char) : Bool := 28 ≤ c.toNat && c.toNat ≤ 31

def isBlank (c : Char) : Bool := isWhiteSpace c || isSeparator c

def trimBoth (p : Char → Bool) (cs : List Char) : List Char :=
  ((cs.dropWhile p).reverse.dropWhile p).reverse

def trimEndChars (p : Char → Bool) (cs : List Char) : List Char :=
  (cs.reverse.dropWhile p).reverse

def trim (s : String) : String := String.ofList (trimBoth isBlank s.toList)

def trimEnd (s : String) : String := String.ofList (trimEndChars isBlank s.toList)

/-- Removes double quotes from both ends, any number of them. -/
def trimQuotes (s : String) : String := String.ofList (trimBoth (· == '"') s.toList)

theorem trimBoth_nil (p : Char → Bool) : trimBoth p [] = [] := rfl

end SceneCodegen.Text
