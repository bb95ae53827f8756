/-!
# Lines of text

Two readings of line ends: cutting a text at every character that the Unicode standard or the
control set counts as a line break, and the plain one that writes each of the three usual line ends
as a line feed.
-/
namespace SceneCodegen.Text

def isLineBreak (c : Char) : Bool :=
  let n := c.toNat
  (10 ≤ n && n ≤ 13) || (28 ≤ n && n ≤ 30) || n == 0x85 || n == 0x2028 || n == 0x2029

/-- Puts one more character in front of the first line. -/
def consLine (c : Char) : List (List Char) → List (List Char)
  | [] => [[c]]
  | line :: lines => (c :: line) :: lines

/-- A carriage return with a line feed is one break; the text after the last break is a line only
if it is not empty. -/
def lineChars : List Char → List (List Char)
  | [] => []
  | '\r' :: '\n' :: rest => [] :: lineChars rest
  | c :: rest => if isLineBreak c then [] :: lineChars rest else consLine c (lineChars rest)

def lines (s : String) : List String := (lineChars s.toList).map String.ofList

/-- Carriage returns, alone or before a line feed, become line feeds. -/
def plainLineEnds : List Char → List Char
  | [] => []
  | '\r' :: '\n' :: rest => '\n' :: plainLineEnds rest
  | c :: rest => (if c == '\r' then '\n' else c) :: plainLineEnds rest

theorem plainLineEnds_eq_self {cs : List Char} (h : '\r' ∉ cs) : plainLineEnds cs = cs := by
  fun_induction plainLineEnds cs with
  | case1 => rfl
  | case2 => simp at h
  | case3 c rest _ ih =>
    simp only [List.mem_cons, not_or] at h
    rw [ih h.2, if_neg]
    simpa using fun hc => h.1 hc.symm

end SceneCodegen.Text
