/-!
# Searching and cutting text

Prefixes, suffixes, fields between separators and replacement, all stated on the characters of the
text. Joining the fields with the separator gives the text back.
-/
namespace SceneCodegen.Text

def hasPrefix (start s : String) : Bool := start.toList.isPrefixOf s.toList

def hasSuffix (ending s : String) : Bool := ending.toList.isSuffixOf s.toList

/-- The text after a given beginning, which it is taken to have. -/
def dropPrefix (start s : String) : String := String.ofList (s.toList.drop start.toList.length)

/-- The text before a given ending, which it is taken to have. -/
def dropSuffix (ending s : String) : String :=
  String.ofList (s.toList.take (s.toList.length - ending.toList.length))

/-- The parts between separators; there is always one more part than separators. -/
def fields (sep : Char) : List Char → List (List Char)
  | [] => [[]]
  | c :: rest =>
    if c == sep then [] :: fields sep rest
    else match fields sep rest with
      | [] => [[c]]
      | part :: parts => (c :: part) :: parts

theorem fields_ne_nil (sep : Char) (cs : List Char) : fields sep cs ≠ [] := by
  cases cs with
  | nil => simp [fields]
  | cons c rest =>
    rw [fields]
    split
    · simp
    · split <;> simp

theorem intercalate_fields (sep : Char) (cs : List Char) :
    List.intercalate [sep] (fields sep cs) = cs := by
  induction cs with
  | nil => rfl
  | cons c rest ih =>
    have hne := fields_ne_nil sep rest
    rw [fields]
    split
    · rename_i h
      rw [eq_of_beq h]
      cases hf : fields sep rest with
      | nil => exact absurd hf hne
      | cons part parts =>
        rw [hf] at ih
        cases parts <;> simpa [List.intercalate, List.intersperse] using ih
    · split
      · rename_i hf; exact absurd hf hne
      · rename_i part parts hf
        rw [hf] at ih
        cases parts <;> simp_all [List.intercalate, List.intersperse]

def split (sep : Char) (s : String) : List String := (fields sep s.toList).map String.ofList

/-- The parts before and after the first separator, or nothing without one. -/
def cutAt (sep : Char) (cs : List Char) : Option (List Char × List Char) :=
  match cs.dropWhile (· != sep) with
  | [] => none
  | _ :: rest => some (cs.takeWhile (· != sep), rest)

/-- The part after the last separator, or the whole text without one. -/
def afterLast (sep : Char) (s : String) : String :=
  String.ofList ((s.toList.reverse.takeWhile (· != sep)).reverse)

/-- Each character is replaced by the text `f` gives for it. -/
def replaceChars (f : Char → List Char) (s : String) : String := String.ofList (s.toList.flatMap f)

/-- Where `word` first stands in the text, if anywhere. -/
def find (word : List Char) : List Char → Option Nat
  | [] => if word.isEmpty then some 0 else none
  | c :: rest => if word.isPrefixOf (c :: rest) then some 0 else (find word rest).map (· + 1)

def contains (word s : String) : Bool := (find word.toList s.toList).isSome

def join (sep : String) (parts : List String) : String := String.intercalate sep parts

end SceneCodegen.Text
