import SceneCodegen.Text.Blank
import SceneCodegen.Text.Search

/-!
# Headers of a scene file

A header is a bracketed line `[kind key=value …]`. A value in double quotes stands for the text
between them, with a backslash before a quote or backslash taken off; any other value runs to the
next blank and is kept as written, where brackets of the three kinds hold their contents together,
blanks and quoted texts included. Every line is read without failing: an open quote or bracket takes
the rest of the line.
-/
namespace SceneCodegen.Scene

structure Header where
  kind : String
  pairs : List (String × String)
  deriving DecidableEq, Repr

/-- A quoted text after its opening quote, and what follows the closing one. -/
def readQuoted : List Char → List Char × List Char
  | [] => ([], [])
  | '\\' :: c :: rest => let (inner, after) := readQuoted rest; (c :: inner, after)
  | c :: rest =>
    if c == '"' then ([], rest) else let (inner, after) := readQuoted rest; (c :: inner, after)

def closingOf : Char → Option Char
  | '[' => some ']'
  | '(' => some ')'
  | '\x7b' => some '\x7d'
  | _ => none

/-- The rest of a bracketed group as written, and what follows it. `closers` are the brackets still
to be closed, the innermost first; a closing bracket of another kind closes nothing. -/
def readGroup : (closers : List Char) → (inQuote : Bool) → List Char → List Char × List Char
  | _, _, [] => ([], [])
  | closers, true, '\\' :: c :: rest =>
    let (group, after) := readGroup closers true rest
    ('\\' :: c :: group, after)
  | closers, true, c :: rest =>
    let (group, after) := readGroup closers (c != '"') rest
    (c :: group, after)
  | closers, false, c :: rest =>
    if c == '"' then
      let (group, after) := readGroup closers true rest
      (c :: group, after)
    else match closingOf c, closers with
      | some closer, _ =>
        let (group, after) := readGroup (closer :: closers) false rest
        (c :: group, after)
      | none, [] => ([], c :: rest)
      | none, closer :: outer =>
        if c != closer then
          let (group, after) := readGroup closers false rest
          (c :: group, after)
        else if outer.isEmpty then ([c], rest)
        else
          let (group, after) := readGroup outer false rest
          (c :: group, after)

theorem readQuoted_length_le (cs : List Char) : (readQuoted cs).2.length ≤ cs.length := by
  fun_induction readQuoted cs <;> simp_all <;> omega

theorem readGroup_length_le (closers : List Char) (inQuote : Bool) (cs : List Char) :
    (readGroup closers inQuote cs).2.length ≤ cs.length := by
  fun_induction readGroup closers inQuote cs <;> simp_all <;> omega

/-- A value as written, up to the next blank outside brackets. -/
def readRaw (cs : List Char) : List Char × List Char :=
  match cs with
  | [] => ([], [])
  | c :: rest =>
    if Text.isBlank c then ([], c :: rest)
    else match closingOf c with
      | some closer =>
        let group := readGroup [closer] false rest
        let (raw, after) := readRaw group.2
        (c :: group.1 ++ raw, after)
      | none => let (raw, after) := readRaw rest; (c :: raw, after)
termination_by cs.length
decreasing_by
  · have := readGroup_length_le [closer] false rest
    simp only [List.length_cons]; omega
  · simp

theorem readRaw_length_le (cs : List Char) : (readRaw cs).2.length ≤ cs.length := by
  fun_induction readRaw cs with
  | case1 => simp
  | case2 => simp
  | case3 c rest _ closer _ group _ _ h ih =>
    have hg : group.2.length ≤ rest.length := readGroup_length_le [closer] false rest
    simp only [h] at ih
    simp only [List.length_cons]; omega
  | case4 c rest _ _ _ _ h ih =>
    simp only [h] at ih
    simp only [List.length_cons]; omega

def readValue : List Char → List Char × List Char
  | '"' :: rest => readQuoted rest
  | cs => readRaw cs

theorem readValue_length_le (cs : List Char) : (readValue cs).2.length ≤ cs.length := by
  unfold readValue
  split
  · next rest => have := readQuoted_length_le rest; simp only [List.length_cons]; omega
  · exact readRaw_length_le cs

theorem length_dropWhile_le (p : Char → Bool) (cs : List Char) :
    (cs.dropWhile p).length ≤ cs.length :=
  (List.dropWhile_sublist p).length_le

/-- The keys with their values in order; a key with a blank inside, or an empty one, is passed over
together with its value. -/
def readPairs (cs : List Char) : List (String × String) :=
  match _h : (cs.dropWhile Text.isBlank).dropWhile (· != '=') with
  | [] => []
  | _ :: afterEquals =>
    let key := Text.trimBoth Text.isBlank ((cs.dropWhile Text.isBlank).takeWhile (· != '='))
    let value := readValue (afterEquals.dropWhile (· == ' '))
    let rest := readPairs value.2
    if key.isEmpty || key.any Text.isBlank then rest
    else (String.ofList key, String.ofList value.1) :: rest
termination_by cs.length
decreasing_by
  have h1 := readValue_length_le (afterEquals.dropWhile (· == ' '))
  have h2 := length_dropWhile_le (· == ' ') afterEquals
  have h3 := length_dropWhile_le (· != '=') (cs.dropWhile Text.isBlank)
  have h4 := length_dropWhile_le Text.isBlank cs
  rw [_h, List.length_cons] at h3
  omega

def startsKind (c : Char) : Bool := c.isAlpha || c == '_'

def continuesKind (c : Char) : Bool := c.isAlphanum || c == '_'

def headerOfBody (body : List Char) : Option Header :=
  match body with
  | [] => none
  | c :: rest =>
    if startsKind c then
      some ⟨String.ofList (c :: rest.takeWhile continuesKind),
        readPairs (rest.dropWhile continuesKind)⟩
    else none

/-- The header a line holds between brackets, if its kind is an identifier. -/
def Header.ofLine (line : String) : Option Header :=
  match Text.trimBoth Text.isBlank line.toList with
  | '[' :: rest => if rest.getLast? == some ']' then headerOfBody rest.dropLast else none
  | _ => none

def isClosed (cs : List Char) : Bool := cs.dropWhile Text.isBlank == [')']

/-- The identifier in `ExtResource("id")` or `ExtResource(id)`, blanks allowed around it. -/
def resourceReference (value : String) : Option String :=
  let cs := Text.trimBoth Text.isBlank value.toList
  let opening := "ExtResource(".toList
  if opening.isPrefixOf cs then
    let inner := (cs.drop opening.length).dropWhile Text.isBlank
    let bare := inner.takeWhile fun c => c != ')' && !Text.isBlank c
    let ofBare :=
      if !bare.isEmpty && isClosed (inner.drop bare.length) then some (String.ofList bare) else none
    match inner with
    | '"' :: rest =>
      match Text.cutAt '"' rest with
      | some (quoted, after) => if isClosed after then some (String.ofList quoted) else ofBare
      | none => ofBare
    | _ => ofBare
  else none

end SceneCodegen.Scene
