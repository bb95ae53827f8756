import Mathlib.Data.List.Basic
import SceneCodegen.Fragment.Basic
import SceneCodegen.Proofs.Text.Cutting

/-!
# Heads of files

The head of a generated file opens a namespace and, inside it, parts of the declarations of types,
each in the one before. It ends at the first line of another kind, which belongs to a member. What a
file declares is read off the names opened in its head.
-/
namespace SceneCodegen.Fragment

def typeKeywords : List String := ["class", "struct", "interface", "record"]

/-- The namespace that a line opens, for the rest of the file or up to a closing brace. -/
def spaceOpened? (line : List Char) : Option (List Char) :=
  (line.dropPrefix? "namespace ".toList).map fun name =>
    ((name.dropSuffix? [';']).or (name.dropSuffix? [' ', '\x7b'])).getD name

def typeOpened? (line : List Char) : Option (List Char) :=
  (((line.dropPrefix? "public ".toList).getD line).dropPrefix? "partial ".toList).bind fun rest =>
    typeKeywords.findSome? fun keyword => rest.dropPrefix? (keyword.toList ++ [' '])

/-- Lines of a head that open nothing. -/
def isPassed (line : List Char) : Bool :=
  line == [] || line == ['\x7b'] || "using ".toList.isPrefixOf line || ['#'].isPrefixOf line

/-- What a line of a head opens; nothing is given for the line of a member. -/
def headNames? (line : List Char) : Option (List (List Char)) :=
  let line := line.dropWhile (· == ' ')
  (((spaceOpened? line).or (typeOpened? line)).map fun name => [name]).or
    (if isPassed line then some [] else none)

/-- The names opened in the head of a file, outermost first. -/
def readHead : List (List Char) → List (List Char)
  | [] => []
  | line :: rest =>
    match headNames? line with
    | some names => names ++ readHead rest
    | none => []

/-- The type that a file declares members of, by the name that its head gives it. -/
def openedType (text : String) : String :=
  String.ofList (List.intercalate ['.'] (readHead (Text.fields '\n' text.toList)))

theorem dropSuffix?_append (name ending : List Char) :
    (name ++ ending).dropSuffix? ending = some name :=
  List.dropSuffix?_eq_some_iff.mpr ⟨ending, rfl, by simp⟩

theorem dropSuffix?_eq_none {name ending : List Char} (h : ¬ ending <:+ name) :
    name.dropSuffix? ending = none := by
  rw [Option.eq_none_iff_forall_ne_some]
  intro start hstart
  obtain ⟨last, hname, hlast⟩ := List.dropSuffix?_eq_some_iff.mp hstart
  rw [eq_of_beq hlast] at hname
  exact h ⟨start, hname.symm⟩

theorem headNames?_fileNamespace (name : List Char) :
    headNames? ("namespace ".toList ++ (name ++ [';'])) = some [name] := by
  have hspace : spaceOpened? ("namespace ".toList ++ (name ++ [';'])) = some name := by
    rw [spaceOpened?, List.dropPrefix?_append_of_beq _ (by rfl), Option.map_some,
      dropSuffix?_append]
    rfl
  have hline : ("namespace ".toList ++ (name ++ [';'])).dropWhile (· == ' ') =
      "namespace ".toList ++ (name ++ [';']) := rfl
  rw [headNames?, hline, hspace]
  rfl

theorem headNames?_braced (name : List Char) :
    headNames? ("namespace ".toList ++ (name ++ [' ', '\x7b'])) = some [name] := by
  have hother : (name ++ [' ', '\x7b']).dropSuffix? [';'] = none := by
    refine dropSuffix?_eq_none fun ⟨start, h⟩ => ?_
    have hlast := congrArg List.getLast? h
    simp at hlast
  have hspace : spaceOpened? ("namespace ".toList ++ (name ++ [' ', '\x7b'])) = some name := by
    rw [spaceOpened?, List.dropPrefix?_append_of_beq _ (by rfl), Option.map_some, hother,
      dropSuffix?_append]
    rfl
  have hline : ("namespace ".toList ++ (name ++ [' ', '\x7b'])).dropWhile (· == ' ') =
      "namespace ".toList ++ (name ++ [' ', '\x7b']) := rfl
  rw [headNames?, hline, hspace]
  rfl

theorem headNames?_bare {name : List Char} (h : ';' ∉ name ∧ '\x7b' ∉ name) :
    headNames? ("namespace ".toList ++ name) = some [name] := by
  have hspace : spaceOpened? ("namespace ".toList ++ name) = some name := by
    rw [spaceOpened?, List.dropPrefix?_append_of_beq _ (by rfl), Option.map_some,
      dropSuffix?_eq_none fun hsuffix => h.1 (hsuffix.subset (by simp)),
      dropSuffix?_eq_none fun hsuffix => h.2 (hsuffix.subset (by simp))]
    rfl
  have hline : ("namespace ".toList ++ name).dropWhile (· == ' ') = "namespace ".toList ++ name :=
    rfl
  rw [headNames?, hline, hspace]
  rfl

theorem dropPrefix?_append (start rest : List Char) :
    (start ++ rest).dropPrefix? start = some rest :=
  List.dropPrefix?_append_of_beq rest (beq_self_eq_true start)

theorem findSome?_keyword {keyword : String} (h : keyword ∈ typeKeywords) (name : List Char) :
    (typeKeywords.findSome? fun k =>
      ((keyword.toList ++ [' ']) ++ name).dropPrefix? (k.toList ++ [' '])) = some name := by
  -- No keyword is the beginning of another.
  have hother : ∀ k ∈ typeKeywords, k ≠ keyword →
      ((keyword.toList ++ [' ']) ++ name).dropPrefix? (k.toList ++ [' ']) = none := by
    simp only [typeKeywords, List.mem_cons, List.not_mem_nil, or_false] at h ⊢
    rintro k (rfl | rfl | rfl | rfl) hne <;> rcases h with rfl | rfl | rfl | rfl <;>
      first | rfl | exact absurd rfl hne
  cases hfound : typeKeywords.findSome? fun k =>
      ((keyword.toList ++ [' ']) ++ name).dropPrefix? (k.toList ++ [' ']) with
  | none =>
    have hnone := List.findSome?_eq_none_iff.mp hfound keyword h
    rw [dropPrefix?_append] at hnone
    cases hnone
  | some name' =>
    obtain ⟨k, hk, hname⟩ := List.exists_of_findSome?_eq_some hfound
    by_cases hne : k = keyword
    · rwa [hne, dropPrefix?_append, eq_comm] at hname
    · rw [hother k hk hne] at hname
      cases hname

theorem headNames?_of_typeOpened? {line name : List Char}
    (h : typeOpened? ('p' :: line) = some name) : headNames? ('p' :: line) = some [name] := by
  have hspace : spaceOpened? ('p' :: line) = none := rfl
  have hline : ('p' :: line).dropWhile (· == ' ') = 'p' :: line := rfl
  rw [headNames?, hline, hspace, h]
  rfl

theorem headNames?_partial {keyword : String} (h : keyword ∈ typeKeywords) (name : List Char) :
    headNames? ("partial ".toList ++ ((keyword.toList ++ [' ']) ++ name)) = some [name] := by
  have hpublic : ("partial ".toList ++ ((keyword.toList ++ [' ']) ++ name)).dropPrefix?
      "public ".toList = none := rfl
  have htype : typeOpened? ("partial ".toList ++ ((keyword.toList ++ [' ']) ++ name)) =
      some name := by
    rw [typeOpened?, hpublic, Option.getD_none, dropPrefix?_append, Option.bind_some,
      findSome?_keyword h]
  exact headNames?_of_typeOpened? htype

theorem headNames?_publicPartial (name : List Char) :
    headNames? ("public partial class ".toList ++ name) = some [name] := by
  have hpublic : ("public partial class ".toList ++ name).dropPrefix? "public ".toList =
      some ("partial ".toList ++ (("class".toList ++ [' ']) ++ name)) :=
    dropPrefix?_append "public ".toList ("partial ".toList ++ (("class".toList ++ [' ']) ++ name))
  have htype : typeOpened? ("public partial class ".toList ++ name) = some name := by
    rw [typeOpened?, hpublic, Option.getD_some, dropPrefix?_append, Option.bind_some,
      findSome?_keyword (by decide)]
  exact headNames?_of_typeOpened? htype

/-- Indentation says nothing. -/
theorem headNames?_indented (n : Nat) (line : List Char) :
    headNames? (List.replicate n ' ' ++ line) = headNames? line := by
  have hline : (List.replicate n ' ' ++ line).dropWhile (· == ' ') = line.dropWhile (· == ' ') :=
    List.dropWhile_append_of_pos (by simp)
  rw [headNames?, headNames?, hline]

/-- Lines of a head that open some names. -/
structure Opens (lines : List String) (names : List String) : Prop where
  oneLine : ∀ line ∈ lines, '\n' ∉ line.toList
  head : ∀ line ∈ lines, (headNames? line.toList).isSome
  names : (lines.flatMap fun line => (headNames? line.toList).getD []) = names.map String.toList

namespace Opens
variable {lines lines' names names' : List String}

theorem nil : Opens [] [] := ⟨by simp, by simp, rfl⟩

theorem append (h : Opens lines names) (h' : Opens lines' names') :
    Opens (lines ++ lines') (names ++ names') where
  oneLine line hline := (List.mem_append.mp hline).elim (h.oneLine line) (h'.oneLine line)
  head line hline := (List.mem_append.mp hline).elim (h.head line) (h'.head line)
  names := by rw [List.flatMap_append, h.names, h'.names, List.map_append]

theorem line {text : String} (hline : '\n' ∉ text.toList)
    (hread : headNames? text.toList = some (names.map String.toList)) : Opens [text] names where
  oneLine := by simpa using hline
  head := by simp [hread]
  names := by simp [hread]

/-- Lines that open nothing. -/
theorem passed (h : ∀ line ∈ lines, '\n' ∉ line.toList ∧ headNames? line.toList = some []) :
    Opens lines [] where
  oneLine line hline := (h line hline).1
  head line hline := by rw [(h line hline).2]; rfl
  names := by
    rw [List.map_nil, List.flatMap_eq_nil_iff]
    intro line hline
    rw [(h line hline).2]
    rfl

end Opens

theorem readHead_append {lines names : List String} (h : Opens lines names)
    (rest : List (List Char)) :
    readHead (lines.map String.toList ++ rest) = names.map String.toList ++ readHead rest := by
  rw [← h.names]
  have hhead := h.head
  clear h
  induction lines with
  | nil => rfl
  | cons line lines ih =>
    obtain ⟨opened, hopened⟩ := Option.isSome_iff_exists.mp (hhead line List.mem_cons_self)
    rw [List.map_cons, List.cons_append, readHead, hopened, List.flatMap_cons, hopened,
      List.append_assoc, ← ih fun l hl => hhead l (List.mem_cons_of_mem line hl)]
    rfl

/-- The beginning of a line that ends a head, however it goes on. -/
structure Ends (word : String) : Prop where
  oneLine : '\n' ∉ word.toList
  last : ∃ c, word.toList.getLast? = some c ∧ Text.isBlank c = false
  stops : ∀ rest, headNames? (word.toList ++ rest) = none

theorem readHead_of_ends {word : String} (h : Ends word) (rest : List Char) :
    readHead (Text.fields '\n' (word.toList ++ rest)) = [] := by
  obtain ⟨part, parts, hfields⟩ := Text.exists_fields_append h.oneLine rest
  rw [hfields, readHead, h.stops]

/-- A file whose head ends at some line opens what the lines before it open. -/
theorem openedType_ofLines (hintName : String) {lines names : List String}
    (hopens : Opens lines names) {word : String} (h : Ends word) (rest : String)
    (body : List String) :
    openedType (ofLines hintName (lines ++ (word ++ rest) :: body)).text = Text.join "." names := by
  obtain ⟨c, hlast, hc⟩ := h.last
  obtain ⟨tail, htail⟩ : ∃ tail, List.intercalate ['\n']
      ((word.toList ++ rest.toList) :: body.map String.toList) = word.toList ++ tail := by
    cases body with
    | nil => exact ⟨rest.toList, by simp⟩
    | cons next body =>
      rw [List.map_cons, List.intercalate_cons_cons, List.append_assoc, List.append_assoc]
      exact ⟨_, rfl⟩
  let before := (lines.map String.toList).flatMap fun line => line ++ ['\n']
  have hjoin : (Text.join "\n" (lines ++ (word ++ rest) :: body)).toList =
      (before ++ word.toList) ++ tail := by
    rw [Text.join, String.toList_intercalate, List.map_append, List.map_cons, String.toList_append,
      List.append_assoc, ← htail]
    exact Text.intercalate_append_cons _ _ _ _
  have hends : (before ++ word.toList).getLast? = some c := by
    rw [List.getLast?_append, hlast, Option.some_or]
  have htext : (ofLines hintName (lines ++ (word ++ rest) :: body)).text.toList =
      before ++ (word.toList ++ (Text.trimEndChars Text.isBlank tail ++ ['\n'])) := by
    rw [ofLines, String.toList_append, Text.trimEnd, String.toList_ofList, hjoin, Text.trimEndChars,
      Text.dropEnd_append hends hc]
    simp [Text.trimEndChars]
  have hlines : ∀ line ∈ lines.map String.toList, '\n' ∉ line := by simpa using hopens.oneLine
  rw [openedType, htext, Text.fields_flatMap hlines, readHead_append hopens, readHead_of_ends h,
    List.append_nil, ← String.toList_inj, String.toList_ofList, Text.join,
    String.toList_intercalate]
  rfl

end SceneCodegen.Fragment
