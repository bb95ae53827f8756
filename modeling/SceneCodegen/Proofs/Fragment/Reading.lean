import SceneCodegen.Fragment.Basic
import SceneCodegen.Proofs.Text.Cutting

/-!
# Reading braces

Generated code is read character by character. Braces count where they are code: not in a comment,
which ends with its line, and not in a string literal, where a backslash takes the next character
with it. A line is read from the depth at which it begins to the depth at which it ends, and a file
is read line by line.
-/
namespace SceneCodegen.Fragment

/-- What the next character is part of. -/
inductive Mode | code | slash | comment | literal | escaped
  deriving DecidableEq, Repr

structure Place where
  mode : Mode := .code
  /-- The number of braces that are open. -/
  depth : Nat := 0
  deriving DecidableEq, Repr

/-- The characters that end a line of code. -/
def isLineBreak (c : Char) : Bool :=
  let n := c.toNat
  n == 10 || n == 13 || n == 0x85 || n == 0x2028 || n == 0x2029

namespace Place

/-- The place after a character of code. No place is behind a closing brace if none is open. -/
def afterCode (depth : Nat) (c : Char) : Option Place :=
  if c == '\x7b' then some ⟨.code, depth + 1⟩
  else if c == '\x7d' then if depth == 0 then none else some ⟨.code, depth - 1⟩
  else if c == '"' then some ⟨.literal, depth⟩
  else if c == '/' then some ⟨.slash, depth⟩
  else some ⟨.code, depth⟩

def next (p : Place) (c : Char) : Option Place :=
  match p.mode with
  | .code => afterCode p.depth c
  | .slash => if c == '/' then some ⟨.comment, p.depth⟩ else afterCode p.depth c
  | .comment => some ⟨if isLineBreak c then .code else .comment, p.depth⟩
  | .literal =>
    some ⟨if c == '"' then .code else if c == '\\' then .escaped else .literal, p.depth⟩
  | .escaped => some ⟨.literal, p.depth⟩

end Place

/-- What was read of a text. A line ends with a line feed that is not part of a literal. -/
structure Reading where
  /-- The lines that have ended, each with the depth at which it began. -/
  lines : List (Nat × String) := []
  /-- The depth at which the last line began. -/
  start : Nat := 0
  line : List Char := []
  place : Place := {}

namespace Reading

def next (r : Reading) (c : Char) : Option Reading :=
  (r.place.next c).map fun p =>
    if c == '\n' && p.mode == .code then
      { lines := r.lines ++ [(r.start, String.ofList r.line)], start := p.depth, place := p }
    else { r with line := r.line ++ [c], place := p }

end Reading

/-- Reads a text up to its end; it cannot be read if it closes a brace that is not open. -/
def read (text : String) : Option Reading := text.toList.foldlM Reading.next {}

def firstChar? (line : String) : Option Char := (line.toList.dropWhile (· == ' ')).head?

/-- A line declares something unless it is empty, a comment or a directive or begins with a
brace. -/
def isDeclaration (line : String) : Bool :=
  match firstChar? line with
  | some c => c != '\x7b' && c != '\x7d' && c != '/' && c != '#'
  | none => false

def Reading.declared (depth : Nat) (r : Reading) : List String :=
  (r.lines.filter fun (start, line) => start == depth && isDeclaration line).map Prod.snd

/-- A text closes all braces that it opens, and no others; these are the declarations in it that
begin at a depth. -/
def Declares (depth : Nat) (text : String) (members : List String) : Prop :=
  ∃ r, read text = some r ∧ r.place = {} ∧ r.declared depth = members

/-- Characters within a line lead from one place to another. -/
inductive Along : Place → List Char → Place → Prop
  | nil {p : Place} : Along p [] p
  | cons {p q r : Place} {c : Char} {cs : List Char} (hnext : p.next c = some q)
      (hinner : c = '\n' → q.mode ≠ .code) (h : Along q cs r) : Along p (c :: cs) r

namespace Along
variable {p q r : Place} {cs ds : List Char}

theorem append (h : Along p cs q) (h' : Along q ds r) : Along p (cs ++ ds) r := by
  induction h with
  | nil => exact h'
  | cons hnext hinner _ ih => exact .cons hnext hinner (ih h')

theorem eq_of_nil (h : Along p [] q) : q = p := by
  cases h
  rfl

/-- Where no character leads away from a place, no text of such characters does. -/
theorem stay (h : ∀ c ∈ cs, p.next c = some p ∧ (c = '\n' → p.mode ≠ .code)) : Along p cs p := by
  induction cs with
  | nil => exact .nil
  | cons c cs ih =>
    obtain ⟨hnext, hinner⟩ := h c List.mem_cons_self
    exact .cons hnext hinner (ih fun c hc => h c (List.mem_cons_of_mem _ hc))

theorem foldlM (h : Along p cs q) {reading : Reading} (hp : reading.place = p) :
    cs.foldlM Reading.next reading =
      some { reading with line := reading.line ++ cs, place := q } := by
  induction h generalizing reading with
  | nil =>
    rw [← hp, List.append_nil]
    rfl
  | @cons p q r c cs hnext hinner _ ih =>
    have hstep : reading.next c =
        some { reading with line := reading.line ++ [c], place := q } := by
      rw [Reading.next, hp, hnext, Option.map_some, if_neg]
      simpa using hinner
    rw [List.foldlM_cons, hstep, Option.bind_eq_bind, Option.bind_some, ih rfl]
    simp

end Along

/-- A text within a line leads from code at one depth to code at another. -/
def Codes (depth : Nat) (s : String) (depth' : Nat) : Prop :=
  Along ⟨.code, depth⟩ s.toList ⟨.code, depth'⟩

/-- Texts that hold neither braces, double quotes or slashes nor line breaks. -/
def Tame (s : String) : Prop := ∀ c ∈ s.toList,
  c ≠ '\x7b' ∧ c ≠ '\x7d' ∧ c ≠ '"' ∧ c ≠ '/' ∧ isLineBreak c = false

def OneLine (s : String) : Prop := ∀ c ∈ s.toList, isLineBreak c = false

instance (s : String) : Decidable (Tame s) := List.decidableBAll _ s.toList

instance (s : String) : Decidable (OneLine s) := List.decidableBAll _ s.toList

@[simp] theorem tame_append {a b : String} : Tame (a ++ b) ↔ Tame a ∧ Tame b := by
  simp only [Tame, String.toList_append, List.forall_mem_append]

@[simp] theorem oneLine_append {a b : String} : OneLine (a ++ b) ↔ OneLine a ∧ OneLine b := by
  simp only [OneLine, String.toList_append, List.forall_mem_append]

theorem Tame.oneLine {s : String} (h : Tame s) : OneLine s := fun c hc => (h c hc).2.2.2.2

theorem tame_join {sep : String} {parts : List String} (hsep : Tame sep)
    (h : ∀ part ∈ parts, Tame part) : Tame (Text.join sep parts) := by
  intro c hc
  rcases Text.mem_of_mem_join hc with hc | ⟨part, hpart, hc⟩
  · exact hsep c hc
  · exact h part hpart c hc

theorem isLineBreak_lineFeed : isLineBreak '\n' = true := by decide

namespace Codes
variable {d e f : Nat} {a b : String}

theorem append (ha : Codes d a e) (hb : Codes e b f) : Codes d (a ++ b) f := by
  rw [Codes, String.toList_append]
  exact Along.append ha hb

theorem opening (d : Nat) : Codes d "\x7b" (d + 1) :=
  .cons rfl (fun h => absurd h (by decide)) .nil

theorem closing (d : Nat) : Codes (d + 1) "\x7d" d :=
  .cons rfl (fun h => absurd h (by decide)) .nil

end Codes

theorem Tame.codes {s : String} (h : Tame s) (d : Nat) : Codes d s d := by
  refine Along.stay fun c hc => ?_
  obtain ⟨hopen, hclose, hquote, hslash, hbreak⟩ := h c hc
  refine ⟨by simp [Place.next, Place.afterCode, hopen, hclose, hquote, hslash], ?_⟩
  rintro rfl
  exact absurd isLineBreak_lineFeed (by simp [hbreak])

/-- Whatever text a literal is made from, it ends with its last character. -/
theorem codes_stringLiteral (d : Nat) (s : String) : Codes d (stringLiteral s) d := by
  have hquoted (cs : List Char) : Along ⟨.literal, d⟩ (cs.flatMap escapeChar) ⟨.literal, d⟩ := by
    induction cs with
    | nil => exact .nil
    | cons c cs ih =>
      rw [List.flatMap_cons]
      refine Along.append ?_ ih
      rw [escapeChar]
      split
      · -- A backslash takes the character after it along.
        exact .cons (q := ⟨.escaped, d⟩) rfl (fun _ => by simp)
          (.cons (q := ⟨.literal, d⟩) rfl (fun _ => by simp) .nil)
      · rename_i hplain
        simp only [Bool.or_eq_true, beq_iff_eq, not_or] at hplain
        exact .cons (q := ⟨.literal, d⟩) (by simp [Place.next, hplain.1, hplain.2])
          (fun _ => by simp) .nil
  rw [Codes, stringLiteral, String.toList_ofList, List.cons_append]
  exact .cons (q := ⟨.literal, d⟩) rfl (fun _ => by simp)
    ((hquoted s.toList).append (.cons rfl (fun h => absurd h (by decide)) .nil))

/-- A line leads from one depth to another. -/
def LeadsTo (depth : Nat) (line : String) (depth' : Nat) : Prop :=
  ∃ p : Place, Along ⟨.code, depth⟩ line.toList p ∧ p.next '\n' = some ⟨.code, depth'⟩

theorem Codes.leadsTo {d e : Nat} {line : String} (h : Codes d line e) : LeadsTo d line e :=
  ⟨_, h, rfl⟩

theorem leadsTo_empty {d e : Nat} : LeadsTo d "" e ↔ e = d := by
  constructor
  · rintro ⟨p, hp, hnext⟩
    rw [hp.eq_of_nil] at hnext
    exact (congrArg Place.depth (Option.some.inj hnext)).symm
  · rintro rfl
    exact ⟨⟨.code, e⟩, .nil, rfl⟩

/-- A comment goes on to the end of its line. -/
theorem leadsTo_comment {front word rest : String} (d : Nat) (hfront : Tame front)
    (hword : "//".toList <+: word.toList) (honeLine : OneLine (word ++ rest)) :
    LeadsTo d (front ++ (word ++ rest)) d := by
  obtain ⟨more, hmore⟩ := hword
  have hcomment : Along ⟨.comment, d⟩ (more ++ rest.toList) ⟨.comment, d⟩ := by
    refine Along.stay fun c hc => ⟨?_, fun _ => by simp⟩
    have hmem : c ∈ (word ++ rest).toList := by
      rw [String.toList_append, ← hmore, List.append_assoc]
      exact List.mem_append_right _ hc
    simp [Place.next, honeLine c hmem]
  refine ⟨⟨.comment, d⟩, ?_, rfl⟩
  rw [String.toList_append, String.toList_append, ← hmore, List.append_assoc]
  refine Along.append (hfront.codes d) ?_
  exact .cons (q := ⟨.slash, d⟩) rfl (fun h => absurd h (by decide))
    (.cons (q := ⟨.comment, d⟩) rfl (fun h => absurd h (by decide)) hcomment)

/-- Lines lead from one depth to another, and at depth `D` they declare some members. -/
inductive Passage (D : Nat) : Nat → List String → Nat → List String → Prop
  | nil {d : Nat} : Passage D d [] d []
  | cons {d e f : Nat} {line : String} {lines members : List String} (hline : LeadsTo d line e)
      (h : Passage D e lines f members) : Passage D d (line :: lines) f
        ((if d == D && isDeclaration line then [line] else []) ++ members)

namespace Passage
variable {D d e f : Nat} {line : String} {lines lines' members members' : List String}

theorem append (h : Passage D d lines e members) (h' : Passage D e lines' f members') :
    Passage D d (lines ++ lines') f (members ++ members') := by
  induction h with
  | nil => exact h'
  | cons hline _ ih =>
    rw [List.cons_append, List.append_assoc]
    exact .cons hline (ih h')

theorem exists_of_append (h : Passage D d (lines ++ lines') f members) :
    ∃ e front back, Passage D d lines e front ∧ Passage D e lines' f back ∧
      members = front ++ back := by
  induction lines generalizing d members with
  | nil => exact ⟨d, [], members, .nil, h, rfl⟩
  | cons line lines ih =>
    cases h with
    | cons hline h =>
      obtain ⟨e, front, back, hfront, hback, rfl⟩ := ih h
      exact ⟨e, _, back, .cons hline hfront, hback, (List.append_assoc ..).symm⟩

theorem member (hcodes : Codes D line D) (hdeclares : isDeclaration line = true)
    (h : Passage D D lines f members) : Passage D D (line :: lines) f (line :: members) := by
  have hcons := cons hcodes.leadsTo h
  rwa [beq_self_eq_true, hdeclares, Bool.true_and, if_pos rfl, List.singleton_append] at hcons

theorem other (hline : LeadsTo d line e) (hother : d ≠ D ∨ isDeclaration line = false)
    (h : Passage D e lines f members) : Passage D d (line :: lines) f members := by
  have hcons := cons hline h
  have hnone : (d == D && isDeclaration line) = false := by
    rcases hother with hne | hnone
    · simp [hne]
    · rw [hnone, Bool.and_false]
  rwa [hnone, if_neg Bool.false_ne_true, List.nil_append] at hcons

theorem outside (hline : Codes d line e) (hne : d ≠ D) (h : Passage D e lines f members) :
    Passage D d (line :: lines) f members :=
  h.other hline.leadsTo (.inl hne)

theorem empty (h : Passage D d lines f members) : Passage D d ("" :: lines) f members :=
  h.other (leadsTo_empty.mpr rfl) (.inr rfl)

end Passage

/-- Margins are made of spaces. -/
def IsMargin (margin : String) : Prop := ∀ c ∈ margin.toList, c = ' '

instance (margin : String) : Decidable (IsMargin margin) := List.decidableBAll _ margin.toList

theorem firstChar?_append (a b : String) :
    firstChar? (a ++ b) = (firstChar? a).or (firstChar? b) := by
  rw [firstChar?, firstChar?, firstChar?, String.toList_append, List.dropWhile_append]
  cases hdrop : a.toList.dropWhile (· == ' ') with
  | nil => rfl
  | cons c cs => rfl

/-- The beginning of a line tells whether it declares something. -/
theorem isDeclaration_append {word : String} {c : Char} (h : firstChar? word = some c)
    (rest : String) : isDeclaration (word ++ rest) = isDeclaration word := by
  rw [isDeclaration, isDeclaration, firstChar?_append, h, Option.some_or]

namespace IsMargin
variable {margin : String} (h : IsMargin margin)
include h

theorem tame : Tame margin := by
  intro c hc
  obtain rfl := h c hc
  decide

theorem firstChar? : Fragment.firstChar? margin = none := by
  have hdrop : margin.toList.dropWhile (· == ' ') = [] :=
    List.dropWhile_eq_nil_iff.mpr fun c hc => by rw [h c hc, beq_self_eq_true]
  rw [Fragment.firstChar?, hdrop, List.head?_nil]

theorem isDeclaration_append (line : String) :
    isDeclaration (margin ++ line) = isDeclaration line := by
  rw [isDeclaration, isDeclaration, firstChar?_append, h.firstChar?, Option.none_or]

theorem append {margin' : String} (h' : IsMargin margin') : IsMargin (margin ++ margin') := by
  intro c hc
  rw [String.toList_append] at hc
  exact (List.mem_append.mp hc).elim (h c) (h' c)

end IsMargin

namespace Passage
variable {D d e f : Nat} {margin : String} {lines members : List String}

theorem opening (hmargin : IsMargin margin) (h : Passage D (d + 1) lines f members) :
    Passage D d ((margin ++ "\x7b") :: lines) f members := by
  refine h.other ((hmargin.tame.codes d).append (.opening d)).leadsTo (.inr ?_)
  rw [hmargin.isDeclaration_append]
  decide

theorem closing (hmargin : IsMargin margin) (h : Passage D d lines f members) :
    Passage D (d + 1) ((margin ++ "\x7d") :: lines) f members := by
  refine h.other ((hmargin.tame.codes (d + 1)).append (.closing d)).leadsTo (.inr ?_)
  rw [hmargin.isDeclaration_append]
  decide

theorem brace (h : Passage D (d + 1) lines f members) :
    Passage D d ("\x7b" :: lines) f members :=
  opening (show IsMargin "" by decide) h

theorem endBrace (h : Passage D d lines f members) :
    Passage D (d + 1) ("\x7d" :: lines) f members :=
  closing (show IsMargin "" by decide) h

/-- Lines that begin at another depth declare no members. -/
theorem outsides (h : ∀ line ∈ lines, Codes d line d) (hne : d ≠ D) : Passage D d lines d [] := by
  induction lines with
  | nil => exact .nil
  | cons line lines ih =>
    exact .outside (h line List.mem_cons_self) hne
      (ih fun line hline => h line (List.mem_cons_of_mem _ hline))

theorem code (h : ∀ line ∈ lines, Tame line) (hne : d ≠ D) : Passage D d lines d [] :=
  outsides (fun line hline => (h line hline).codes d) hne

theorem declarations (h : ∀ line ∈ lines, Codes D line D ∧ isDeclaration line = true) :
    Passage D D lines D lines := by
  induction lines with
  | nil => exact .nil
  | cons line lines ih =>
    obtain ⟨hcodes, hdeclares⟩ := h line List.mem_cons_self
    exact .member hcodes hdeclares (ih fun line hline => h line (List.mem_cons_of_mem _ hline))

/-- Parts of a class follow one another at its depth. -/
theorem flatMap {α : Type} {l : List α} {part declared : α → List String}
    (h : ∀ a ∈ l, Passage D d (part a) d (declared a)) :
    Passage D d (l.flatMap part) d (l.flatMap declared) := by
  induction l with
  | nil => exact .nil
  | cons a l ih =>
    exact (h a List.mem_cons_self).append (ih fun a ha => h a (List.mem_cons_of_mem _ ha))

theorem flatMap_of_nil {α : Type} {l : List α} {part : α → List String}
    (h : ∀ a ∈ l, Passage D d (part a) d []) : Passage D d (l.flatMap part) d [] := by
  have hall : Passage D d (l.flatMap part) d (l.flatMap fun _ => []) := .flatMap h
  rwa [List.flatMap_eq_nil_iff.mpr fun _ _ => rfl] at hall

/-- Empty lines at the end make no difference. -/
theorem dropEmptyEnd (h : Passage D d lines f members) :
    Passage D d (dropEmptyEnd lines) f members := by
  induction lines using List.reverseRecOn generalizing f members with
  | nil => exact h
  | append_singleton lines line ih =>
    by_cases hline : line = ""
    · subst hline
      have hdrop : Fragment.dropEmptyEnd (lines ++ [""]) = Fragment.dropEmptyEnd lines := by
        simp [Fragment.dropEmptyEnd]
      obtain ⟨e, front, back, hfront, hback, rfl⟩ := h.exists_of_append
      cases hback with
      | cons hempty hnil =>
        cases hnil
        obtain rfl := leadsTo_empty.mp hempty
        have hnone : (if f == D && isDeclaration "" then [""] else []) = ([] : List String) := by
          rw [show isDeclaration "" = false from rfl, Bool.and_false, if_neg Bool.false_ne_true]
        rw [hdrop, hnone, List.append_nil, List.append_nil]
        exact ih hfront
    · have hdrop : Fragment.dropEmptyEnd (lines ++ [line]) = lines ++ [line] := by
        simp [Fragment.dropEmptyEnd, hline]
      rwa [hdrop]

/-- A file is read line by line. -/
theorem foldlM (h : Passage D d lines f members) {r : Reading} (hstart : r.start = d)
    (hline : r.line = []) (hplace : r.place = ⟨.code, d⟩) :
    ∃ r', (lines.flatMap fun line => line.toList ++ ['\n']).foldlM Reading.next r = some r' ∧
      r'.place = ⟨.code, f⟩ ∧ r'.declared D = r.declared D ++ members := by
  induction h generalizing r with
  | nil => exact ⟨r, rfl, hplace, (List.append_nil _).symm⟩
  | @cons d e f line lines members hleads _ ih =>
    obtain ⟨p, halong, hend⟩ := hleads
    let ended : Reading := { lines := r.lines ++ [(d, line)], start := e, place := ⟨.code, e⟩ }
    have hfeed : ({ r with line := line.toList, place := p } : Reading).next '\n' =
        some ended := by
      rw [Reading.next, hend, Option.map_some]
      simp [ended, hstart]
    obtain ⟨r', hread, hplace', hdeclared⟩ := ih (r := ended) rfl rfl rfl
    refine ⟨r', ?_, hplace', ?_⟩
    · rw [List.flatMap_cons, List.foldlM_append, List.foldlM_append, halong.foldlM hplace, hline,
        List.nil_append, Option.bind_eq_bind, Option.bind_some, List.foldlM_cons, hfeed]
      exact hread
    · rw [hdeclared]
      by_cases hmember : (d == D && isDeclaration line) = true <;>
        simp [Reading.declared, ended, List.filter_append, hmember]

end Passage

/-- The last line ends with a character that is not cut off. -/
def EndsFilled (lines : List String) : Prop :=
  ∃ last c, lines.getLast? = some last ∧ last.toList.getLast? = some c ∧ Text.isBlank c = false

theorem endsFilled_brace (margin : String) : EndsFilled [margin ++ "\x7d"] := by
  refine ⟨margin ++ "\x7d", '\x7d', rfl, ?_, by decide⟩
  rw [String.toList_append, List.getLast?_append]
  rfl

theorem EndsFilled.append {lines : List String} (h : EndsFilled lines) (front : List String) :
    EndsFilled (front ++ lines) := by
  obtain ⟨last, c, hlast, hc⟩ := h
  exact ⟨last, c, by rw [List.getLast?_append, hlast, Option.some_or], hc⟩

/-- The text of a file is that of its lines, each with a line feed. -/
theorem toList_ofLines (hintName : String) {lines : List String} (h : EndsFilled lines) :
    (ofLines hintName lines).text.toList = lines.flatMap fun line => line.toList ++ ['\n'] := by
  obtain ⟨last, c, hlines, hlast, hc⟩ := h
  obtain ⟨front, rfl⟩ := List.getLast?_eq_some_iff.mp hlines
  have hjoin : (Text.join "\n" (front ++ [last])).toList =
      ((front.map String.toList).flatMap fun line => line ++ ['\n']) ++ last.toList := by
    rw [Text.join, String.toList_intercalate, List.map_append, List.map_singleton]
    refine (Text.intercalate_append_cons _ _ _ _).trans ?_
    rw [List.intercalate_singleton]
    rfl
  have hend : (Text.join "\n" (front ++ [last])).toList.getLast? = some c := by
    rw [hjoin, List.getLast?_append, hlast, Option.some_or]
  have htrim := Text.dropEnd_append (p := Text.isBlank) hend hc []
  rw [List.append_nil] at htrim
  rw [ofLines, String.toList_append, Text.trimEnd, String.toList_ofList, Text.trimEndChars, htrim,
    hjoin]
  simp [List.flatMap_map]

/-- Lines that follow one another in a file do so in its text. -/
theorem exists_text_eq_block (hintName : String) {lines block : List String}
    (hend : EndsFilled lines) (h : block <:+: lines) : ∃ before after : String,
      (ofLines hintName lines).text = before ++ String.join (block.map (· ++ "\n")) ++ after := by
  obtain ⟨front, back, rfl⟩ := h
  refine ⟨.join (front.map (· ++ "\n")), .join (back.map (· ++ "\n")), ?_⟩
  rw [← String.toList_inj, toList_ofLines hintName hend]
  simp [String.toList_append, String.toList_join, List.flatMap_map]

/-- A line of a file stands in its text. -/
theorem exists_text_eq (hintName : String) {lines : List String} (hend : EndsFilled lines)
    {line : String} (h : line ∈ lines) : ∃ before after : String,
      (ofLines hintName lines).text = before ++ line ++ "\n" ++ after := by
  obtain ⟨front, back, hlines⟩ := List.append_of_mem h
  have hblock : [line] <:+: lines := ⟨front, back, by simp [hlines]⟩
  obtain ⟨before, after, htext⟩ := exists_text_eq_block hintName hend hblock
  exact ⟨before, after, by simpa [String.append_assoc] using htext⟩

/-- A file whose lines lead from the outermost level back to it. -/
theorem Passage.declares {D : Nat} {lines members : List String} (h : Passage D 0 lines 0 members)
    (hend : EndsFilled lines) (hintName : String) :
    Declares D (ofLines hintName lines).text members := by
  obtain ⟨r, hread, hplace, hdeclared⟩ := h.foldlM (r := {}) rfl rfl rfl
  exact ⟨r, by rw [read, toList_ofLines hintName hend, hread], hplace, hdeclared⟩

end SceneCodegen.Fragment
