import SceneCodegen.Proofs.Text.Cutting
import SceneCodegen.Scene.Header

/-!
# Written headers

A value of a header is written either in double quotes, with a backslash before each quote and each
backslash of the text, or raw. A raw text has blanks and quotes only inside bracketed groups, and
brackets only as such groups; a quote inside a group is closed there, and what stands between is
not counted as brackets. Reading gives back each written value together with what follows it, so a
header gives back its kind and its pairs in order.
-/
namespace SceneCodegen.Scene

def escapeChar (c : Char) : List Char := if c == '"' || c == '\\' then ['\\', c] else [c]

/-- The characters of a text as they stand between double quotes. -/
def escaped (cs : List Char) : List Char := cs.flatMap escapeChar

theorem readQuoted_cons {c : Char} (hc : c ≠ '\\') (rest : List Char) :
    readQuoted (c :: rest) =
      if c == '"' then ([], rest) else (c :: (readQuoted rest).1, (readQuoted rest).2) := by
  rw [readQuoted.eq_3 c rest (by simp [hc])]

theorem readQuoted_escaped (cs rest : List Char) :
    readQuoted (escaped cs ++ '"' :: rest) = (cs, rest) := by
  induction cs with
  | nil => simp [escaped, readQuoted_cons]
  | cons c cs ih =>
    simp only [escaped, List.flatMap_cons, List.append_assoc] at *
    by_cases hq : c = '"'
    · subst c; simp [escapeChar, readQuoted, ih]
    by_cases hb : c = '\\'
    · subst c; simp [escapeChar, readQuoted, ih]
    simp [escapeChar, hq, hb, readQuoted_cons, ih]

def isBracket (c : Char) : Bool := "[]()\x7b\x7d".toList.contains c

/-- What may stand between two quotes of a group: no quote but after a backslash. -/
inductive InQuotes : List Char → Prop
  | nil : InQuotes []
  | char {c : Char} {cs : List Char} : c ≠ '"' → c ≠ '\\' → InQuotes cs → InQuotes (c :: cs)
  | escape (c : Char) {cs : List Char} : InQuotes cs → InQuotes ('\\' :: c :: cs)

/-- What may stand between two brackets. -/
inductive InBrackets : List Char → Prop
  | nil : InBrackets []
  | char {c : Char} {cs : List Char} : c ≠ '"' → isBracket c = false → InBrackets cs →
      InBrackets (c :: cs)
  | quotes {quoted cs : List Char} : InQuotes quoted → InBrackets cs →
      InBrackets ('"' :: quoted ++ '"' :: cs)
  | group {opener closer : Char} {inner cs : List Char} : closingOf opener = some closer →
      InBrackets inner → InBrackets cs → InBrackets (opener :: inner ++ closer :: cs)

/-- A text that may stand for a value without quotes. -/
inductive Raw : List Char → Prop
  | nil : Raw []
  | char {c : Char} {cs : List Char} : c ≠ '"' → isBracket c = false → Text.isBlank c = false →
      Raw cs → Raw (c :: cs)
  | group {opener closer : Char} {inner cs : List Char} : closingOf opener = some closer →
      InBrackets inner → Raw cs → Raw (opener :: inner ++ closer :: cs)

theorem closingOf_eq_none {c : Char} (hc : isBracket c = false) : closingOf c = none := by
  unfold closingOf
  split <;> first | rfl | exact absurd hc (by decide)

theorem closingOf_cases {opener closer : Char} (h : closingOf opener = some closer) :
    (opener = '[' ∧ closer = ']') ∨ (opener = '(' ∧ closer = ')') ∨
      (opener = '\x7b' ∧ closer = '\x7d') := by
  unfold closingOf at h
  split at h <;> simp_all [eq_comm]

theorem opener_ne_quote {opener closer : Char} (h : closingOf opener = some closer) :
    opener ≠ '"' := by
  rcases closingOf_cases h with ⟨rfl, -⟩ | ⟨rfl, -⟩ | ⟨rfl, -⟩ <;> decide

theorem isBracket_closer {opener closer : Char} (h : closingOf opener = some closer) :
    isBracket closer = true := by
  rcases closingOf_cases h with ⟨-, rfl⟩ | ⟨-, rfl⟩ | ⟨-, rfl⟩ <;> decide

theorem closer_plain {opener closer : Char} (h : closingOf opener = some closer) :
    closer ≠ '"' ∧ closingOf closer = none := by
  rcases closingOf_cases h with ⟨-, rfl⟩ | ⟨-, rfl⟩ | ⟨-, rfl⟩ <;> decide

theorem readGroup_quote (closers rest : List Char) :
    readGroup closers false ('"' :: rest) =
      ('"' :: (readGroup closers true rest).1, (readGroup closers true rest).2) := by
  rw [readGroup.eq_def]; rfl

theorem readGroup_opener {opener closer : Char} (ho : closingOf opener = some closer)
    (closers rest : List Char) :
    readGroup closers false (opener :: rest) =
      (opener :: (readGroup (closer :: closers) false rest).1,
        (readGroup (closer :: closers) false rest).2) := by
  rw [readGroup.eq_def]
  simp [opener_ne_quote ho, ho]

theorem readGroup_plain {c closer : Char} (hq : c ≠ '"') (hb : isBracket c = false)
    (hc : c ≠ closer) (outer rest : List Char) :
    readGroup (closer :: outer) false (c :: rest) =
      (c :: (readGroup (closer :: outer) false rest).1,
        (readGroup (closer :: outer) false rest).2) := by
  rw [readGroup.eq_def]
  simp [hq, closingOf_eq_none hb, hc]

theorem readGroup_closer {opener closer : Char} (ho : closingOf opener = some closer)
    (outer rest : List Char) :
    readGroup (closer :: outer) false (closer :: rest) =
      if outer.isEmpty then ([closer], rest)
      else (closer :: (readGroup outer false rest).1, (readGroup outer false rest).2) := by
  rw [readGroup.eq_def]
  simp [(closer_plain ho).1, (closer_plain ho).2]

theorem readGroup_inQuotes {quoted : List Char} (hq : InQuotes quoted) (closers rest : List Char) :
    readGroup closers true (quoted ++ '"' :: rest) =
      (quoted ++ '"' :: (readGroup closers false rest).1, (readGroup closers false rest).2) := by
  induction hq with
  | nil => rw [List.nil_append, readGroup.eq_3 _ _ _ (by simp)]; rfl
  | char hne hb _ ih =>
    have hquoted := bne_iff_ne.mpr hne
    rw [List.cons_append, readGroup.eq_3 _ _ _ (by simp [hb])]
    simp [hquoted, ih]
  | escape c _ ih => simp [readGroup, ih]

/-- Inside a group, a text that is balanced in itself is passed over. -/
theorem readGroup_inBrackets {inner : List Char} (hi : InBrackets inner) {opener closer : Char}
    (hc : closingOf opener = some closer) (outer rest : List Char) :
    readGroup (closer :: outer) false (inner ++ rest) =
      (inner ++ (readGroup (closer :: outer) false rest).1,
        (readGroup (closer :: outer) false rest).2) := by
  induction hi generalizing opener closer outer rest with
  | nil => rfl
  | @char c cs hne hb _ ih =>
    have hclose : c ≠ closer := by
      rintro rfl
      rw [isBracket_closer hc] at hb
      cases hb
    rw [List.cons_append, readGroup_plain hne hb hclose, ih hc]
    rfl
  | quotes hq _ ih =>
    simp only [List.append_assoc, List.cons_append]
    rw [readGroup_quote, readGroup_inQuotes hq, ih hc]
  | group ho _ _ ihInner ih =>
    simp only [List.append_assoc, List.cons_append]
    rw [readGroup_opener ho, ihInner ho, readGroup_closer ho, ih hc]
    rfl

/-- A group that is closed at its end. -/
theorem readGroup_closed {inner : List Char} (hi : InBrackets inner) {opener closer : Char}
    (hc : closingOf opener = some closer) (rest : List Char) :
    readGroup [closer] false (inner ++ closer :: rest) = (inner ++ [closer], rest) := by
  rw [readGroup_inBrackets hi hc, readGroup_closer hc]
  rfl

/-- A text before which a raw value stops. -/
def Stops (rest : List Char) : Prop := ∀ c, rest.head? = some c → Text.isBlank c = true

theorem readRaw_stops {rest : List Char} (hrest : Stops rest) : readRaw rest = ([], rest) := by
  rw [readRaw.eq_def]
  cases rest with
  | nil => rfl
  | cons c rest => simp [hrest c rfl]

theorem readRaw_plain {c : Char} (hblank : Text.isBlank c = false) (hb : isBracket c = false)
    (rest : List Char) : readRaw (c :: rest) = (c :: (readRaw rest).1, (readRaw rest).2) := by
  rw [readRaw.eq_def]
  simp [hblank, closingOf_eq_none hb]

theorem readRaw_group {opener closer : Char} (ho : closingOf opener = some closer)
    {inner : List Char} (hi : InBrackets inner) (rest : List Char) :
    readRaw (opener :: (inner ++ closer :: rest)) =
      (opener :: (inner ++ closer :: (readRaw rest).1), (readRaw rest).2) := by
  have hblank : Text.isBlank opener = false := by
    rcases closingOf_cases ho with ⟨rfl, -⟩ | ⟨rfl, -⟩ | ⟨rfl, -⟩ <;> decide
  rw [readRaw.eq_def]
  simp [hblank, ho, readGroup_closed hi ho]

theorem readRaw_raw {cs rest : List Char} (hcs : Raw cs) (hrest : Stops rest) :
    readRaw (cs ++ rest) = (cs, rest) := by
  induction hcs with
  | nil => exact readRaw_stops hrest
  | char _ hb hblank _ ih => rw [List.cons_append, readRaw_plain hblank hb, ih]
  | group ho hi _ ih =>
    simp only [List.append_assoc, List.cons_append]
    rw [readRaw_group ho hi, ih]

theorem head_raw_ne_quote {cs : List Char} (hcs : Raw cs) : cs.head? ≠ some '"' := by
  cases hcs with
  | nil => simp
  | char hne => simpa using hne
  | group ho => simpa using opener_ne_quote ho

/-- A value of a header, as it is written. -/
inductive Value
  | quoted (text : String)
  | raw (text : String) (shape : Raw text.toList) (filled : text ≠ "")

namespace Value

def text : Value → String
  | quoted text => text
  | raw text _ _ => text

def written : Value → List Char
  | quoted text => '"' :: escaped text.toList ++ ['"']
  | raw text _ _ => text.toList

/-- No blank stands before a written value, nor a written value for nothing. -/
theorem head_written (v : Value) : ∃ c, v.written.head? = some c ∧ c ≠ ' ' := by
  cases v with
  | quoted text => exact ⟨'"', rfl, by decide⟩
  | raw text shape filled =>
    cases h : text.toList with
    | nil => exact absurd (String.toList_eq_nil_iff.mp h) filled
    | cons c cs =>
      refine ⟨c, by simp [written, h], ?_⟩
      rw [h] at shape
      cases shape with
      | char _ _ hblank => rintro rfl; exact absurd hblank (by decide)
      | group ho => rcases closingOf_cases ho with ⟨rfl, -⟩ | ⟨rfl, -⟩ | ⟨rfl, -⟩ <;> decide

theorem readValue_written (v : Value) {rest : List Char} (hrest : Stops rest) :
    readValue (v.written ++ rest) = (v.text.toList, rest) := by
  cases v with
  | quoted text => simpa [written, readValue, Value.text] using readQuoted_escaped text.toList rest
  | raw text shape filled =>
    obtain ⟨c, cs, hcs⟩ := List.exists_cons_of_ne_nil (mt String.toList_eq_nil_iff.mp filled)
    have hne : c ≠ '"' := by simpa [hcs] using head_raw_ne_quote shape
    have hread := readRaw_raw shape hrest
    rw [hcs] at hread
    simp only [written, Value.text, hcs, List.cons_append]
    rw [readValue.eq_2 _ (by simp [hne])]
    exact hread

end Value

def isKeyChar (c : Char) : Bool := !Text.isBlank c && c != '='

/-- A key with its value. -/
structure Attribute where
  key : String
  value : Value
  filled : key ≠ ""
  plain : key.toList.all isKeyChar = true

namespace Attribute

def pair (a : Attribute) : String × String := (a.key, a.value.text)

def written (a : Attribute) : List Char := a.key.toList ++ '=' :: a.value.written

theorem plain_of_mem (a : Attribute) {c : Char} (hc : c ∈ a.key.toList) :
    Text.isBlank c = false ∧ c ≠ '=' := by
  simpa [isKeyChar] using List.all_eq_true.mp a.plain c hc

end Attribute

/-- One pair is read off, whatever blanks stand around it. -/
theorem readPairs_attribute (a : Attribute) (before gap spaces : List Char) {rest : List Char}
    (hbefore : ∀ c ∈ before, Text.isBlank c = true) (hgap : ∀ c ∈ gap, Text.isBlank c = true)
    (hspaces : ∀ c ∈ spaces, (c == ' ') = true) (hrest : Stops rest) :
    readPairs (before ++ (a.key.toList ++ gap ++ '=' :: (spaces ++ (a.value.written ++ rest)))) =
      a.pair :: readPairs rest := by
  obtain ⟨k, ks, hkey⟩ := List.exists_cons_of_ne_nil (mt String.toList_eq_nil_iff.mp a.filled)
  have hfront : (before ++ (a.key.toList ++ gap ++ '=' ::
      (spaces ++ (a.value.written ++ rest)))).dropWhile Text.isBlank =
      a.key.toList ++ gap ++ '=' :: (spaces ++ (a.value.written ++ rest)) := by
    rw [List.dropWhile_append_of_pos hbefore, hkey]
    simp [(a.plain_of_mem (c := k) (by simp [hkey])).1]
  have hnoEquals : ∀ c ∈ a.key.toList ++ gap, (c != '=') = true := by
    intro c hc
    rcases List.mem_append.mp hc with h | h
    · simpa using (a.plain_of_mem h).2
    · have := hgap c h
      rw [bne_iff_ne]; rintro rfl; exact absurd this (by decide)
  have hkeyRead : Text.trimBoth Text.isBlank (a.key.toList ++ gap) = a.key.toList := by
    rw [Text.trimBoth_append_cut _ hgap]
    exact Text.trimBoth_of_ends (fun c hc => (a.plain_of_mem (List.mem_of_head? hc)).1)
      (fun c hc => (a.plain_of_mem (List.mem_of_getLast? hc)).1)
  have hspaced : (spaces ++ (a.value.written ++ rest)).dropWhile (· == ' ') =
      a.value.written ++ rest := by
    obtain ⟨c, hc, hne⟩ := a.value.head_written
    obtain ⟨cs, hcs⟩ := List.head?_eq_some_iff.mp hc
    rw [List.dropWhile_append_of_pos hspaces, hcs]
    simp [hne]
  have hvalid : (a.key.toList.isEmpty || a.key.toList.any Text.isBlank) = false := by
    simp only [Bool.or_eq_false_iff, List.isEmpty_eq_false_iff, List.any_eq_false]
    exact ⟨by simp [hkey], fun c hc => by simp [(a.plain_of_mem hc).1]⟩
  have htake : (a.key.toList ++ gap ++ '=' :: (spaces ++ (a.value.written ++ rest))).takeWhile
      (· != '=') = a.key.toList ++ gap := by
    rw [List.takeWhile_append_of_pos hnoEquals]; simp
  have hdrop : (a.key.toList ++ gap ++ '=' :: (spaces ++ (a.value.written ++ rest))).dropWhile
      (· != '=') = '=' :: (spaces ++ (a.value.written ++ rest)) := by
    rw [List.dropWhile_append_of_pos hnoEquals]; simp
  rw [readPairs]
  split
  · next h => rw [hfront, hdrop] at h; cases h
  · next afterEquals h =>
    rw [hfront, hdrop] at h
    obtain rfl := (List.cons.inj h).2
    simp only [hfront, htake, hkeyRead, hspaced, a.value.readValue_written hrest, hvalid]
    simp [Attribute.pair]

/-- The pairs of a header as they are written after its kind. -/
def writtenPairs (attributes : List Attribute) : List Char :=
  attributes.flatMap fun a => ' ' :: a.written

theorem stops_writtenPairs (attributes : List Attribute) : Stops (writtenPairs attributes) := by
  intro c hc
  cases attributes with
  | nil => simp [writtenPairs] at hc
  | cons a rest =>
    obtain rfl : ' ' = c := by simpa [writtenPairs] using hc
    decide

theorem readPairs_written (attributes : List Attribute) :
    readPairs (writtenPairs attributes) = attributes.map Attribute.pair := by
  induction attributes with
  | nil => rw [writtenPairs, List.flatMap_nil, readPairs]; rfl
  | cons a rest ih =>
    have hread := readPairs_attribute a [' '] [] [] (by simp; decide) (by simp) (by simp)
      (stops_writtenPairs rest)
    rw [ih] at hread
    simpa [writtenPairs, Attribute.written] using hread

def IsKind (kind : List Char) : Prop :=
  ∃ c rest, kind = c :: rest ∧ startsKind c = true ∧ ∀ c ∈ rest, continuesKind c = true

theorem isKind_of_all {kind : List Char}
    (h : (kind.head?.any startsKind && kind.tail.all continuesKind) = true) : IsKind kind := by
  cases kind with
  | nil => cases h
  | cons c rest =>
    obtain ⟨hc, hrest⟩ := Bool.and_eq_true_iff.mp h
    exact ⟨c, rest, rfl, hc, List.all_eq_true.mp hrest⟩

theorem continuesKind_eq (c : Char) :
    continuesKind c = ((decide ('A'.val ≤ c.val ∧ c.val ≤ 'Z'.val) ||
      (decide ('a'.val ≤ c.val) && decide (c.val ≤ 'z'.val)) ||
        (decide ('0'.val ≤ c.val) && decide (c.val ≤ '9'.val))) || c == '_') :=
  rfl

theorem continuesKind_of_isBlank {c : Char} (hc : Text.isBlank c = true) :
    continuesKind c = false := by
  have hval : c.val.toNat = c.toNat := rfl
  simp only [Text.isBlank, Text.isWhiteSpace, Text.isSeparator, Bool.or_eq_true, Bool.and_eq_true,
    decide_eq_true_eq, beq_iff_eq] at hc
  simp only [continuesKind_eq, Bool.or_eq_false_iff, Bool.and_eq_false_iff,
    decide_eq_false_iff_not, UInt32.le_iff_toNat_le, hval, beq_eq_false_iff_ne, ne_eq]
  have hunderscore : c ≠ '_' := by rintro rfl; simp at hc
  have hletters : 'A'.val.toNat = 65 ∧ 'Z'.val.toNat = 90 ∧ 'a'.val.toNat = 97 ∧
    'z'.val.toNat = 122 ∧ '0'.val.toNat = 48 ∧ '9'.val.toNat = 57 := by decide
  refine ⟨?_, hunderscore⟩
  omega

def headerLine (kind : String) (attributes : List Attribute) : String :=
  String.ofList ('[' :: (kind.toList ++ writtenPairs attributes) ++ [']'])

theorem trim_bracketed (body : List Char) :
    Text.trimBoth Text.isBlank ('[' :: body ++ [']']) = '[' :: body ++ [']'] := by
  apply Text.trimBoth_of_ends <;> intro c hc
  · obtain rfl : '[' = c := by simpa using hc
    decide
  · obtain rfl : ']' = c := by simpa [List.getLast?_cons] using hc
    decide

theorem headerOfBody_written {kind : List Char} (hkind : IsKind kind) {tail : List Char}
    (htail : Stops tail) :
    headerOfBody (kind ++ tail) = some ⟨String.ofList kind, readPairs tail⟩ := by
  obtain ⟨c, rest, rfl, hc, hrest⟩ := hkind
  have hstop : tail.takeWhile continuesKind = [] ∧ tail.dropWhile continuesKind = tail := by
    cases tail with
    | nil => exact ⟨rfl, rfl⟩
    | cons b tail =>
      simp [continuesKind_of_isBlank (htail b rfl)]
  simp [headerOfBody, hc, List.takeWhile_append_of_pos hrest, List.dropWhile_append_of_pos hrest,
    hstop]

theorem Header.ofLine_headerLine {kind : String} (hkind : IsKind kind.toList)
    (attributes : List Attribute) :
    Header.ofLine (headerLine kind attributes) = some ⟨kind, attributes.map Attribute.pair⟩ := by
  have hbody := headerOfBody_written hkind (stops_writtenPairs attributes)
  rw [readPairs_written, String.ofList_toList] at hbody
  rw [Header.ofLine, headerLine, String.toList_ofList, trim_bracketed]
  simpa using hbody

end SceneCodegen.Scene
