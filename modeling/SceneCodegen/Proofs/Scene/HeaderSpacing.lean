import SceneCodegen.Proofs.Scene.HeaderText

/-!
# Spaced headers

A header may stand among blanks, and be written with any blanks between its pairs and before their
equals signs and any spaces after these. However it is spaced, its kind and its pairs are read back.
-/
namespace SceneCodegen.Scene

def Blank (cs : List Char) : Prop := ∀ c ∈ cs, Text.isBlank c = true

instance (cs : List Char) : Decidable (Blank cs) :=
  decidable_of_iff (cs.all Text.isBlank = true) List.all_eq_true

/-- An attribute with the blanks before its key and its equals sign, and as many spaces
after that. -/
structure SpacedAttribute extends Attribute where
  before : List Char
  gap : List Char := []
  spaces : Nat := 0
  before_filled : before ≠ []
  before_blank : Blank before
  gap_blank : Blank gap

namespace SpacedAttribute

def spaced (a : SpacedAttribute) : List Char :=
  a.before ++ (a.key.toList ++ a.gap ++
    '=' :: (List.replicate a.spaces ' ' ++ a.value.written))

theorem stops_spaced (a : SpacedAttribute) (rest : List Char) : Stops (a.spaced ++ rest) := by
  obtain ⟨b, bs, hbefore⟩ := List.exists_cons_of_ne_nil a.before_filled
  intro c hc
  obtain rfl : b = c := by simpa [spaced, hbefore] using hc
  exact a.before_blank b (by simp [hbefore])

end SpacedAttribute

theorem stops_blank {cs : List Char} (h : Blank cs) : Stops cs :=
  fun c hc => h c (List.mem_of_head? hc)

theorem stops_flatMap_spaced (attributes : List SpacedAttribute) {tail : List Char}
    (htail : Blank tail) :
    Stops (attributes.flatMap SpacedAttribute.spaced ++ tail) := by
  cases attributes with
  | nil => exact stops_blank htail
  | cons a rest =>
    rw [List.flatMap_cons, List.append_assoc]
    exact a.stops_spaced _

theorem readPairs_blank {cs : List Char} (h : Blank cs) : readPairs cs = [] := by
  have hnone : (cs.dropWhile Text.isBlank).dropWhile (· != '=') = [] := by
    rw [List.dropWhile_eq_nil_iff.mpr h, List.dropWhile_nil]
  rw [readPairs]
  split
  · rfl
  · next hcons => rw [hnone] at hcons; cases hcons

/-- The pairs are read off one after the other, up to the blanks after the last. -/
theorem readPairs_spaced (attributes : List SpacedAttribute) {tail : List Char}
    (htail : Blank tail) :
    readPairs (attributes.flatMap SpacedAttribute.spaced ++ tail) =
      attributes.map (·.pair) := by
  induction attributes with
  | nil => exact readPairs_blank htail
  | cons a rest ih =>
    have hspaces : ∀ c ∈ List.replicate a.spaces ' ', (c == ' ') = true := by
      intro c hc
      rw [List.eq_of_mem_replicate hc]
      rfl
    have hread := readPairs_attribute a.toAttribute a.before a.gap _ a.before_blank
      a.gap_blank hspaces
      (stops_flatMap_spaced rest htail)
    rw [ih] at hread
    simpa [SpacedAttribute.spaced] using hread

/-- Blanks around a bracketed text are trimmed. -/
theorem trim_among_blanks {front back : List Char} (hfront : Blank front) (hback : Blank back)
    (body : List Char) :
    Text.trimBoth Text.isBlank (front ++ '[' :: body ++ ']' :: back) = '[' :: body ++ [']'] := by
  have hline : front ++ '[' :: body ++ ']' :: back = (front ++ ('[' :: body ++ [']'])) ++ back := by
    simp
  have hcut : Text.trimBoth Text.isBlank (front ++ ('[' :: body ++ [']'])) =
      Text.trimBoth Text.isBlank ('[' :: body ++ [']']) := by
    rw [Text.trimBoth, Text.trimBoth, List.dropWhile_append_of_pos hfront]
  rw [hline, Text.trimBoth_append_cut _ hback, hcut, trim_bracketed]

/-- Reading a header, however it is spaced, gives its kind and exactly its pairs in order. -/
theorem Header.ofLine_spaced {kind : String} (hkind : IsKind kind.toList)
    (attributes : List SpacedAttribute) (front tail back : List Char) (hfront : Blank front)
    (htail : Blank tail) (hback : Blank back) :
    Header.ofLine (String.ofList (front ++
        '[' :: (kind.toList ++ (attributes.flatMap SpacedAttribute.spaced ++ tail)) ++
          ']' :: back)) =
      some ⟨kind, attributes.map (·.pair)⟩ := by
  have hbody := headerOfBody_written hkind (stops_flatMap_spaced attributes htail)
  rw [readPairs_spaced attributes htail, String.ofList_toList] at hbody
  rw [Header.ofLine, String.toList_ofList, trim_among_blanks hfront hback]
  simpa using hbody

/-- A quoted text with quotes in it, and a list with a bracket in a quoted text. -/
def listAttributes : List SpacedAttribute :=
  [{ toAttribute := ⟨"icon", .quoted "a \"b\" \\", by decide, by decide⟩
     before := ['\t', ' '], gap := [' '], spaces := 2
     before_filled := by decide, before_blank := by decide, gap_blank := by decide },
   { toAttribute := ⟨"groups", .raw "[\"x ]\\\"\", (1 2)]"
        (@Raw.group '[' ']' "\"x ]\\\"\", (1 2)".toList [] rfl
          (@InBrackets.quotes "x ]\\\"".toList ", (1 2)".toList
            (.char (by decide) (by decide) <| .char (by decide) (by decide) <|
              .char (by decide) (by decide) <| .escape '"' .nil)
            (.char (by decide) (by decide) <| .char (by decide) (by decide) <|
              @InBrackets.group '(' ')' "1 2".toList [] rfl
                (.char (by decide) (by decide) <| .char (by decide) (by decide) <|
                  .char (by decide) (by decide) .nil) .nil))
          .nil) (by decide), by decide, by decide⟩
     before := ['\n'], before_filled := by decide, before_blank := by decide
     gap_blank := by decide }]

theorem Header.ofLine_spaced_list :
    Header.ofLine " [node\t icon =  \"a \\\"b\\\" \\\\\"\ngroups=[\"x ]\\\"\", (1 2)] ]\n" =
      some ⟨"node", [("icon", "a \"b\" \\"), ("groups", "[\"x ]\\\"\", (1 2)]")]⟩ := by
  have hkind : IsKind "node".toList := isKind_of_all (by decide)
  have hread := Header.ofLine_spaced hkind listAttributes [' '] [' '] ['\n'] (by decide) (by decide)
    (by decide)
  have hline : String.ofList ([' '] ++ '[' :: ("node".toList ++
      (listAttributes.flatMap SpacedAttribute.spaced ++ [' '])) ++ ']' :: ['\n']) =
      " [node\t icon =  \"a \\\"b\\\" \\\\\"\ngroups=[\"x ]\\\"\", (1 2)] ]\n" := by
    decide +kernel
  rw [hline] at hread
  exact hread

end SceneCodegen.Scene
