import Mathlib.Tactic.SplitIfs
import SceneCodegen.Proofs.Text.Cutting
import SceneCodegen.Scan.Scanner

/-!
# Names of scanned types

The qualified name of a type tells its lookup name, as long as its own name and its type parameters
hold no angle brackets; and a file name tells the qualified name it was made from, as long as this
holds no parentheses.
-/
namespace SceneCodegen

def Unparenthesized (cs : List Char) : Prop := ∀ c ∈ cs, c ≠ '(' ∧ c ≠ ')'

/-- A character as it stands in a file name. -/
def hintChars (c : Char) : List Char :=
  if c = '<' then ['(', 'O', 'f', ' '] else if c = '>' then [')'] else [c]

theorem hintNameOf_toList (name : String) :
    (hintNameOf name).toList = name.toList.flatMap hintChars := by
  have hopen : "(Of ".toList = ['(', 'O', 'f', ' '] := rfl
  rw [hintNameOf, Text.replaceChars, String.toList_ofList]
  congr 1
  funext c
  simp only [hintChars, beq_iff_eq, hopen]

theorem hintChars_injective {xs ys : List Char} (hxs : Unparenthesized xs)
    (hys : Unparenthesized ys) (h : xs.flatMap hintChars = ys.flatMap hintChars) : xs = ys := by
  have hne (c : Char) : hintChars c ≠ [] := by
    unfold hintChars
    split_ifs <;> simp
  induction xs generalizing ys with
  | nil =>
    cases ys with
    | nil => rfl
    | cons y ys => simp [hne] at h
  | cons x xs ih =>
    cases ys with
    | nil => simp [hne] at h
    | cons y ys =>
      obtain ⟨hx, hxs'⟩ := List.forall_mem_cons.mp hxs
      obtain ⟨hy, hys'⟩ := List.forall_mem_cons.mp hys
      rw [List.flatMap_cons, List.flatMap_cons] at h
      obtain ⟨rfl, hrest⟩ : x = y ∧ xs.flatMap hintChars = ys.flatMap hintChars := by
        simp only [hintChars] at h
        split_ifs at h <;> grind
      rw [ih hxs' hys' hrest]

theorem hintNameOf_injective {name name' : String} (h : Unparenthesized name.toList)
    (h' : Unparenthesized name'.toList) (heq : hintNameOf name = hintNameOf name') :
    name = name' := by
  refine String.toList_injective (hintChars_injective h h' ?_)
  rw [← hintNameOf_toList, ← hintNameOf_toList, heq]

/-- Names like those of types and type parameters, which hold no brackets. -/
def Bracketless (name : String) : Prop :=
  ∀ c ∈ name.toList, c ≠ '<' ∧ c ≠ '>' ∧ c ≠ '(' ∧ c ≠ ')'

namespace Symbol

/-- What stands before the name of a type in its qualified name. -/
def qualifier (nameSpace : String) (containing : Option String) : String :=
  match containing with
  | some outer => if outer != "" then outer ++ "." else inSpace
  | none => inSpace
where
  inSpace := if nameSpace != "" then nameSpace ++ "." else ""

theorem qualify_eq (name nameSpace : String) (containing : Option String) :
    qualify name nameSpace containing = qualifier nameSpace containing ++ name := by
  have hspace : qualify.inSpace name nameSpace = qualifier.inSpace nameSpace ++ name := by
    unfold qualify.inSpace qualifier.inSpace
    split_ifs <;> simp
  cases containing with
  | none => exact hspace
  | some outer =>
    simp only [qualify, qualifier]
    split_ifs
    · rfl
    · exact hspace

/-- A qualifier that is there ends with a dot. -/
theorem getLast?_qualifier (nameSpace : String) (containing : Option String) :
    (qualifier nameSpace containing).toList.getLast? ≠ some '>' := by
  have hdot (s : String) : (s ++ ".").toList.getLast? ≠ some '>' := by
    rw [String.toList_append, List.getLast?_append]
    simp
  have hspace : (qualifier.inSpace nameSpace).toList.getLast? ≠ some '>' := by
    unfold qualifier.inSpace
    split_ifs
    · exact hdot nameSpace
    · simp
  cases containing with
  | none => exact hspace
  | some outer =>
    simp only [qualifier]
    split_ifs
    · exact hdot outer
    · exact hspace

/-- A declaration whose name and type parameters are identifiers and whose surroundings hold no
parentheses. -/
structure Declaration.PlainlyNamed (d : Declaration) : Prop where
  name : Bracketless d.name
  typeParameters : ∀ parameter ∈ d.typeParameters, Bracketless parameter
  nameSpace : Unparenthesized d.nameSpace.toList
  containingType : ∀ outer, d.containingType = some outer → Unparenthesized outer.toList

/-- A declaration whose name and type parameters do not look like type parameters in brackets. -/
structure Declaration.Plain (d : Declaration) : Prop where
  name : '>' ∉ d.name.toList
  typeParameters : ∀ parameter ∈ d.typeParameters, '<' ∉ parameter.toList

/-- A qualified name without the type parameters at its end. -/
def withoutParameters (cs : List Char) : List Char :=
  if cs.getLast? = some '>' then ((cs.reverse.dropWhile (· != '<')).drop 1).reverse else cs

/-- Read backwards, the parameters end at the first opening bracket. -/
theorem withoutParameters_append (cs : List Char) {body : List Char} (h : '<' ∉ body) :
    withoutParameters (cs ++ '<' :: (body ++ ['>'])) = cs := by
  have hlast : (cs ++ '<' :: (body ++ ['>'])).getLast? = some '>' := by
    simp [List.getLast?_append, List.getLast?_cons]
  have hbody : ∀ c ∈ '>' :: body.reverse, (c != '<') = true := by
    intro c hc
    rw [List.mem_cons, List.mem_reverse] at hc
    rcases hc with rfl | hc
    · decide
    · exact bne_iff_ne.mpr fun he => h (he ▸ hc)
  have hreverse : (cs ++ '<' :: (body ++ ['>'])).reverse =
      '>' :: body.reverse ++ '<' :: cs.reverse := by simp
  rw [withoutParameters, if_pos hlast, hreverse, List.dropWhile_append_of_pos hbody]
  simp

theorem mem_parameters {d : Declaration} {c : Char}
    (hc : c ∈ (Text.join ", " d.typeParameters).toList) :
    c = ',' ∨ c = ' ' ∨ ∃ parameter ∈ d.typeParameters, c ∈ parameter.toList := by
  obtain hc | hparameter := Text.mem_of_mem_join hc
  · obtain rfl | rfl : c = ',' ∨ c = ' ' := by simpa using hc
    · exact .inl rfl
    · exact .inr (.inl rfl)
  · exact .inr (.inr hparameter)

namespace Declaration.Plain
variable {d e : Declaration}

/-- A plain name does not end like type parameters do. -/
theorem getLast?_ne (h : d.Plain) (nameSpace : String) (containing : Option String) :
    (qualifier nameSpace containing ++ d.name).toList.getLast? ≠ some '>' := by
  rw [String.toList_append, List.getLast?_append]
  cases hname : d.name.toList.getLast? with
  | some c =>
    rw [Option.some_or, Ne, Option.some.injEq]
    rintro rfl
    exact h.name (List.mem_of_getLast? hname)
  | none =>
    rw [Option.none_or]
    exact getLast?_qualifier _ _

/-- The qualified name tells the lookup name. -/
theorem withoutParameters_qualifiedName (h : d.Plain) :
    withoutParameters d.qualifiedName.toList = d.lookupName.toList := by
  rw [qualifiedName, lookupName, qualify_eq, qualify_eq]
  unfold nameWithTypeParameters
  split_ifs with hnone
  · exact if_neg (h.getLast?_ne _ _)
  · have hchars : (qualifier d.nameSpace d.containingType ++
        (d.name ++ "<" ++ Text.join ", " d.typeParameters ++ ">")).toList =
          (qualifier d.nameSpace d.containingType ++ d.name).toList ++
            '<' :: ((Text.join ", " d.typeParameters).toList ++ ['>']) := by simp
    rw [hchars]
    refine withoutParameters_append _ fun hmem => ?_
    obtain hc | hc | ⟨parameter, hparameter, hc⟩ := mem_parameters hmem
    · simp at hc
    · simp at hc
    · exact h.typeParameters parameter hparameter hc

theorem lookupName_eq (hd : d.Plain) (he : e.Plain) (h : d.qualifiedName = e.qualifiedName) :
    d.lookupName = e.lookupName := by
  refine String.toList_injective ?_
  rw [← hd.withoutParameters_qualifiedName, h, he.withoutParameters_qualifiedName]

end Declaration.Plain

namespace Declaration.PlainlyNamed
variable {d : Declaration} (h : d.PlainlyNamed)
include h

theorem plain : d.Plain where
  name hmem := (h.name '>' hmem).2.1 rfl
  typeParameters parameter hparameter hmem := (h.typeParameters parameter hparameter '<' hmem).1 rfl

theorem qualifier_unparenthesized :
    Unparenthesized (qualifier d.nameSpace d.containingType).toList := by
  have hdot {s : String} (hs : Unparenthesized s.toList) : Unparenthesized (s ++ ".").toList := by
    intro c hc
    rw [String.toList_append, List.mem_append] at hc
    rcases hc with hc | hc
    · exact hs c hc
    · obtain rfl : c = '.' := by simpa using hc
      decide
  have hspace : Unparenthesized (qualifier.inSpace d.nameSpace).toList := by
    unfold qualifier.inSpace
    split_ifs
    · exact hdot h.nameSpace
    · exact fun c hc => by simp at hc
  unfold qualifier
  split
  · rename_i outer houter
    split_ifs
    · exact hdot (h.containingType outer houter)
    · exact hspace
  · exact hspace

theorem qualifiedName_unparenthesized : Unparenthesized d.qualifiedName.toList := by
  intro c hc
  rw [qualifiedName, qualify_eq, String.toList_append, List.mem_append] at hc
  rcases hc with hc | hc
  · exact h.qualifier_unparenthesized c hc
  · unfold nameWithTypeParameters at hc
    split_ifs at hc
    · exact (h.name c hc).2.2
    · simp only [String.toList_append, List.mem_append] at hc
      rcases hc with ((hc | hc) | hc) | hc
      · exact (h.name c hc).2.2
      · obtain rfl : c = '<' := by simpa using hc
        decide
      · obtain rfl | rfl | ⟨parameter, hparameter, hc⟩ := mem_parameters hc
        · decide
        · decide
        · exact (h.typeParameters parameter hparameter c hc).2.2
      · obtain rfl : c = '>' := by simpa using hc
        decide

end Declaration.PlainlyNamed
end Symbol

/-- Types of one file name have one lookup name. -/
theorem lookupName_eq_of_hintName {s t : Symbol.Declaration} (hs : s.PlainlyNamed)
    (ht : t.PlainlyNamed) (h : hintNameOf s.qualifiedName = hintNameOf t.qualifiedName) :
    s.lookupName = t.lookupName :=
  hs.plain.lookupName_eq ht.plain (hintNameOf_injective hs.qualifiedName_unparenthesized
    ht.qualifiedName_unparenthesized h)

end SceneCodegen
