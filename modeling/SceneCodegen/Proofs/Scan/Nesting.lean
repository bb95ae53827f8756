import SceneCodegen.Proofs.Fragment.Openings
import SceneCodegen.Proofs.Scan.Known
import SceneCodegen.Proofs.Scan.Names

/-!
# Classes within types

The declarations around a scanned class, read with its namespace and its name with type parameters,
make up its qualified name as long as every type around it is known by its qualified name. Its
namespace and its plain name make it up just if it is outermost and has no type parameters.
-/
namespace SceneCodegen
open Fragment

theorem join_concat {names : List String} (h : names ≠ []) (name : String) :
    Text.join "." (names ++ [name]) = Text.join "." names ++ "." ++ name := by
  have hchars : names.map String.toList ≠ [] := mt List.map_eq_nil_iff.mp h
  rw [← String.toList_inj]
  simp only [Text.join, String.toList_intercalate, String.toList_append, List.map_append,
    List.map_cons, List.map_nil]
  exact Text.intercalate_snoc _ hchars _

theorem join_spaces (nameSpace name : String) :
    Text.join "." (spaces nameSpace ++ [name]) = Symbol.qualify name nameSpace none := by
  unfold spaces Symbol.qualify Symbol.qualify.inSpace
  by_cases h : nameSpace = ""
  · simp [h, Text.join]
  · simp [h, Text.join, String.append_assoc]

namespace Symbol.Declaration

/-- A declaration whose names can stand in heads and do not look like type parameters. -/
structure Legible (d : Declaration) : Prop extends Plain d where
  ownName : Fragment.Legible d.name
  nameSpace : Fragment.Legible d.nameSpace
  parameters : ∀ parameter ∈ d.typeParameters, Fragment.Legible parameter
  around : Fragment.Legible (d.containingType.getD "")

theorem Legible.nameWithTypeParameters {d : Declaration} (h : d.Legible) :
    Fragment.Legible d.nameWithTypeParameters := by
  unfold Declaration.nameWithTypeParameters
  split
  · exact h.ownName
  · intro c hc
    simp only [String.toList_append, List.mem_append] at hc
    rcases hc with ((hc | hc) | hc) | hc
    · exact h.ownName c hc
    · obtain rfl : c = '<' := by simpa using hc
      decide
    · obtain rfl | rfl | ⟨parameter, hparameter, hc⟩ := mem_parameters hc
      · decide
      · decide
      · exact h.parameters parameter hparameter c hc
    · obtain rfl : c = '>' := by simpa using hc
      decide

/-- The type around a type adds nothing to its namespace. -/
def AddsNothing (d : Declaration) : Prop :=
  d.containingType.getD "" = "" ∨ d.containingType.getD "" = d.nameSpace

theorem qualifier_eq_iff (nameSpace : String) (containing : Option String) :
    qualifier nameSpace none = qualifier nameSpace containing ↔
      containing.getD "" = "" ∨ containing.getD "" = nameSpace := by
  cases containing with
  | none => simp
  | some outer =>
    by_cases houter : outer = ""
    · simp [qualifier, houter]
    · by_cases hspace : nameSpace = ""
      · have hne : "" ≠ outer ++ "." := fun h => by simpa using congrArg String.toList h
        simp [qualifier, qualifier.inSpace, houter, hspace, hne]
      · rw [eq_comm]
        simp [qualifier, qualifier.inSpace, houter, hspace]

/-- The plain name in the namespace is the qualified name just if nothing is left out. -/
theorem qualify_eq_qualifiedName_iff {d : Declaration} (h : d.Plain) :
    qualify d.name d.nameSpace none = d.qualifiedName ↔ d.typeParameters = [] ∧ d.AddsNothing := by
  rw [qualifiedName, qualify_eq, qualify_eq, AddsNothing, ← qualifier_eq_iff]
  unfold nameWithTypeParameters
  split
  · next hnone => 
    rw [String.append_left_inj]
    exact (and_iff_right (List.isEmpty_iff.mp hnone)).symm
  · next hsome =>
    refine iff_of_false (fun heq => ?_) fun hboth => hsome (List.isEmpty_iff.mpr hboth.1)
    have hlast := h.getLast?_ne d.nameSpace none
    rw [heq] at hlast
    simp [← String.append_assoc, List.getLast?_cons] at hlast

end Symbol.Declaration

namespace TypeResolver
variable {known : TypeResolver Id}

/-- One step outward among known types. -/
theorem enclosing_run (name : String) : (known.enclosing name).run =
    if name = "" then []
    else match (known.find name).run with
      | none => [("class", Text.afterLast '.' name)]
      | some s => (keyword s, s.nameWithTypeParameters) ::
        match s.containingType with
        | none => []
        | some outer =>
          if outer.length < name.length then (known.enclosing outer).run else [] := by
  rw [TypeResolver.enclosing]
  by_cases hempty : name = ""
  · simp [hempty]
  · have hfilled : (name == "") = false := by simpa using hempty
    simp only [hfilled, bind_id, hempty, if_false]
    show Id.run (match (known.find name).run with | none => _ | some s => _) = _
    cases (known.find name).run with
    | none => rfl
    | some s =>
      cases hcontaining : s.containingType with
      | none => simp only [hcontaining]; rfl
      | some outer =>
        simp only [hcontaining]
        by_cases hlt : outer.length < name.length
        · rw [if_pos hlt, if_pos hlt]
          rfl
        · rw [if_neg hlt, if_neg hlt]
          rfl

theorem enclosing_eq_nil_iff {name : String} : (known.enclosing name).run = [] ↔ name = "" := by
  rw [enclosing_run]
  split
  · next hempty => exact iff_of_true rfl hempty
  · next hfilled =>
    refine iff_of_false ?_ hfilled
    split <;> exact List.cons_ne_nil _ _

theorem keyword_mem (s : TypeSymbol) : keyword s ∈ typeKeywords := by
  unfold keyword
  split <;> decide

theorem afterLast_subset (sep : Char) (name : String) :
    ∀ c ∈ (Text.afterLast sep name).toList, c ∈ name.toList := by
  intro c hc
  rw [Text.afterLast, String.toList_ofList, List.mem_reverse] at hc
  exact List.mem_reverse.mp ((List.takeWhile_sublist _).subset hc)

/-- Types are found whose names can stand in heads. -/
def FindsLegible (known : TypeResolver Id) : Prop :=
  ∀ name s, known.find name = some s → s.Legible

/-- The declarations around a type can stand in heads. -/
theorem mem_enclosing (h : FindsLegible known) {name : String} (hname : Legible name) :
    ∀ d ∈ (known.enclosing name).run, d.1 ∈ typeKeywords ∧ Legible d.2 := by
  induction hn : name.length using Nat.strongRecOn generalizing name with
  | _ n ih =>
    rw [enclosing_run]
    split
    · simp
    · cases hfind : (known.find name).run with
      | none =>
        rintro d hd
        obtain rfl : d = ("class", Text.afterLast '.' name) := by simpa using hd
        have hclass : "class" ∈ typeKeywords := by decide
        exact ⟨hclass, fun c hc => hname c (afterLast_subset '.' name c hc)⟩
      | some s =>
        have hs := h name s hfind
        rw [List.forall_mem_cons]
        refine ⟨⟨keyword_mem s, hs.nameWithTypeParameters⟩, ?_⟩
        cases hcontaining : s.containingType with
        | none => simp
        | some outer =>
          have houter : Legible outer := by
            have := hs.around
            rwa [hcontaining] at this
          by_cases hlt : outer.length < name.length
          · simpa [hlt] using ih outer.length (by omega) houter rfl
          · simp [hlt]

end TypeResolver

/-- Every type around a type is known by its qualified name, and stands in the same namespace. -/
inductive Nests (known : TypeResolver Id) : TypeSymbol → Prop
  | outermost {t : TypeSymbol} (h : t.containingType.getD "" = "") : Nests known t
  | within {t s : TypeSymbol} {outer : String} (houter : t.containingType = some outer)
      (hne : outer ≠ "") (hfind : (known.find outer).run = some s) (hname : s.qualifiedName = outer)
      (hspace : s.nameSpace = t.nameSpace) (hs : Nests known s) : Nests known t

/-- The names that a head gives to a type and to what is around it, as one name. -/
def spelled (known : TypeResolver Id) (t : TypeSymbol) : String :=
  Text.join "." (spaces t.nameSpace ++ (known.containingDeclarations t).run.map Prod.snd ++
    [t.nameWithTypeParameters])

theorem containingDeclarations_run (known : TypeResolver Id) (t : TypeSymbol) :
    (known.containingDeclarations t).run =
      (known.enclosing (t.containingType.getD "")).run.reverse := rfl

theorem containingDeclarations_eq_nil_iff {known : TypeResolver Id} {t : TypeSymbol} :
    (known.containingDeclarations t).run = [] ↔ t.containingType.getD "" = "" := by
  rw [containingDeclarations_run, List.reverse_eq_nil_iff, TypeResolver.enclosing_eq_nil_iff]

theorem length_lt_qualify {outer : String} (h : outer ≠ "") (name nameSpace : String) :
    outer.length < (Symbol.qualify name nameSpace (some outer)).length := by
  have hdot : ".".length = 1 := rfl
  simp only [Symbol.qualify, bne_iff_ne, ne_eq, h, not_false_eq_true, if_true, String.length_append]
  omega

/-- One step outward, where the name of what is around a type is shorter than the name it has. -/
theorem enclosing_within {known : TypeResolver Id} {name : String} {s : TypeSymbol}
    (hne : name ≠ "") (hfind : (known.find name).run = some s)
    (hshort : ∀ outer, s.containingType = some outer → outer ≠ "" → outer.length < name.length) :
    (known.enclosing name).run = (TypeResolver.keyword s, s.nameWithTypeParameters) ::
      (known.enclosing (s.containingType.getD "")).run := by
  rw [TypeResolver.enclosing_run, if_neg hne, hfind]
  refine congrArg (List.cons (TypeResolver.keyword s, s.nameWithTypeParameters)) ?_
  cases hcontaining : s.containingType with
  | none =>
    rw [Option.getD_none, TypeResolver.enclosing_run, if_pos rfl]
  | some outer =>
    by_cases hempty : outer = ""
    · have hnothing : (known.enclosing outer).run = [] := by
        rw [hempty, TypeResolver.enclosing_run, if_pos rfl]
      simp only [Option.getD_some, hnothing, ite_self]
    · exact if_pos (hshort outer hcontaining hempty)

/-- In types that are known by their qualified names, a class is spelled by its own. -/
theorem Nests.spelled_eq {known : TypeResolver Id} {t : TypeSymbol} (h : Nests known t) :
    spelled known t = t.qualifiedName := by
  induction h with
  | @outermost t h =>
    have hqualifier := (Symbol.Declaration.qualifier_eq_iff t.nameSpace t.containingType).mpr
      (.inl h)
    rw [spelled, containingDeclarations_run, h, TypeResolver.enclosing_run, if_pos rfl,
      List.reverse_nil, List.map_nil, List.append_nil, join_spaces,
      Symbol.Declaration.qualifiedName, Symbol.qualify_eq, Symbol.qualify_eq, hqualifier]
  | @within t s outer houter hne hfind hname hspace hs ih =>
    have hshort (around : String) (h : s.containingType = some around) (hempty : around ≠ "") :
        around.length < outer.length := by
      rw [← hname, Symbol.Declaration.qualifiedName, h]
      exact length_lt_qualify hempty _ _
    have haround : (known.containingDeclarations t).run =
        (known.containingDeclarations s).run ++
          [(TypeResolver.keyword s, s.nameWithTypeParameters)] := by
      rw [containingDeclarations_run, containingDeclarations_run, houter, Option.getD_some,
        enclosing_within hne hfind hshort, List.reverse_cons]
    have hfilled : spaces s.nameSpace ++ (known.containingDeclarations s).run.map Prod.snd ++
        [s.nameWithTypeParameters] ≠ [] := by simp
    rw [spelled, haround, ← hspace, List.map_append, List.map_singleton, ← List.append_assoc,
      join_concat hfilled, ← spelled, ih, hname]
    simp [Symbol.Declaration.qualifiedName, Symbol.qualify, houter, hne]

end SceneCodegen
