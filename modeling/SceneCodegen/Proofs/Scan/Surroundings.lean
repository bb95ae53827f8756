import SceneCodegen.Proofs.Scan.Ancestors
import SceneCodegen.Proofs.Scan.Nesting

/-!
# Walking outward

The walk outward along enclosing types ends, whatever names are given for these: a type that is
found has a lookup name no longer than the name it was looked up by, and one longer than the name of
the type around it. What the walk gives is told by the types it comes upon and by the name at which
it leaves what can be found.
-/
namespace SceneCodegen

/-- What stands after the last dot of a name, or all of it. -/
def IsLastPart (part name : String) : Prop :=
  '.' ∉ part.toList ∧ (name = part ∨ ∃ front, name = front ++ "." ++ part)

theorem afterLast_append {front part : List Char} (hdot : '.' ∉ part)
    (hfront : ∀ c, front.getLast? = some c → c = '.') :
    ((front ++ part).reverse.takeWhile (· != '.')).reverse = part := by
  have hkept : ∀ c ∈ part.reverse, (c != '.') = true := by
    intro c hc
    rw [List.mem_reverse] at hc
    exact bne_iff_ne.mpr fun he => hdot (he ▸ hc)
  rw [List.reverse_append, List.takeWhile_append_of_pos hkept]
  cases hlast : front.reverse with
  | nil => simp
  | cons c rest =>
    have hc : front.getLast? = some c := by rw [← List.head?_reverse, hlast]; rfl
    rw [hfront c hc]
    simp

theorem isLastPart_iff {part name : String} :
    IsLastPart part name ↔ Text.afterLast '.' name = part := by
  rw [Text.afterLast, ← String.toList_inj, String.toList_ofList]
  constructor
  · rintro ⟨hdot, rfl | ⟨front, rfl⟩⟩
    · simpa using @afterLast_append [] name.toList hdot fun c hc => by cases hc
    · rw [String.toList_append]
      exact afterLast_append hdot fun c hc => by simpa using hc.symm
  · intro hpart
    have hcut := List.takeWhile_append_dropWhile (p := (· != '.')) (l := name.toList.reverse)
    have hsplit : name.toList =
        (name.toList.reverse.dropWhile (· != '.')).reverse ++ part.toList := by
      rw [← hpart, ← List.reverse_append, hcut, List.reverse_reverse]
    refine ⟨fun hmem => ?_, ?_⟩
    · rw [← hpart, List.mem_reverse] at hmem
      exact absurd (List.mem_takeWhile_imp hmem) (by decide)
    · cases hback : name.toList.reverse.dropWhile (· != '.') with
      | nil =>
        rw [hback] at hsplit
        exact .inl (String.toList_injective hsplit)
      | cons c rest =>
        have hc : (c != '.') = false := by
          have hhead := List.head?_dropWhile_not (· != '.') name.toList.reverse
          rw [hback] at hhead
          simpa using hhead
        refine .inr ⟨String.ofList rest.reverse, String.toList_injective ?_⟩
        rw [hsplit, hback, bne_eq_false_iff_eq.mp hc]
        simp

namespace TypeResolver

/-- The types found one around the other from a name on, innermost first, and the last part of the
name that leads to none. -/
inductive Outward (r : TypeResolver Id) : Option String → List TypeSymbol → Option String → Prop
  | outermost {name : Option String} (h : name.getD "" = "") : Outward r name [] none
  | leaves {name part : String} (hne : name ≠ "") (hfind : r.find name = none)
      (hpart : IsLastPart part name) : Outward r (some name) [] (some part)
  | within {name : String} {s : TypeSymbol} {types : List TypeSymbol} {left : Option String}
      (hne : name ≠ "") (hfind : r.find name = some s)
      (hrest : Outward r s.containingType types left) : Outward r (some name) (s :: types) left

/-- No name leads to a type of a longer lookup name. -/
def FindsShorter (r : TypeResolver Id) : Prop :=
  ∀ name s, r.find name = some s → s.lookupName.length ≤ name.length

variable {r : TypeResolver Id} {t : SymbolTable}

theorem FindsShorter.length_lt (hr : r.FindsShorter) {name outer : String} {s : TypeSymbol}
    (hfind : r.find name = some s) (hcontaining : s.containingType = some outer)
    (hne : outer ≠ "") : outer.length < name.length := by
  refine Nat.lt_of_lt_of_le ?_ (hr name s hfind)
  rw [Symbol.Declaration.lookupName, hcontaining]
  exact length_lt_qualify hne _ _

/-- From any name on the walk outward ends. -/
theorem FindsShorter.exists_outward (hr : r.FindsShorter) (name : Option String) :
    ∃ types left, r.Outward name types left := by
  -- What is found by a name gives a shorter one for what is around it.
  induction hlength : (name.getD "").length using Nat.strongRecOn generalizing name with
  | _ n ih =>
    by_cases hempty : name.getD "" = ""
    · exact ⟨[], none, .outermost hempty⟩
    · cases name with
      | none => exact absurd rfl hempty
      | some name =>
        have hne : name ≠ "" := hempty
        cases hfind : (r.find name).run with
        | none => exact ⟨[], _, .leaves hne hfind (isLastPart_iff.mpr rfl)⟩
        | some s =>
          have hshort : (s.containingType.getD "").length < n := by
            rw [← hlength]
            cases hcontaining : s.containingType with
            | none => exact Nat.pos_of_ne_zero (mt String.length_eq_zero_iff.mp hne)
            | some outer =>
              by_cases houter : outer = ""
              · rw [houter]
                exact Nat.pos_of_ne_zero (mt String.length_eq_zero_iff.mp hne)
              · exact hr.length_lt hfind hcontaining houter
          obtain ⟨types, left, hrest⟩ := ih _ hshort s.containingType rfl
          exact ⟨s :: types, left, .within hne hfind hrest⟩

/-- The declaration of a type as it stands around another. -/
def heading (s : TypeSymbol) : String × String := (keyword s, s.nameWithTypeParameters)

theorem Outward.enclosing_run (hr : r.FindsShorter) {name : Option String}
    {types : List TypeSymbol} {left : Option String} (h : r.Outward name types left) :
    (r.enclosing (name.getD "")).run =
      types.map heading ++ (left.map fun part => ("class", part)).toList := by
  induction h with
  | outermost h =>
    rw [h, TypeResolver.enclosing_run, if_pos rfl]
    rfl
  | @leaves name part hne hfind hpart =>
    have hnone : (r.find name).run = none := hfind
    rw [Option.getD_some, TypeResolver.enclosing_run, if_neg hne, hnone]
    simp only [isLastPart_iff.mp hpart]
    rfl
  | within hne hfind _ ih =>
    rw [Option.getD_some, enclosing_within hne hfind fun _ hc ho => hr.length_lt hfind hc ho, ih]
    rfl

theorem Outward.holds (hr : r.FindsIn t) {name : Option String} {types : List TypeSymbol}
    {left : Option String} (h : r.Outward name types left) : ∀ s ∈ types, t.Holds s := by
  induction h with
  | outermost | leaves => nofun
  | within _ hfind _ ih => exact List.forall_mem_cons.mpr ⟨hr.find _ _ hfind, ih⟩

/-- The declarations around a type are those of the types of a table around it, outermost first,
after the last part of the name at which the table is left. -/
structure Surrounds (r : TypeResolver Id) (t : SymbolTable) (s : TypeSymbol) : Prop where
  ends : ∃ types left, r.Outward s.containingType types left
  told : ∀ types left, r.Outward s.containingType types left →
    (∀ x ∈ types, t.Holds x) ∧ (r.containingDeclarations s).run =
      (left.map fun part => ("class", part)).toList ++ (types.map heading).reverse

theorem FindsIn.surrounds (hr : r.FindsIn t) (hshort : r.FindsShorter) (s : TypeSymbol) :
    r.Surrounds t s where
  ends := hshort.exists_outward s.containingType
  told types left h := by
    refine ⟨h.holds hr, ?_⟩
    rw [containingDeclarations_run, h.enclosing_run hshort, List.reverse_append]
    cases left <;> rfl

end TypeResolver
end SceneCodegen
