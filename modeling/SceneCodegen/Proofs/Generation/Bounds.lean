import SceneCodegen.Proofs.Generation.Levels
import SceneCodegen.Proofs.Graph.SameCourse

/-!
# Bounds on the search for the root type

The search along base types meets each known type once, so any bound from the number of known types
on leads to the same search.
-/
namespace SceneCodegen
open SceneCodegen.Graph

namespace TypeResolver

section
variable {m : Type → Type} [Monad m] {r r' : TypeResolver m} (h : r.find = r'.find)
include h

theorem follow_congr (name : Option String) : r.follow name = r'.follow name := by
  unfold follow
  rw [h]

theorem reachesRoot_congr (steps : Nat) (visited : List String) (s : Option TypeSymbol) :
    r.reachesRoot steps visited s = r'.reachesRoot steps visited s := by
  induction steps generalizing visited s with
  | zero => cases s <;> rfl
  | succ steps ih =>
    cases s with
    | none => rfl
    | some s => simp only [reachesRoot, baseOf, follow_congr h, ih]

theorem enclosing_congr (name : String) : r.enclosing name = r'.enclosing name := by
  induction hn : name.length using Nat.strongRecOn generalizing name with
  | _ n ih =>
    rw [enclosing, enclosing, h]
    split
    · rfl
    · congr 1
      funext s
      cases s with
      | none => rfl
      | some s =>
        cases hc : s.containingType with
        | none => simp only [hc]
        | some outer =>
          simp only [hc]
          split
          · rename_i hlt
            rw [ih outer.length (by omega) outer rfl]
          · rfl

theorem finish_congr (s : TypeSymbol) (derivesFromRoot : Bool)
    (singleton : Option SingletonRecord) :
    Scan.finish r s derivesFromRoot singleton = Scan.finish r' s derivesFromRoot singleton := by
  unfold Scan.finish containingDeclarations
  rw [enclosing_congr h]

end

variable {K : Type} {V : K → Type} {rules : Rules K V} {inputs : Inputs K V}
  {r : TypeResolver (Program K V)} {names : List String}

/-- Every type that is found has one of these names. -/
structure Finds (rules : Rules K V) (inputs : Inputs K V) (names : List String)
    (r : TypeResolver (Program K V)) : Prop where
  find : ∀ {β : Type} (name : String) (f g : Option TypeSymbol → Program K V β),
    (∀ s, (∀ x, s = some x → x.lookupName ∈ names) → (f s).SameCourse rules inputs (g s)) →
      ((r.find name).bind f).SameCourse rules inputs ((r.find name).bind g)

theorem Finds.follow {β : Type} (h : Finds rules inputs names r) (name : Option String)
    {f g : Option TypeSymbol → Program K V β}
    (hfg : ∀ s, (∀ x, s = some x → x.lookupName ∈ names) →
      (f s).SameCourse rules inputs (g s)) :
    ((r.follow name).bind f).SameCourse rules inputs ((r.follow name).bind g) := by
  cases name with
  | none => exact hfg none nofun
  | some name =>
    simp only [TypeResolver.follow]
    split
    · exact hfg none nofun
    · exact h.find name f g hfg

/-- Two bounds that leave a step for each name not visited. -/
theorem reachesRoot_sameCourse (h : Finds rules inputs names r) {m n : Nat} {visited : List String}
    (hvisited : visited.Nodup) (hsub : visited ⊆ names) (hm : names.length < m + visited.length)
    (hn : names.length < n + visited.length) {s : Option TypeSymbol}
    (hs : ∀ x, s = some x → x.lookupName ∈ names) :
    (r.reachesRoot m visited s).SameCourse rules inputs (r.reachesRoot n visited s) := by
  have hle := hvisited.length_le_of_subset hsub
  induction m generalizing n visited s with
  | zero => omega
  | succ m ih =>
    cases n with
    | zero => omega
    | succ n =>
      cases s with
      | none => exact .refl _
      | some s =>
        simp only [reachesRoot]
        split
        · exact .refl _
        · split
          · exact .refl _
          · rename_i hnew
            have hnew : s.lookupName ∉ visited := by simpa using hnew
            have hnodup := List.nodup_cons.mpr ⟨hnew, hvisited⟩
            have hsub : s.lookupName :: visited ⊆ names := List.cons_subset.mpr ⟨hs s rfl, hsub⟩
            refine h.follow s.baseType fun base hbase => ?_
            exact ih hnodup hsub (by simp only [List.length_cons]; omega)
              (by simp only [List.length_cons]; omega) hbase (hnodup.length_le_of_subset hsub)

end TypeResolver

namespace Generation
open TypeResolver

variable {registry : Fragment.EmitterRegistry} {inputs : Inputs Node Value} {names : List String}
    {m n : Nat}

/-- All types that are given have one of these names. -/
def Given (inputs : Inputs Node Value) (names : List String) : Prop :=
  ∀ i s, inputs (.typeSymbols (.item i)) = some (some s) → s.lookupName ∈ names

theorem typeSymbolsItem_sameCourse (h : Given inputs names) (c : Config) (size : Nat) {β : Type}
    (i : String) {f g : Option TypeSymbol → Query β}
    (hfg : ∀ s, (∀ x, s = some x → x.lookupName ∈ names) →
      (f s).SameCourse (rulesWith registry c size) inputs (g s)) :
    ((typeSymbols.item i).bind f).SameCourse (rulesWith registry c size) inputs
      ((typeSymbols.item i).bind g) := by
  have hrule : rulesWith registry c size (.typeSymbols (.item i)) = .input none := rfl
  refine .read hrule (hfg _ fun x hx => ?_)
  have hx : (inputs (.typeSymbols (.item i))).getD none = some x := hx
  cases hi : inputs (.typeSymbols (.item i)) with
  | none =>
    rw [hi] at hx
    cases hx
  | some s =>
    rw [hi] at hx
    exact h i x (by rw [hi]; exact congrArg some hx)

theorem resolver_finds (h : Given inputs names) (c : Config) (size : Nat) :
    Finds (rulesWith registry c size) inputs names (resolver m) where
  find name _ _ hfg := typeSymbolsItem_sameCourse h c size (lookupNameOf name) hfg

theorem scanClass_sameCourse (h : Given inputs names) (c : Config) (hm : names.length ≤ m)
    (hn : names.length ≤ n) (s : TypeSymbol) :
    (Scan.scanClass (resolver m) s).SameCourse (rulesWith registry c m) inputs
      (Scan.scanClass (resolver n) s) := by
  have hfind : (resolver m).find = (resolver n).find := rfl
  rw [Scan.scanClass_eq, Scan.scanClass_eq]
  split
  · refine (resolver_finds h c m).follow s.baseType fun base hbase => ?_
    have hsearch : ((resolver m).inheritsFromRoot base).SameCourse (rulesWith registry c m) inputs
        ((resolver n).inheritsFromRoot base) := by
      unfold inheritsFromRoot
      rw [← reachesRoot_congr hfind]
      have hm' : names.length < (resolver m).size + 2 := by
        show names.length < m + 2
        omega
      have hn' : names.length < (resolver n).size + 2 := by
        show names.length < n + 2
        omega
      exact reachesRoot_sameCourse (resolver_finds h c m) List.nodup_nil (List.nil_subset _) hm' hn'
        hbase
    have hfinish (derives : Bool) : Scan.finish (resolver m) s derives =
        Scan.finish (resolver n) s derives := by
      funext singleton
      exact finish_congr hfind s derives singleton
    simp only [hfinish]
    exact hsearch.bind _
  · exact .refl _

/-- Bounds that are large enough make no difference to any query. -/
theorem rules_sameRules (c : Config) (h : Given inputs names) (hm : names.length ≤ m)
    (hn : names.length ≤ n) :
    SameRules (rulesWith registry c m) (rulesWith registry c n) inputs := by
  intro k
  cases k with
  | scannedClasses node =>
    cases node with
    | outcome i =>
      refine .inr ⟨_, _, rfl, rfl, typeSymbolsItem_sameCourse h c m i fun s _ => ?_⟩
      cases s with
      | none => exact .refl _
      | some s => exact ((scanClass_sameCourse h c hm hn s).bind _).catching _
    | item i | diagnostics => exact .inl rfl
  | fragmentList kind => exact .inl (by cases kind <;> rfl)
  | _ => exact .inl rfl

end Generation
end SceneCodegen
