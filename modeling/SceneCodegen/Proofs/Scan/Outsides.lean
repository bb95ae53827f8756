import SceneCodegen.Proofs.Scan.Known

/-!
# Types from outside

What a scan finds of other types does not hang on their members: neither whether a class derives
from the root type or extends a singleton, nor the declarations around it.
-/
namespace SceneCodegen

def TypeSymbol.outside (s : TypeSymbol) : TypeSymbol := { s with members := [] }

namespace TypeResolver

/-- Resolvers that find types under the same names, which are the same from outside. -/
structure SameOutside (r r' : TypeResolver Id) : Prop where
  find : ∀ name, Option.map TypeSymbol.outside (r.find name) =
    Option.map TypeSymbol.outside (r'.find name)
  size : r.size = r'.size

namespace SameOutside
variable {r r' : TypeResolver Id} (h : r.SameOutside r')
include h

theorem follow (name : Option String) : Option.map TypeSymbol.outside (r.follow name) =
    Option.map TypeSymbol.outside (r'.follow name) := by
  cases name with
  | none => rfl
  | some name =>
    simp only [TypeResolver.follow]
    split
    · rfl
    · exact h.find name

theorem reachesRoot (steps : Nat) (visited : List String) {s s' : Option TypeSymbol}
    (hs : s.map TypeSymbol.outside = s'.map TypeSymbol.outside) :
    r.reachesRoot steps visited s = r'.reachesRoot steps visited s' := by
  induction steps generalizing visited s s' with
  | zero => cases s <;> cases s' <;> rfl
  | succ steps ih =>
    cases s with
    | none =>
      cases s' with
      | none => rfl
      | some s' => cases hs
    | some s =>
      cases s' with
      | none => cases hs
      | some s' =>
        have hs : s.outside = s'.outside := Option.some.inj hs
        have hroot : isRoot s = isRoot s' := (congrArg isRoot hs :)
        have hname : s.lookupName = s'.lookupName := congrArg (·.lookupName) hs
        have hbase : s.baseType = s'.baseType := congrArg (·.baseType) hs
        simp only [TypeResolver.reachesRoot, hroot, hname, baseOf, hbase, bind_id]
        split
        · rfl
        · split
          · rfl
          · exact ih _ (h.follow s'.baseType)

theorem enclosing (name : String) : r.enclosing name = r'.enclosing name := by
  induction hn : name.length using Nat.strongRecOn generalizing name with
  | _ n ih =>
    rw [TypeResolver.enclosing, TypeResolver.enclosing]
    split
    · rfl
    · have hfound := h.find name
      simp only [bind_id]
      revert hfound
      cases r.find name with
      | none =>
        cases r'.find name with
        | none =>
          intro _
          rfl
        | some s' =>
          intro hfound
          cases hfound
      | some s =>
        cases r'.find name with
        | none =>
          intro hfound
          cases hfound
        | some s' =>
          intro hfound
          have hs : s.outside = s'.outside := Option.some.inj hfound
          have hkeyword : keyword s = keyword s' := (congrArg keyword hs :)
          have hlabel : s.nameWithTypeParameters = s'.nameWithTypeParameters :=
            congrArg (·.nameWithTypeParameters) hs
          have houter : s.containingType = s'.containingType := congrArg (·.containingType) hs
          simp only [hkeyword, hlabel, houter]
          cases hc : s'.containingType with
          | none => rfl
          | some outer =>
            by_cases hlt : outer.length < name.length
            · simp only [if_pos hlt, ih outer.length (by omega) outer rfl]
            · simp only [if_neg hlt]

end SameOutside
end TypeResolver

namespace Scan
variable {r r' : TypeResolver Id} (h : r.SameOutside r') (s : TypeSymbol)
include h

theorem derivesFromRoot_outside : derivesFromRoot r s = derivesFromRoot r' s := by
  show r.reachesRoot (r.size + 2) [] (r.follow s.baseType) =
    r'.reachesRoot (r'.size + 2) [] (r'.follow s.baseType)
  rw [h.size, h.reachesRoot _ _ (h.follow s.baseType)]

theorem singletonRecord_outside :
    singletonRecord s (r.baseOf s) = singletonRecord s (r'.baseOf s) := by
  have hbase : Option.any isSingleton (r.baseOf s) = Option.any isSingleton (r'.baseOf s) := by
    have hany (b : Option TypeSymbol) :
        b.any isSingleton = (b.map TypeSymbol.outside).any isSingleton := by cases b <;> rfl
    have hfound := congrArg (Option.any isSingleton) (h.follow s.baseType)
    exact (hany _).trans (hfound.trans (hany _).symm)
  rw [singletonRecord, singletonRecord, hbase]

theorem scannedAmong_outside : scannedAmong r s = scannedAmong r' s := by
  have hcontaining : r.containingDeclarations s = r'.containingDeclarations s := by
    show (r.enclosing _).reverse = (r'.enclosing _).reverse
    rw [h.enclosing]
  have hsingleton := singletonRecord_outside h s
  simp only [scannedAmong, derivesFromRoot_outside h]
  congr 1
  exact congrArg (fun record => if isSingleton s then some record else none) hsingleton

/-- Members of other types play no part in a scan. -/
theorem scanClass_outside : (scanClass r s).run = (scanClass r' s).run := by
  rw [scanClass_run, scanClass_run, scannedAmong_outside h, isOfInterest, isOfInterest,
    derivesFromRoot_outside h]

end Scan
end SceneCodegen
