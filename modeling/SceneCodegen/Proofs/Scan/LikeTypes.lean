import SceneCodegen.Proofs.Graph.Likeness
import SceneCodegen.Proofs.Scan.Seen

/-!
# Like types

Scans that find like types in like places come to the same class.
-/
namespace SceneCodegen
open SceneCodegen.Graph

/-- Types that are plain and seen as one. -/
inductive LikeTypes : Option TypeSymbol → Option TypeSymbol → Prop
  | none : LikeTypes none none
  | some {s s' : TypeSymbol} (hs : Scan.PlainType s) (hs' : Scan.PlainType s')
      (h : Scan.seen s = Scan.seen s') : LikeTypes (some s) (some s')

namespace LikeTypes
variable {a b c : Option TypeSymbol}

theorem symm (h : LikeTypes a b) : LikeTypes b a := by
  cases h with
  | none => exact .none
  | some hs hs' h => exact .some hs' hs h.symm

theorem trans (h : LikeTypes a b) (h' : LikeTypes b c) : LikeTypes a c := by
  cases h with
  | none => exact h'
  | some hs _ h =>
    cases h' with
    | some _ ht h' => exact .some hs ht (h.trans h')

theorem plain {s : TypeSymbol} (h : LikeTypes (Option.some s) b) : Scan.PlainType s := by
  cases h with
  | some hs _ _ => exact hs

end LikeTypes

/-- Scans that came to one class of plain values. -/
def SameScan (c c' : Option ScannedClass) : Prop := c = c' ∧ ∀ x, c = some x → x.IsPlain

variable {K : Type} {V : K → Type} {L : Likeness K V} {E : Failure K → Failure K → Prop}
  {r : TypeResolver (Program K V)}

namespace TypeResolver

section
variable (hr : ∀ name, (r.find name).Alike L E LikeTypes (r.find name))
include hr

theorem follow_alike (name : Option String) :
    (r.follow name).Alike L E LikeTypes (r.follow name) := by
  cases name with
  | none => exact .done .none
  | some name =>
    simp only [follow]
    split
    · exact .done .none
    · exact hr name

theorem reachesRoot_alike (steps : Nat) (visited : List String) {s s' : Option TypeSymbol}
    (h : LikeTypes s s') :
    (r.reachesRoot steps visited s).Alike L E Eq (r.reachesRoot steps visited s') := by
  induction steps generalizing visited s s' with
  | zero => cases h <;> exact .done rfl
  | succ steps ih =>
    cases h with
    | none => exact .done rfl
    | @some s s' hs hs' h =>
      have hroot : isRoot s = isRoot s' := (congrArg isRoot h :)
      have hname : s.lookupName = s'.lookupName := congrArg (·.lookupName) h
      have hbase : s.baseType = s'.baseType := congrArg (·.baseType) h
      simp only [reachesRoot, baseOf, hroot, hname, hbase]
      split
      · exact .done rfl
      · split
        · exact .done rfl
        · exact (follow_alike hr s'.baseType).bind fun _ _ hab => ih _ hab

theorem enclosing_alike (name : String) : (r.enclosing name).Alike L E Eq (r.enclosing name) := by
  induction hn : name.length using Nat.strongRecOn generalizing name with
  | _ n ih =>
    rw [enclosing]
    split
    · exact .done rfl
    · refine (hr name).bind fun a b hab => ?_
      cases hab with
      | none => exact .done rfl
      | @some s s' hs hs' h =>
        have hkeyword : keyword s = keyword s' := (congrArg keyword h :)
        have hlabel : s.nameWithTypeParameters = s'.nameWithTypeParameters :=
          congrArg (·.nameWithTypeParameters) h
        have houter : s.containingType = s'.containingType := congrArg (·.containingType) h
        simp only [hkeyword, hlabel, houter]
        cases hc : s'.containingType with
        | none => exact .done rfl
        | some outer =>
          by_cases hlt : outer.length < name.length
          · simp only [if_pos hlt]
            exact (ih outer.length (by omega) outer rfl).bind fun _ _ hab => .done (by rw [hab])
          · simp only [if_neg hlt]
            exact .done rfl

theorem containingDeclarations_alike {s s' : TypeSymbol}
    (h : s.containingType = s'.containingType) :
    (r.containingDeclarations s).Alike L E Eq (r.containingDeclarations s') := by
  unfold containingDeclarations
  rw [h]
  exact (enclosing_alike hr _).bind fun _ _ hab => .done (by rw [hab])

end

end TypeResolver

namespace Scan
variable (hr : ∀ name, (r.find name).Alike L E LikeTypes (r.find name))
  {s s' : TypeSymbol} (h : seen s = seen s')
include hr h

theorem singletonOf_alike : (singletonOf r s).Alike L E Eq (singletonOf r s') := by
  have hsingleton : isSingleton s = isSingleton s' := by
    rw [← isSingleton_seen s, h, isSingleton_seen]
  have hbase : r.baseOf s = r.baseOf s' := (congrArg r.baseOf h :)
  unfold singletonOf
  rw [hsingleton, hbase]
  split
  · refine ((TypeResolver.follow_alike hr s'.baseType).bind (S := Eq) fun a b hab => .done ?_).bind
      fun a b hab => .done (by rw [hab])
    rw [← singletonRecord_seen s a, ← singletonRecord_seen s' b, h]
    cases hab with
    | none => rfl
    | some _ _ hab => rw [Option.map_some, Option.map_some, hab]
  · exact .done rfl

theorem finish_alike (hs : PlainType s) (derivesFromRoot : Bool)
    (singleton : Option SingletonRecord) :
    (finish r s derivesFromRoot singleton).Alike L E SameScan
      (finish r s' derivesFromRoot singleton) := by
  have hmembers : membersOf s derivesFromRoot = membersOf s' derivesFromRoot := by
    rw [← membersOf_seen s, h, membersOf_seen]
  unfold finish
  rw [hmembers]
  split
  · exact .done ⟨rfl, nofun⟩
  · refine (TypeResolver.containingDeclarations_alike hr (congrArg (·.containingType) h)).bind
      fun a b hab => .done ⟨?_, ?_⟩
    · rw [hab, ← scanned_seen s, h, scanned_seen]
    · intro c hc
      cases hc
      exact scanned_plain hs derivesFromRoot singleton a

theorem scanClass_alike (hs : PlainType s) :
    (scanClass r s).Alike L E SameScan (scanClass r s') := by
  have hscanned : isScanned s = isScanned s' := (congrArg isScanned h :)
  have hbase : r.baseOf s = r.baseOf s' := (congrArg r.baseOf h :)
  rw [scanClass_eq, scanClass_eq, hscanned, hbase]
  split
  · refine (TypeResolver.follow_alike hr s'.baseType).bind fun a b hab => ?_
    refine (TypeResolver.reachesRoot_alike hr _ [] hab).bind fun derives derives' hd => ?_
    refine (singletonOf_alike hr h).bind fun singleton singleton' hsingle => ?_
    rw [hd, hsingle]
    exact finish_alike hr h hs derives' singleton'
  · exact .done ⟨rfl, nofun⟩

end Scan
end SceneCodegen
