import SceneCodegen.Proofs.Graph.Valuation
import SceneCodegen.Proofs.Scan.Resolving

/-!
# Scanning among known types

A scan through a graph comes to what the same scan comes to among the types that the nodes hold. Of
the types it comes upon around the scanned one, it makes no use of their members.
-/
namespace SceneCodegen
open SceneCodegen.Graph

theorem bind_id {α β : Type} (x : Id α) (f : α → Id β) : x >>= f = f x := rfl

section
variable {K : Type} {V : K → Type} {value : (k : K) → V k} {r : TypeResolver (Program K V)}
  {known : TypeResolver Id}

namespace TypeResolver

/-- The types that are found through a graph are those known. -/
structure Knows (value : (k : K) → V k) (r : TypeResolver (Program K V)) (known : TypeResolver Id) :
    Prop where
  find : ∀ name, (r.find name).ComesTo value (known.find name)
  size : r.size = known.size

variable (h : Knows value r known)
include h

theorem Knows.follow (name : Option String) :
    (r.follow name).ComesTo value (known.follow name) := by
  cases name with
  | none => exact .done none
  | some name =>
    simp only [TypeResolver.follow]
    split
    · exact .done none
    · exact h.find name

theorem Knows.reachesRoot (steps : Nat) (visited : List String) (s : Option TypeSymbol) :
    (r.reachesRoot steps visited s).ComesTo value (known.reachesRoot steps visited s) := by
  induction steps generalizing visited s with
  | zero => cases s <;> exact .done false
  | succ steps ih =>
    cases s with
    | none => exact .done false
    | some s =>
      simp only [TypeResolver.reachesRoot]
      split
      · exact .done true
      · split
        · exact .done false
        · exact (h.follow s.baseType).bind (ih _ _)

theorem Knows.enclosing (name : String) :
    (r.enclosing name).ComesTo value (known.enclosing name) := by
  induction hn : name.length using Nat.strongRecOn generalizing name with
  | _ n ih =>
    rw [TypeResolver.enclosing, TypeResolver.enclosing]
    split
    · exact .done []
    · refine (h.find name).bind ?_
      simp only [bind_id]
      cases known.find name with
      | none => exact .done _
      | some s =>
        cases hc : s.containingType with
        | none =>
          simp only [hc]
          exact .done _
        | some outer =>
          simp only [hc]
          by_cases hlt : outer.length < name.length
          · rw [if_pos hlt, if_pos hlt]
            exact (ih outer.length (by omega) outer rfl).bind (.done _)
          · rw [if_neg hlt, if_neg hlt]
            exact .done _

end TypeResolver

namespace TypeResolver.Knows
variable (h : Knows value r known)
include h

theorem finish (s : TypeSymbol) (derivesFromRoot : Bool) (singleton : Option SingletonRecord) :
    (Scan.finish r s derivesFromRoot singleton).ComesTo value
      (Scan.finish known s derivesFromRoot singleton) := by
  unfold Scan.finish
  split
  · exact .done none
  · have hcontaining :
        (r.containingDeclarations s).ComesTo value (known.containingDeclarations s) :=
      (h.enclosing _).map List.reverse
    exact hcontaining.map fun around => some (Scan.scanned s derivesFromRoot singleton around)

/-- Reading types through a graph leads a scan to what knowing them does. -/
theorem scanClass (s : TypeSymbol) :
    (Scan.scanClass r s).ComesTo value (Scan.scanClass known s).run := by
  rw [Scan.scanClass_eq, Scan.scanClass_eq]
  split
  · have hbase := h.follow s.baseType
    have hroot : (r.inheritsFromRoot (known.baseOf s)).ComesTo value
        (known.inheritsFromRoot (known.baseOf s)) := by
      rw [inheritsFromRoot, inheritsFromRoot, h.size]
      exact h.reachesRoot _ _ _
    have hsingleton : (Scan.singletonOf r s).ComesTo value (Scan.singletonOf known s) := by
      unfold Scan.singletonOf
      split
      · exact (hbase.map (Scan.singletonRecord s)).map some
      · exact .done none
    exact hbase.bind (hroot.bind (hsingleton.bind (h.finish s _ _)))
  · exact .done none

end TypeResolver.Knows
end

namespace Scan
variable (known : TypeResolver Id) (s : TypeSymbol)

def derivesFromRoot : Bool := (known.inheritsFromRoot (known.baseOf s).run).run

/-- What is scanned of a type that is of interest. -/
def scannedAmong : ScannedClass :=
  scanned s (derivesFromRoot known s)
    (if isSingleton s then some (singletonRecord s (known.baseOf s).run) else none)
    (known.containingDeclarations s).run

/-- Whether code can come of a type. -/
def isOfInterest : Bool :=
  isScanned s && (derivesFromRoot known s || !(membersOf s (derivesFromRoot known s)).isEmpty)

theorem scanClass_run : (scanClass known s).run =
    if isOfInterest known s then some (scannedAmong known s) else none := by
  rw [scanClass_eq, isOfInterest]
  cases isScanned s with
  | false => rfl
  | true =>
    have hsingleton : singletonOf known s =
        if isSingleton s then some (singletonRecord s (known.baseOf s).run) else none := by
      unfold singletonOf
      split <;> rfl
    show finish known s (derivesFromRoot known s) (singletonOf known s) = _
    rw [hsingleton, finish, scannedAmong, Bool.true_and]
    generalize derivesFromRoot known s = derives
    cases derives with
    | true => rfl
    | false => cases (membersOf s false).isEmpty <;> rfl

/-- A marked class has a record of its names. -/
theorem scannedAmong_singleton {r : SingletonRecord} :
    (scannedAmong known s).singleton = some r ↔
      isSingleton s ∧ r = singletonRecord s (known.baseOf s).run := by
  show (if isSingleton s then some _ else none) = some r ↔ _
  rw [Option.ite_none_right_eq_some, Option.some.injEq, eq_comm (a := r)]

/-- A class that derives from the root has a record of its methods. -/
theorem scannedAmong_classRecord {r : ClassRecord} :
    (scannedAmong known s).classRecord = some r ↔ derivesFromRoot known s ∧ r = classRecord s := by
  show (if derivesFromRoot known s then some (classRecord s) else none) = some r ↔ _
  rw [Option.ite_none_right_eq_some, Option.some.injEq, eq_comm (a := r)]

end Scan
end SceneCodegen
