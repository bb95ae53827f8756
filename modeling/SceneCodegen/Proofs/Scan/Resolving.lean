import SceneCodegen.Proofs.Graph.Heeding
import SceneCodegen.Scan.Scanner

/-!
# Scanning through a graph

Scans whose types are found by reading nodes: they are safe where finding types is, and look up only
the names that they come to along the bases and the enclosing types of the type they scan.
-/
namespace SceneCodegen
open SceneCodegen.Graph

variable {K : Type} {V : K → Type} {T : K → Prop} {Q : (k : K) → V k → Prop}
  {E : Failure K → Prop} {r : TypeResolver (Program K V)}

namespace TypeResolver

/-- Names of a set lead to types from which one comes to names of the set again. -/
structure Leads (r : TypeResolver (Program K V)) (T : K → Prop) (Q : (k : K) → V k → Prop)
    (E : Failure K → Prop) (next : TypeSymbol → Option String) (N : String → Prop)
    (D : TypeSymbol → Prop) : Prop where
  find : ∀ name, N name → (r.find name).Heeds T Q E fun x => ∀ s, x = some s → D s
  next : ∀ s, D s → ∀ name, next s = some name → N name

theorem leads_any (h : ∀ name, (r.find name).Heeds T Q E Anything)
    (next : TypeSymbol → Option String) : r.Leads T Q E next Anything Anything :=
  ⟨fun name _ => (h name).mono (fun _ h => h) (fun _ h => h) fun _ _ _ _ => trivial,
    fun _ _ _ _ => trivial⟩

section
variable {N : String → Prop} {D : TypeSymbol → Prop}

theorem baseOf_heeds (h : r.Leads T Q E (·.baseType) N D) {s : TypeSymbol} (hs : D s) :
    (r.baseOf s).Heeds T Q E fun x => ∀ b, x = some b → D b := by
  unfold baseOf
  cases hb : s.baseType with
  | none => exact .done (by simp)
  | some name =>
    simp only [follow]
    split
    · exact .done (by simp)
    · exact h.find name (h.next s hs name hb)

theorem reachesRoot_heeds (h : r.Leads T Q E (·.baseType) N D) (steps : Nat)
    (visited : List String) {s : Option TypeSymbol} (hs : ∀ x, s = some x → D x) :
    (r.reachesRoot steps visited s).Heeds T Q E Anything := by
  induction steps generalizing visited s with
  | zero => cases s <;> exact .done trivial
  | succ steps ih =>
    cases s with
    | none => exact .done trivial
    | some s =>
      simp only [reachesRoot]
      split
      · exact .done trivial
      · split
        · exact .done trivial
        · exact (baseOf_heeds h (hs s rfl)).bind fun base hbase => ih _ hbase

theorem enclosing_heeds (h : r.Leads T Q E (·.containingType) N D) {name : String}
    (hn : name ≠ "" → N name) : (r.enclosing name).Heeds T Q E Anything := by
  induction hlength : name.length using Nat.strongRecOn generalizing name with
  | _ n ih =>
    rw [enclosing]
    split
    · exact .done trivial
    · rename_i hne
      refine (h.find name (hn (by simpa using hne))).bind fun s hs => ?_
      cases s with
      | none => exact .done trivial
      | some s =>
        cases hc : s.containingType with
        | none =>
          simp only [hc]
          exact .done trivial
        | some outer =>
          have houter : N outer := h.next s (hs s rfl) outer hc
          simp only [hc]
          by_cases hlt : outer.length < name.length
          · rw [if_pos hlt]
            exact (ih outer.length (by omega) (fun _ => houter) rfl).bind fun _ _ => .done trivial
          · rw [if_neg hlt]
            exact .done trivial

theorem containingDeclarations_heeds (h : r.Leads T Q E (·.containingType) N D) {s : TypeSymbol}
    (hs : D s) : (r.containingDeclarations s).Heeds T Q E Anything := by
  refine (enclosing_heeds h fun hne => ?_).bind fun _ _ => .done trivial
  cases hc : s.containingType with
  | none => simp [hc] at hne
  | some name => exact h.next s hs name hc

end

end TypeResolver

namespace Scan

section
variable {m : Type → Type} [Monad m]

def isScanned (s : TypeSymbol) : Bool :=
  s.kind == .classType && s.assembly != TypeResolver.rootAssembly

def singletonOf (r : TypeResolver m) (s : TypeSymbol) : m (Option SingletonRecord) :=
  if isSingleton s then some <$> singletonRecord s <$> r.baseOf s else pure none

def membersOf (s : TypeSymbol) (derivesFromRoot : Bool) : List DeclaredMember :=
  (if isSingleton s then [singletonMember s] else []) ++ markedMembers s derivesFromRoot

def scanned (s : TypeSymbol) (derivesFromRoot : Bool) (singleton : Option SingletonRecord)
    (containingDeclarations : List (String × String)) : ScannedClass :=
  { qualifiedName := s.qualifiedName, name := s.name, nameSpace := s.nameSpace
    nameWithTypeParameters := s.nameWithTypeParameters, hintName := hintNameOf s.qualifiedName
    containingDeclarations, derivesFromRoot, members := membersOf s derivesFromRoot, singleton
    classRecord := if derivesFromRoot then some (classRecord s) else none }

/-- What is left of a scan once the bases are known. -/
def finish (r : TypeResolver m) (s : TypeSymbol) (derivesFromRoot : Bool)
    (singleton : Option SingletonRecord) : m (Option ScannedClass) :=
  if !derivesFromRoot && (membersOf s derivesFromRoot).isEmpty then pure none
  else do return some (scanned s derivesFromRoot singleton (← r.containingDeclarations s))

theorem scanClass_eq (r : TypeResolver m) (s : TypeSymbol) :
    scanClass r s =
      if isScanned s then do
        let derivesFromRoot ← r.inheritsFromRoot (← r.baseOf s)
        finish r s derivesFromRoot (← singletonOf r s)
      else pure none := by
  have hscanned : isScanned s =
      !(s.kind != .classType || s.assembly == TypeResolver.rootAssembly) := by
    simp [isScanned, bne]
  rw [hscanned, scanClass]
  cases s.kind != .classType || s.assembly == TypeResolver.rootAssembly with
  | true => rfl
  | false =>
    refine Eq.trans (if_neg (by decide)) (Eq.trans ?_ (if_pos rfl).symm)
    congr 1
    funext base
    congr 1
    funext derives
    show (if isSingleton s then
        (some <$> singletonRecord s <$> r.baseOf s) >>= finish r s derives
      else pure none >>= finish r s derives) = singletonOf r s >>= finish r s derives
    unfold singletonOf
    split <;> rfl

end

theorem scanClass_heeds {N N' : String → Prop} {D D' : TypeSymbol → Prop}
    (hb : r.Leads T Q E (·.baseType) N D) (hc : r.Leads T Q E (·.containingType) N' D')
    {s : TypeSymbol} (hs : D s) (hs' : D' s) : (scanClass r s).Heeds T Q E Anything := by
  rw [scanClass_eq]
  split
  · refine (TypeResolver.baseOf_heeds hb hs).bind fun base hbase => ?_
    refine (TypeResolver.reachesRoot_heeds hb _ [] hbase).bind fun derives _ => ?_
    have hsingleton : (singletonOf r s).Heeds T Q E Anything := by
      unfold singletonOf
      split
      · exact ((TypeResolver.baseOf_heeds hb hs).bind (R := Anything) fun _ _ => .done trivial).bind
          fun _ _ => .done trivial
      · exact .done trivial
    refine hsingleton.bind fun singleton _ => ?_
    unfold finish
    split
    · exact .done trivial
    · exact (TypeResolver.containingDeclarations_heeds hc hs').bind fun _ _ => .done trivial
  · exact .done trivial

end Scan
end SceneCodegen
