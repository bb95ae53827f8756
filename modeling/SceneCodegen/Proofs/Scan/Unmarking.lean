import SceneCodegen.Fragment.Notify
import SceneCodegen.Proofs.Fragment.Refusal
import SceneCodegen.Proofs.Scan.Outsides
import SceneCodegen.Proofs.Scan.Seen

/-!
# Types without marked helpers

If the markers of accessors, remote calls and signals are taken from the members of a type, nothing
that could be refused is scanned of it, and all else that is scanned of it stays.
-/
namespace SceneCodegen
namespace Scan

def helperMarkers : List String := [accessorMarker, remoteCallMarker, eventSignalMarker]

def unmarkedMember (m : Symbol.Member) : Symbol.Member :=
  { m with markers := m.markers.filter fun marker => !helperMarkers.contains marker.name }

def unmarked (s : TypeSymbol) : TypeSymbol := { s with members := s.members.map unmarkedMember }

def isNoHelper (m : DeclaredMember) : Bool := m.kind == .singletonClass || m.kind == .notifyField

section
variable (owner : TypeSymbol) (m : Symbol.Member)

theorem hasMarker_unmarked {name : String} (h : name ∈ helperMarkers) :
    Symbol.hasMarker name (unmarkedMember m).markers = false := by
  rw [Symbol.hasMarker, List.any_eq_false]
  intro marker hmarker hname
  obtain rfl : marker.name = name := eq_of_beq hname
  have hkept := (List.mem_filter.mp hmarker).2
  rw [List.contains_iff_mem.mpr h] at hkept
  cases hkept

theorem findMarker?_unmarked {name : String} (h : name ∉ helperMarkers) :
    Symbol.findMarker? name (unmarkedMember m).markers = Symbol.findMarker? name m.markers := by
  unfold Symbol.findMarker?
  show (m.markers.filter _).find? _ = _
  rw [List.find?_filter]
  congr 1
  funext marker
  by_cases hname : marker.name = name
  · simp [hname, h]
  · simp [hname]

theorem rootMember?_unmarked : rootMember? (unmarked owner) (unmarkedMember m) = none := by
  have hnone : Symbol.findMarker? accessorMarker (unmarkedMember m).markers = none := by
    have haccessor : accessorMarker ∈ helperMarkers := by decide
    have hmarker := hasMarker_unmarked m haccessor
    rw [Symbol.hasMarker, List.any_eq_false] at hmarker
    exact List.find?_eq_none.mpr hmarker
  have hcall : Symbol.hasMarker remoteCallMarker (unmarkedMember m).markers = false :=
    hasMarker_unmarked m (by decide)
  have hsignal : Symbol.hasMarker eventSignalMarker (unmarkedMember m).markers = false :=
    hasMarker_unmarked m (by decide)
  simp [rootMember?, hnone, hcall, hsignal]

theorem notifyField?_unmarked :
    notifyField? (unmarked owner) (unmarkedMember m) = notifyField? owner m := by
  have hnotify : notifyMarker ∉ helperMarkers := by decide
  have hmarker := findMarker?_unmarked m hnotify
  unfold notifyField?
  rw [hmarker]
  rfl

theorem isNoHelper_notifyField? {x : DeclaredMember} (h : notifyField? owner m = some x) :
    isNoHelper x := by
  rw [notifyField?_eq, Option.ite_none_right_eq_some] at h
  obtain ⟨marker, -, rfl⟩ := Option.map_eq_some_iff.mp h.2
  rfl

theorem isNoHelper_rootMember? {x : DeclaredMember} (h : rootMember? owner m = some x) :
    isNoHelper x = false := by
  unfold rootMember? at h
  split at h
  · obtain ⟨marker, -, rfl⟩ := Option.map_eq_some_iff.mp h
    rfl
  · split at h
    · split at h
      · cases h
        rfl
      · cases h
    · split at h
      · cases h
        rfl
      · cases h

theorem markedMembersOf_unmarked (derivesFromRoot : Bool) :
    markedMembersOf (unmarked owner) derivesFromRoot (unmarkedMember m) =
      (markedMembersOf owner derivesFromRoot m).filter isNoHelper := by
  have hstatic : (unmarkedMember m).isStatic = m.isStatic := rfl
  have hnotify :
      (notifyField? owner m).toList.filter isNoHelper = (notifyField? owner m).toList := by
    refine List.filter_eq_self.mpr fun x hx => ?_
    exact isNoHelper_notifyField? owner m (Option.mem_toList.mp hx)
  have hroot : (rootMember? owner m).toList.filter isNoHelper = [] := by
    refine List.filter_eq_nil_iff.mpr fun x hx => ?_
    rw [isNoHelper_rootMember? owner m (Option.mem_toList.mp hx)]
    exact Bool.false_ne_true
  unfold markedMembersOf
  rw [hstatic, notifyField?_unmarked, rootMember?_unmarked]
  cases m.isStatic with
  | true => rfl
  | false => cases derivesFromRoot <;> simp [hnotify, hroot]

end

theorem membersOf_unmarked (s : TypeSymbol) (derivesFromRoot : Bool) :
    membersOf (unmarked s) derivesFromRoot = (membersOf s derivesFromRoot).filter isNoHelper := by
  have hsingleton : (if isSingleton s then [singletonMember s] else []).filter isNoHelper =
      if isSingleton s then [singletonMember s] else [] := by
    cases isSingleton s <;> rfl
  have hmembers : markedMembers (unmarked s) derivesFromRoot =
      (markedMembers s derivesFromRoot).filter isNoHelper := by
    show (s.members.map unmarkedMember).flatMap _ = _
    rw [markedMembers, List.flatMap_map, List.filter_flatMap]
    congr 1
    funext m
    exact markedMembersOf_unmarked s m derivesFromRoot
  show (if isSingleton s then [singletonMember s] else []) ++ _ = _
  rw [membersOf, List.filter_append, hsingleton, hmembers]

theorem classRecord_unmarked (s : TypeSymbol) : classRecord (unmarked s) = classRecord s := by
  have hmethods : methods (s.members.map unmarkedMember) = methods s.members := by
    unfold methods
    rw [List.foldl_map]
    rfl
  show { classRecord s with methods := methods (s.members.map unmarkedMember) } = classRecord s
  rw [hmethods]
  rfl

end Scan

def ScannedClass.withoutHelpers (cls : ScannedClass) : ScannedClass :=
  { cls with members := cls.members.filter Scan.isNoHelper }

namespace Scan

/-- Of an unmarked type all is scanned but its helpers. -/
theorem scannedAmong_unmarked (r : TypeResolver Id) (s : TypeSymbol) :
    scannedAmong r (unmarked s) = (scannedAmong r s).withoutHelpers := by
  have hsame : scannedAmong r (unmarked s) =
      { scannedAmong r s with
        members := membersOf (unmarked s) (derivesFromRoot r s)
        classRecord :=
          if derivesFromRoot r s then some (classRecord (unmarked s)) else none } := rfl
  rw [hsame, membersOf_unmarked, classRecord_unmarked]
  rfl

end Scan

namespace ScannedClass
variable (cls : ScannedClass)

theorem membersOf_withoutHelpers {kind : MarkedKind}
    (h : kind = .singletonClass ∨ kind = .notifyField) :
    cls.withoutHelpers.membersOf kind = cls.membersOf kind := by
  show (cls.members.filter Scan.isNoHelper).filter _ = _
  rw [List.filter_filter, membersOf]
  refine List.filter_congr fun m _ => ?_
  rcases h with rfl | rfl
  all_goals
    unfold Scan.isNoHelper
    cases m.kind <;> rfl

theorem renderNotify_withoutHelpers :
    Fragment.renderNotify cls.withoutHelpers = Fragment.renderNotify cls := by
  have hmembers : cls.withoutHelpers.membersOf .notifyField = cls.membersOf .notifyField :=
    cls.membersOf_withoutHelpers (.inr rfl)
  unfold Fragment.renderNotify
  rw [hmembers]
  rfl

/-- Nothing is refused of a class without helpers, and nothing is made of it. -/
theorem renderHelpers_withoutHelpers : Fragment.renderHelpers cls.withoutHelpers = .ok none := by
  have hadd (s : Fragment.HelperState) {members : List DeclaredMember}
      (h : ∀ m ∈ members, Scan.isNoHelper m) : s.addAll members = .ok s := by
    induction members with
    | nil => rfl
    | cons m members ih =>
      obtain ⟨hm, hmembers⟩ := List.forall_mem_cons.mp h
      have hstep : s.add m = .ok s := by
        unfold Scan.isNoHelper at hm
        unfold Fragment.HelperState.add
        cases hkind : m.kind <;> simp_all
      rw [Fragment.HelperState.addAll, List.foldlM_cons, hstep]
      exact ih hmembers
  have hall : ({} : Fragment.HelperState).addAll cls.withoutHelpers.members = .ok {} :=
    hadd {} fun m hm => (List.mem_filter.mp hm).2
  rw [Fragment.renderHelpers_eq, hall]
  split <;> rfl

end ScannedClass
end SceneCodegen
