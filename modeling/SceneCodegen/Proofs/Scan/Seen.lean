import SceneCodegen.Proofs.Json.Equality
import SceneCodegen.Proofs.Scan.Resolving

/-!
# What scans see

Of the arguments of a marker a scan sees only what its kind of marker asks for. Where paths
are given as plain values, declarations that count as the same are seen as one, and so are
scanned classes.
-/
namespace SceneCodegen

theorem map_eq_of_same {α β : Type} [BEq α] {f : α → β} {xs ys : List α} (h : xs == ys)
    (hf : ∀ x ∈ xs, ∀ y ∈ ys, x == y → f x = f y) : xs.map f = ys.map f := by
  induction xs generalizing ys with
  | nil =>
    cases ys with
    | nil => rfl
    | cons y ys => cases h
  | cons x xs ih =>
    cases ys with
    | nil => cases h
    | cons y ys =>
      simp only [List.cons_beq_cons, Bool.and_eq_true] at h
      rw [List.map_cons, List.map_cons, hf x List.mem_cons_self y List.mem_cons_self h.1,
        ih h.2 fun x hx y hy => hf x (List.mem_cons_of_mem _ hx) y (List.mem_cons_of_mem _ hy)]

namespace Symbol

theorem getElem?_same {xs ys : List Json} (h : xs == ys) (i : Nat) : (xs[i]? == ys[i]?) = true := by
  induction xs generalizing ys i with
  | nil =>
    cases ys with
    | nil => rfl
    | cons y ys => cases h
  | cons x xs ih =>
    cases ys with
    | nil => cases h
    | cons y ys =>
      simp only [List.cons_beq_cons, Bool.and_eq_true] at h
      cases i with
      | zero => exact h.1
      | succ i => exact ih h.2 i

theorem lookup_same {xs ys : List (String × Json)} (h : xs == ys) (name : String) :
    (xs.lookup name == ys.lookup name) = true := by
  induction xs generalizing ys with
  | nil =>
    cases ys with
    | nil => rfl
    | cons y ys => cases h
  | cons x xs ih =>
    cases ys with
    | nil => cases h
    | cons y ys =>
      rcases x with ⟨n, x⟩
      rcases y with ⟨n', y⟩
      simp only [List.cons_beq_cons, Bool.and_eq_true] at h
      obtain ⟨hn, hx⟩ := (Bool.and_eq_true _ _).mp h.1
      obtain rfl : n = n' := eq_of_beq hn
      simp only [List.lookup_cons]
      cases name == n with
      | true => exact hx
      | false => exact ih h.2

namespace Marker
variable {m m' : Marker}

theorem beq_iff : (m == m') = true ↔ m.name = m'.name ∧ m.args == m'.args ∧
    m.namedArgs == m'.namedArgs := by
  cases m
  cases m'
  simp [BEq.beq, instBEqMarker.beq]

theorem argument_same (h : m == m') (place : Nat) (key : String) {default : Json}
    (hd : (default == default) = true) :
    m.argument place key default == m'.argument place key default := by
  obtain ⟨-, ha, hn⟩ := beq_iff.mp h
  have ha := getElem?_same ha place
  have hn : ((m.named? key).getD default == (m'.named? key).getD default) = true := by
    have hn := lookup_same hn key
    unfold named?
    generalize m.namedArgs.lookup key = x at hn
    generalize m'.namedArgs.lookup key = y at hn
    cases x with
    | none =>
      cases y with
      | none => exact hd
      | some y => cases hn
    | some x =>
      cases y with
      | none => cases hn
      | some y => exact hn
  unfold argument
  generalize m.args[place]? = x at ha
  generalize m'.args[place]? = y at ha
  cases x with
  | none =>
    cases y with
    | none => exact hn
    | some y => cases ha
  | some x =>
    cases y with
    | none => cases ha
    | some y =>
      have hnull := Json.eq_null_iff_of_same ha
      by_cases hx : x = .null
      · rw [hx, hnull.mp hx]
        exact hn
      · have hy : y ≠ .null := fun h => hx (hnull.mpr h)
        simpa [hx, hy] using ha

end Marker

theorem Member.beq_iff {m m' : Member} : (m == m') = true ↔
    m.kind = m'.kind ∧ m.name = m'.name ∧ m.type = m'.type ∧ m.isStatic = m'.isStatic ∧
      m.isImplicit = m'.isImplicit ∧ m.methodKind = m'.methodKind ∧ m.parameters = m'.parameters ∧
      m.markers == m'.markers ∧ m.location = m'.location := by
  cases m
  cases m'
  show instBEqMember.beq _ _ = true ↔ _
  simp only [instBEqMember.beq, Bool.and_eq_true, beq_iff_eq]

theorem Declaration.beq_iff {d d' : Declaration} : (d == d') = true ↔
    d.name = d'.name ∧ d.nameSpace = d'.nameSpace ∧ d.containingType = d'.containingType ∧
      d.assembly = d'.assembly ∧ d.kind = d'.kind ∧ d.typeParameters = d'.typeParameters ∧
      d.baseType = d'.baseType ∧ d.markers == d'.markers ∧ d.members == d'.members ∧
      d.location = d'.location := by
  cases d
  cases d'
  show instBEqDeclaration.beq _ _ = true ↔ _
  simp only [instBEqDeclaration.beq, Bool.and_eq_true, beq_iff_eq]

end Symbol

theorem TypeSymbol.beq_iff {s s' : TypeSymbol} : (s == s') = true ↔
    s.toDeclaration == s'.toDeclaration ∧ s.sourcePaths = s'.sourcePaths := by
  cases s
  cases s'
  show instBEqTypeSymbol.beq _ _ = true ↔ _
  simp only [instBEqTypeSymbol.beq, Bool.and_eq_true, beq_iff_eq]

namespace Scan
open Symbol

/-- An accessor marker gives its path as a plain value. -/
def PlainMarker (m : Marker) : Prop :=
  m.name = accessorMarker → (m.argument 0 "path" (.text "")).IsPlain

def PlainMember (m : Member) : Prop := ∀ marker ∈ m.markers, PlainMarker marker

def PlainType (s : TypeSymbol) : Prop := ∀ m ∈ s.members, PlainMember m

def PlainTable (t : SymbolTable) : Prop := ∀ name s, (name, s) ∈ t → PlainType s

def seenMarker (m : Marker) : Marker :=
  { name := m.name
    args :=
      if m.name = accessorMarker then accessorArgs m
      else if m.name = notifyMarker then notifyArgs m
      else [] }

def seenMember (m : Member) : Member := { m with markers := m.markers.map seenMarker }

/-- A declared type with only those arguments of markers that scans look at. -/
def seen (s : TypeSymbol) : TypeSymbol :=
  { s with
    markers := s.markers.map fun m => { name := m.name }
    members := s.members.map seenMember }

theorem accessorArgs_seenMarker {m : Marker} (h : m.name = accessorMarker) :
    accessorArgs (seenMarker m) = accessorArgs m := by
  have hseen : seenMarker m = { name := m.name, args := accessorArgs m } := by
    simp only [seenMarker, if_pos h]
  rw [hseen]
  unfold accessorArgs
  generalize m.argument 0 "path" (.text "") = path
  by_cases ht : path.isTruthy
  · have hpath : Marker.argument 0 "path" (.text "")
        { name := m.name, args := [path, .bool (m.argument 1 "notNull" (.bool true)).isTruthy] } =
          path := by
      cases path with
      | null => cases ht
      | _ => rfl
    simp only [if_pos ht, hpath]
    rfl
  · simp only [if_neg ht]
    rfl

theorem notifyArgs_seenMarker {m : Marker} (h : m.name = notifyMarker) :
    notifyArgs (seenMarker m) = notifyArgs m := by
  have hne : m.name ≠ accessorMarker := by rw [h]; decide
  have hseen : seenMarker m = { name := m.name, args := notifyArgs m } := by
    simp only [seenMarker, if_neg hne, if_pos h]
  rw [hseen]
  rfl

theorem findMarker?_seen (name : String) (markers : List Marker) :
    findMarker? name (markers.map seenMarker) = (findMarker? name markers).map seenMarker := by
  unfold findMarker?
  rw [List.find?_map]
  rfl

theorem hasMarker_map {f : Marker → Marker} (hf : ∀ m, (f m).name = m.name) (name : String)
    (markers : List Marker) : hasMarker name (markers.map f) = hasMarker name markers := by
  simp only [hasMarker, List.any_map, Function.comp_def, hf]

theorem hasMarker_seenMarker (name : String) (markers : List Marker) :
    hasMarker name (markers.map seenMarker) = hasMarker name markers :=
  hasMarker_map (f := seenMarker) (fun _ => rfl) name markers

theorem name_of_findMarker? {name : String} {markers : List Marker} {m : Marker}
    (h : findMarker? name markers = some m) : m.name = name := by
  have hfound := List.find?_some h
  exact eq_of_beq hfound

theorem notifyField?_eq (owner : TypeSymbol) (m : Member) :
    notifyField? owner m =
      if m.kind == .field && !m.isImplicit then
        (findMarker? notifyMarker m.markers).map fun marker =>
          declaredMember .notifyField owner m (notifyArgs marker)
      else none := by
  unfold notifyField?
  cases m.kind == .field && !m.isImplicit with
  | false => rfl
  | true => cases findMarker? notifyMarker m.markers <;> rfl

theorem notifyField?_seen (owner : TypeSymbol) (m : Member) :
    notifyField? (seen owner) (seenMember m) = notifyField? owner m := by
  have hmarker : (findMarker? notifyMarker (seenMember m).markers).map (fun marker =>
      declaredMember .notifyField (seen owner) (seenMember m) (notifyArgs marker)) =
      (findMarker? notifyMarker m.markers).map fun marker =>
        declaredMember .notifyField owner m (notifyArgs marker) := by
    show (findMarker? notifyMarker (m.markers.map seenMarker)).map (fun marker =>
      declaredMember .notifyField owner m (notifyArgs marker)) = _
    rw [findMarker?_seen]
    cases h : findMarker? notifyMarker m.markers with
    | none => rfl
    | some marker =>
      rw [Option.map_some, Option.map_some, notifyArgs_seenMarker (name_of_findMarker? h)]
      rfl
  rw [notifyField?_eq, notifyField?_eq, hmarker]
  rfl

theorem rootMember?_seen (owner : TypeSymbol) (m : Member) :
    rootMember? (seen owner) (seenMember m) = rootMember? owner m := by
  have hmarker : (findMarker? accessorMarker (seenMember m).markers).map (fun marker =>
      declaredMember .accessor (seen owner) (seenMember m) (accessorArgs marker)) =
      (findMarker? accessorMarker m.markers).map fun marker =>
        declaredMember .accessor owner m (accessorArgs marker) := by
    show (findMarker? accessorMarker (m.markers.map seenMarker)).map (fun marker =>
      declaredMember .accessor owner m (accessorArgs marker)) = _
    rw [findMarker?_seen]
    cases h : findMarker? accessorMarker m.markers with
    | none => rfl
    | some marker =>
      rw [Option.map_some, Option.map_some, accessorArgs_seenMarker (name_of_findMarker? h)]
      rfl
  unfold rootMember?
  rw [hmarker]
  show (if (m.kind == .field || m.kind == .property) && !m.isImplicit then _
    else if isOrdinaryMethod m then
      if hasMarker remoteCallMarker (m.markers.map seenMarker) then
        some (declaredMember .remoteCall owner m)
      else none
    else if m.kind == .delegate && hasMarker eventSignalMarker (m.markers.map seenMarker) then
      some (declaredMember .eventEmit owner m)
    else none) = _
  rw [hasMarker_seenMarker, hasMarker_seenMarker]

theorem markedMembers_seen (s : TypeSymbol) (derivesFromRoot : Bool) :
    markedMembers (seen s) derivesFromRoot = markedMembers s derivesFromRoot := by
  show (s.members.map seenMember).flatMap (markedMembersOf (seen s) derivesFromRoot) = _
  rw [List.flatMap_map]
  unfold markedMembers
  congr 1
  funext m
  unfold markedMembersOf
  rw [notifyField?_seen, rootMember?_seen]
  rfl

theorem isSingleton_seen (s : TypeSymbol) : isSingleton (seen s) = isSingleton s :=
  hasMarker_map (f := fun m => { name := m.name }) (fun _ => rfl) _ _

theorem singletonRecord_seen (s : TypeSymbol) (base : Option TypeSymbol) :
    singletonRecord (seen s) (base.map seen) = singletonRecord s base := by
  have hbase : (base.map seen).any isSingleton = base.any isSingleton := by
    cases base with
    | none => rfl
    | some b => exact isSingleton_seen b
  unfold singletonRecord
  rw [hbase]
  rfl

theorem classRecord_seen (s : TypeSymbol) : classRecord (seen s) = classRecord s := by
  have hmethods : methods (s.members.map seenMember) = methods s.members := by
    unfold methods
    rw [List.foldl_map]
    rfl
  show { classRecord s with methods := methods (s.members.map seenMember) } = classRecord s
  rw [hmethods]
  rfl

theorem membersOf_seen (s : TypeSymbol) (derivesFromRoot : Bool) :
    membersOf (seen s) derivesFromRoot = membersOf s derivesFromRoot := by
  unfold membersOf
  rw [isSingleton_seen, markedMembers_seen]
  rfl

theorem scanned_seen (s : TypeSymbol) (derivesFromRoot : Bool) (singleton : Option SingletonRecord)
    (around : List (String × String)) :
    scanned (seen s) derivesFromRoot singleton around =
      scanned s derivesFromRoot singleton around := by
  unfold scanned
  rw [membersOf_seen, classRecord_seen]
  rfl

theorem isTruthy_argument {m m' : Marker} (h : m == m') (place : Nat) (key : String) (b : Bool) :
    (m.argument place key (.bool b)).isTruthy = (m'.argument place key (.bool b)).isTruthy := by
  have hb : (Json.bool b == Json.bool b) = true := by cases b <;> rfl
  exact Json.isTruthy_of_same (Marker.argument_same h place key hb)

theorem accessorArgs_eq {m m' : Marker} (hm : PlainMarker m) (hm' : PlainMarker m')
    (hname : m.name = accessorMarker) (h : m == m') : accessorArgs m = accessorArgs m' := by
  have hpath : m.argument 0 "path" (.text "") = m'.argument 0 "path" (.text "") :=
    Json.eq_of_same (hm hname) (hm' ((Marker.beq_iff.mp h).1 ▸ hname))
      (Marker.argument_same h 0 "path" rfl)
  have hnull := isTruthy_argument h 1 "notNull" true
  simp only [accessorArgs, hpath, hnull]

theorem notifyArgs_eq {m m' : Marker} (h : m == m') : notifyArgs m = notifyArgs m' := by
  have hsignal := isTruthy_argument h 0 "useSignal" false
  have hexport := isTruthy_argument h 1 "useExport" false
  simp only [notifyArgs, hsignal, hexport]

theorem seenMarker_eq {m m' : Marker} (hm : PlainMarker m) (hm' : PlainMarker m') (h : m == m') :
    seenMarker m = seenMarker m' := by
  have hname := (Marker.beq_iff.mp h).1
  unfold seenMarker
  rw [hname]
  split
  · rename_i ha
    rw [accessorArgs_eq hm hm' (hname.trans ha) h]
  · rw [notifyArgs_eq h]

theorem seenMember_eq {m m' : Member} (hm : PlainMember m) (hm' : PlainMember m') (h : m == m') :
    seenMember m = seenMember m' := by
  obtain ⟨hkind, hname, htype, hstatic, himplicit, hmethod, hparameters, hmarkers, hlocation⟩ :=
    Member.beq_iff.mp h
  have hseen := map_eq_of_same hmarkers fun x hx y hy => seenMarker_eq (hm x hx) (hm' y hy)
  unfold seenMember
  rw [hseen, hkind, hname, htype, hstatic, himplicit, hmethod, hparameters, hlocation]

/-- Plain types that count as the same are seen as one. -/
theorem seen_eq {s s' : TypeSymbol} (hs : PlainType s) (hs' : PlainType s') (h : s == s') :
    seen s = seen s' := by
  obtain ⟨hd, hpaths⟩ := TypeSymbol.beq_iff.mp h
  obtain ⟨hname, hspace, houter, hassembly, hkind, hparameters, hbase, hmarkers, hmembers,
    hlocation⟩ := Declaration.beq_iff.mp hd
  have hmarkers := map_eq_of_same (f := fun m : Marker => ({ name := m.name } : Marker)) hmarkers
    fun x _ y _ hxy => by rw [(Marker.beq_iff.mp hxy).1]
  have hmembers := map_eq_of_same hmembers fun x hx y hy => seenMember_eq (hs x hx) (hs' y hy)
  unfold seen
  rw [hmarkers, hmembers, hname, hspace, houter, hassembly, hkind, hparameters, hbase, hlocation,
    hpaths]

end Scan

namespace DeclaredMember

def IsPlain (m : DeclaredMember) : Prop := ∀ a ∈ m.markerArgs, a.IsPlain

theorem beq_iff {m m' : DeclaredMember} : (m == m') = true ↔
    m.kind = m'.kind ∧ m.owner = m'.owner ∧ m.name = m'.name ∧ m.type = m'.type ∧
      m.markerArgs == m'.markerArgs ∧ m.symbolKind = m'.symbolKind ∧
      m.parameters = m'.parameters ∧ m.location = m'.location := by
  cases m
  cases m'
  show instBEqDeclaredMember.beq _ _ = true ↔ _
  simp only [instBEqDeclaredMember.beq, Bool.and_eq_true, beq_iff_eq]

theorem eq_of_same {m m' : DeclaredMember} (hm : m.IsPlain) (hm' : m'.IsPlain) (h : m == m') :
    m = m' := by
  obtain ⟨hkind, howner, hname, htype, hargs, hsymbol, hparameters, hlocation⟩ := beq_iff.mp h
  have hargs := map_eq_of_same (f := id) hargs fun x hx y hy => Json.eq_of_same (hm x hx) (hm' y hy)
  rw [List.map_id, List.map_id] at hargs
  cases m
  cases m'
  simp_all

end DeclaredMember

namespace ScannedClass

def IsPlain (c : ScannedClass) : Prop := ∀ m ∈ c.members, m.IsPlain

theorem beq_iff {c c' : ScannedClass} : (c == c') = true ↔
    c.qualifiedName = c'.qualifiedName ∧ c.name = c'.name ∧ c.nameSpace = c'.nameSpace ∧
      c.nameWithTypeParameters = c'.nameWithTypeParameters ∧ c.hintName = c'.hintName ∧
      c.containingDeclarations = c'.containingDeclarations ∧
      c.derivesFromRoot = c'.derivesFromRoot ∧ c.members == c'.members ∧
      c.singleton = c'.singleton ∧ c.classRecord = c'.classRecord := by
  cases c
  cases c'
  show instBEqScannedClass.beq _ _ = true ↔ _
  simp only [instBEqScannedClass.beq, Bool.and_eq_true, beq_iff_eq]

theorem eq_of_same {c c' : ScannedClass} (hc : c.IsPlain) (hc' : c'.IsPlain) (h : c == c') :
    c = c' := by
  obtain ⟨hqualified, hname, hspace, hparameters, hhint, haround, hroot, hmembers, hsingleton,
    hrecord⟩ := beq_iff.mp h
  have hmembers := map_eq_of_same (f := id) hmembers fun x hx y hy =>
    DeclaredMember.eq_of_same (hc x hx) (hc' y hy)
  rw [List.map_id, List.map_id] at hmembers
  cases c
  cases c'
  simp_all

end ScannedClass

namespace Scan
open Symbol

theorem accessorArgs_plain {m : Marker} (hm : PlainMarker m) (hname : m.name = accessorMarker)
    {a : Json} (ha : a ∈ accessorArgs m) : a.IsPlain := by
  simp only [accessorArgs, List.mem_cons, List.not_mem_nil, or_false] at ha
  rcases ha with rfl | rfl
  · split
    · exact hm hname
    · trivial
  · trivial

theorem notifyArgs_plain {m : Marker} {a : Json} (ha : a ∈ notifyArgs m) : a.IsPlain := by
  simp only [notifyArgs, List.mem_cons, List.not_mem_nil, or_false] at ha
  rcases ha with rfl | rfl
  · trivial
  · trivial

theorem markedMembersOf_plain {m : Member} (hm : PlainMember m) (owner : TypeSymbol)
    (derivesFromRoot : Bool) {d : DeclaredMember}
    (hd : d ∈ markedMembersOf owner derivesFromRoot m) : d.IsPlain := by
  have hmarker {name : String} {marker : Marker}
      (h : findMarker? name m.markers = some marker) : PlainMarker marker :=
    hm marker (List.mem_of_find?_eq_some h)
  have hnotify (h : notifyField? owner m = some d) : d.IsPlain := by
    rw [notifyField?_eq] at h
    split at h
    · obtain ⟨marker, -, rfl⟩ := Option.map_eq_some_iff.mp h
      exact fun a ha => notifyArgs_plain ha
    · cases h
  have hroot (h : rootMember? owner m = some d) : d.IsPlain := by
    unfold rootMember? at h
    split at h
    · obtain ⟨marker, hfound, rfl⟩ := Option.map_eq_some_iff.mp h
      exact fun a ha => accessorArgs_plain (hmarker hfound) (name_of_findMarker? hfound) ha
    · split at h
      · split at h
        · cases h
          nofun
        · cases h
      · split at h
        · cases h
          nofun
        · cases h
  unfold markedMembersOf at hd
  split at hd
  · cases hd
  · rcases List.mem_append.mp hd with hd | hd
    · exact hnotify (Option.mem_toList.mp hd)
    · split at hd
      · exact hroot (Option.mem_toList.mp hd)
      · cases hd

theorem scanned_plain {s : TypeSymbol} (hs : PlainType s) (derivesFromRoot : Bool)
    (singleton : Option SingletonRecord) (around : List (String × String)) :
    (scanned s derivesFromRoot singleton around).IsPlain := by
  intro d hd
  rcases List.mem_append.mp (show d ∈ membersOf s derivesFromRoot from hd) with hd | hd
  · split at hd
    · obtain rfl := List.mem_singleton.mp hd
      nofun
    · cases hd
  · obtain ⟨m, hm, hd⟩ := List.mem_flatMap.mp hd
    exact markedMembersOf_plain (hs m hm) s derivesFromRoot hd

end Scan
end SceneCodegen
