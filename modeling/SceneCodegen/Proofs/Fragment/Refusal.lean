import SceneCodegen.Fragment.Helper
import SceneCodegen.Proofs.Table

/-!
# Refused members

The members of a class are taken in one after another. A member is refused if it is an accessor for
a node that an accessor before it looks up, or an event without the suffix of events, and what is
reported of a class is reported of the first member that is refused.
-/
namespace SceneCodegen.Fragment

/-- The accessor among some members that looks up a node. -/
def accessorAt (members : List DeclaredMember) (path : String) : Option DeclaredMember :=
  members.find? fun m => m.kind == .accessor && m.nodePath == path

/-- A member is refused after others that were taken in. -/
inductive Refused (before : List DeclaredMember) (m : DeclaredMember) : Diagnostic → Prop
  | duplicate {previous : DeclaredMember} (hkind : m.kind = .accessor)
      (h : accessorAt before m.nodePath = some previous) :
      Refused before m (HelperState.duplicatePath previous m)
  | suffix (hkind : m.kind = .eventEmit) (h : signalName? m.name = none) :
      Refused before m (HelperState.missingSuffix m)

/-- None of some members is refused where they stand. -/
def Accepted (before members : List DeclaredMember) : Prop :=
  ∀ front m rest, members = front ++ m :: rest → ∀ d, ¬ Refused (before ++ front) m d

/-- What is reported of the first member that is refused. -/
def FirstRefused (members : List DeclaredMember) (d : Diagnostic) : Prop :=
  ∃ front m rest, members = front ++ m :: rest ∧ Accepted [] front ∧ Refused front m d

theorem Refused.id_eq {before : List DeclaredMember} {m : DeclaredMember} {d : Diagnostic}
    (h : Refused before m d) :
    d.id = Diagnostic.duplicateAccessorPath ∨ d.id = Diagnostic.signalNameSuffix := by
  cases h with
  | duplicate => exact .inl rfl
  | suffix => exact .inr rfl

theorem Accepted.cons {before members : List DeclaredMember} {m : DeclaredMember}
    (hm : ∀ d, ¬ Refused before m d) (h : Accepted (before ++ [m]) members) :
    Accepted before (m :: members) := by
  intro front m' rest he d
  cases front with
  | nil =>
    obtain ⟨rfl, -⟩ := List.cons.inj he
    rw [List.append_nil]
    exact hm d
  | cons x front =>
    obtain ⟨rfl, htail⟩ := List.cons.inj he
    have hlater := h front m' rest htail d
    rwa [List.append_assoc, List.singleton_append] at hlater

namespace HelperState

def addAccessor (m : DeclaredMember) (s : HelperState) : Except Diagnostic HelperState :=
  match s.membersByPath.get? m.nodePath with
  | some previous => .error (duplicatePath previous m)
  | none =>
    let s := { s with membersByPath := s.membersByPath.set m.nodePath m }
    .ok (if m.symbolKind == "property" then
        { s with propertyLines := s.propertyLines ++ [lookupStatement m] }
      else { s with fieldLines := s.fieldLines ++ [lookupStatement m] })

/-- What the standard handlers make of a state and one member, if they do not refuse the member. -/
def add (m : DeclaredMember) (s : HelperState) : Except Diagnostic HelperState :=
  match m.kind with
  | .accessor => s.addAccessor m
  | .remoteCall => .ok { s with wrapperLines := s.wrapperLines ++ remoteCallLines m }
  | .eventEmit =>
    match signalName? m.name with
    | none => .error (missingSuffix m)
    | some signal => .ok { s with wrapperLines := s.wrapperLines ++ eventLines m signal }
  | .singletonClass | .notifyField => .ok s

/-- Takes in members in order, up to the first that is refused. -/
def addAll (members : List DeclaredMember) (s : HelperState) : Except Diagnostic HelperState :=
  members.foldlM (fun s m => s.add m) s

/-- A handler takes a member in, or refuses it and leaves the state as it was. -/
theorem handle_run (m : DeclaredMember) (s : HelperState) :
    (EmitterRegistry.standard.handle m).run.run s =
      match s.add m with
      | .ok s' => (.ok (), s')
      | .error d => (.error d, s) := by
  unfold EmitterRegistry.handle HelperState.add
  cases hkind : m.kind with
  | accessor =>
    show (Handling.accessor m).run.run s = _
    have hrun : (Handling.accessor m).run.run s = match s.membersByPath.get? m.nodePath with
        | some previous => (.error (duplicatePath previous m), s)
        | none => (.ok (), if m.symbolKind == "property" then
            { s with
              membersByPath := s.membersByPath.set m.nodePath m
              propertyLines := s.propertyLines ++ [lookupStatement m] }
          else
            { s with
              membersByPath := s.membersByPath.set m.nodePath m
              fieldLines := s.fieldLines ++ [lookupStatement m] }) := by
      show ((match s.membersByPath.get? m.nodePath with
        | some previous => throw (duplicatePath previous m)
        | none => _ : Handling Unit).run.run s) = _
      cases s.membersByPath.get? m.nodePath with
      | some previous => rfl
      | none => cases m.symbolKind == "property" <;> rfl
    rw [hrun, addAccessor]
    cases s.membersByPath.get? m.nodePath <;> rfl
  | remoteCall => rfl
  | eventEmit =>
    show (Handling.event m).run.run s = _
    unfold Handling.event
    cases signalName? m.name <;> rfl
  | singletonClass | notifyField => rfl

theorem forM_handle_run (members : List DeclaredMember) (s : HelperState) :
    (match (members.forM fun m => EmitterRegistry.standard.handle m).run.run s with
      | (.error d, _) => .error d
      | (.ok (), s) => .ok s) = s.addAll members := by
  induction members generalizing s with
  | nil => rfl
  | cons m members ih =>
    have hstep : ((m :: members).forM fun m => EmitterRegistry.standard.handle m).run.run s =
        match (EmitterRegistry.standard.handle m).run.run s with
        | (.ok (), s) => (members.forM fun m => EmitterRegistry.standard.handle m).run.run s
        | (.error d, s) => (.error d, s) := by
      show (EmitterRegistry.standard.handle m >>= fun _ => _).run.run s = _
      rw [ExceptT.run_bind, StateT.run_bind]
      rcases (EmitterRegistry.standard.handle m).run.run s with ⟨⟨⟩ | ⟨⟩, s⟩ <;> rfl
    rw [hstep, handle_run, addAll, List.foldlM_cons]
    cases s.add m with
    | ok s => exact ih s
    | error d => rfl

/-- The accessors taken in are known by the nodes they look up. -/
def Knows (s : HelperState) (before : List DeclaredMember) : Prop :=
  ∀ path, s.membersByPath.get? path = accessorAt before path

theorem accessorAt_concat (before : List DeclaredMember) (m : DeclaredMember) (path : String) :
    accessorAt (before ++ [m]) path = (accessorAt before path).or
      (if m.kind == .accessor && m.nodePath == path then some m else none) := by
  rw [accessorAt, accessorAt, List.find?_append]
  congr 1
  rw [List.find?_singleton]

section
variable {s : HelperState} {before : List DeclaredMember} (h : s.Knows before)
include h

theorem Knows.add {m : DeclaredMember} {s' : HelperState} (hadd : s.add m = .ok s') :
    s'.Knows (before ++ [m]) := by
  have hother (hkind : m.kind ≠ .accessor) (hpaths : s'.membersByPath = s.membersByPath) :
      s'.Knows (before ++ [m]) := by
    intro path
    rw [accessorAt_concat, hpaths, h path]
    simp [hkind]
  unfold HelperState.add at hadd
  cases hkind : m.kind with
  | accessor =>
    simp only [hkind, addAccessor, h m.nodePath] at hadd
    cases hat : accessorAt before m.nodePath with
    | some previous => simp [hat] at hadd
    | none =>
      simp only [hat] at hadd
      obtain rfl := Except.ok.inj hadd
      intro path
      have hpaths : (if m.symbolKind == "property" then
          { s with
            membersByPath := s.membersByPath.set m.nodePath m
            propertyLines := s.propertyLines ++ [lookupStatement m] }
        else
          { s with
            membersByPath := s.membersByPath.set m.nodePath m
            fieldLines := s.fieldLines ++ [lookupStatement m] }).membersByPath =
          s.membersByPath.set m.nodePath m := by split <;> rfl
      rw [accessorAt_concat, hkind]
      refine (congrArg (Table.get? path) hpaths).trans ?_
      by_cases hpath : m.nodePath = path
      · subst hpath
        rw [Table.get?_set_self, hat]
        simp
      · rw [Table.get?_set_of_ne hpath, h path]
        simp [hpath]
  | remoteCall =>
    simp only [hkind] at hadd
    obtain rfl := Except.ok.inj hadd
    exact hother (by simp [hkind]) rfl
  | eventEmit =>
    simp only [hkind] at hadd
    cases hsignal : signalName? m.name with
    | none => simp [hsignal] at hadd
    | some signal =>
      simp only [hsignal] at hadd
      obtain rfl := Except.ok.inj hadd
      exact hother (by simp [hkind]) rfl
  | singletonClass =>
    simp only [hkind] at hadd
    obtain rfl := Except.ok.inj hadd
    exact hother (by simp [hkind]) rfl
  | notifyField =>
    simp only [hkind] at hadd
    obtain rfl := Except.ok.inj hadd
    exact hother (by simp [hkind]) rfl

theorem Knows.add_error {m : DeclaredMember} {d : Diagnostic} :
    s.add m = .error d ↔ Refused before m d := by
  constructor
  · intro hadd
    unfold HelperState.add at hadd
    cases hkind : m.kind with
    | accessor =>
      simp only [hkind, addAccessor, h m.nodePath] at hadd
      cases hat : accessorAt before m.nodePath with
      | some previous =>
        simp only [hat] at hadd
        obtain rfl := Except.error.inj hadd
        exact .duplicate hkind hat
      | none => simp [hat] at hadd
    | eventEmit =>
      simp only [hkind] at hadd
      cases hsignal : signalName? m.name with
      | none =>
        simp only [hsignal] at hadd
        obtain rfl := Except.error.inj hadd
        exact .suffix hkind hsignal
      | some signal => simp [hsignal] at hadd
    | _ => simp [hkind] at hadd
  · rintro (⟨hkind, hat⟩ | ⟨hkind, hsignal⟩)
    · simp only [HelperState.add, hkind, addAccessor, h m.nodePath, hat]
    · simp only [HelperState.add, hkind, hsignal]

end

/-- After members that were taken in, the others are, or the first of them that is refused is
reported. -/
theorem Knows.addAll {s : HelperState} {before : List DeclaredMember} (h : s.Knows before)
    (members : List DeclaredMember) :
    (∃ s', s.addAll members = .ok s' ∧ Accepted before members) ∨
    ∃ d front m rest, s.addAll members = .error d ∧ members = front ++ m :: rest ∧
      Accepted before front ∧ Refused (before ++ front) m d := by
  induction members generalizing s before with
  | nil => exact .inl ⟨s, rfl, fun front m rest he => by simp at he⟩
  | cons m members ih =>
    have hstep : s.addAll (m :: members) = (s.add m).bind fun s' => s'.addAll members := by
      rw [HelperState.addAll, List.foldlM_cons]
      rfl
    rw [hstep]
    cases hadd : s.add m with
    | error d =>
      refine .inr ⟨d, [], m, members, rfl, rfl, fun front m rest he => by simp at he, ?_⟩
      rw [List.append_nil]
      exact h.add_error.mp hadd
    | ok s' =>
      have hm (d : Diagnostic) : ¬ Refused before m d := fun hrefused => by
        rw [h.add_error.mpr hrefused] at hadd
        cases hadd
      rcases ih (h.add hadd) with ⟨s'', hall, hnone⟩ | ⟨d, front, m', rest, hall, rfl, hnone, hd⟩
      · exact .inl ⟨s'', hall, hnone.cons hm⟩
      · refine .inr ⟨d, m :: front, m', rest, hall, rfl, hnone.cons hm, ?_⟩
        rwa [List.append_assoc, List.singleton_append] at hd

end HelperState

/-- A class is rendered from the state that takes in all its members. -/
theorem renderHelpers_eq (c : ScannedClass) : renderHelpers c =
    if c.derivesFromRoot then do
      let s ← ({} : HelperState).addAll c.members
      return if s.isEmpty then none
        else some (ofLines (c.hintName ++ "_GodotHelper.g.cs") (helperLines c s))
    else .ok none := by
  rw [renderHelpers, ← HelperState.forM_handle_run]
  congr 1
  rcases (c.members.forM fun m => EmitterRegistry.standard.handle m).run.run {} with
    ⟨⟨⟩ | ⟨⟩, s⟩ <;> rfl

/-- The rendering of a class fails with what is reported of the first member that is refused. -/
theorem renderHelpers_eq_error {cls : ScannedClass} {d : Diagnostic}
    (h : renderHelpers cls = .error d) : cls.derivesFromRoot ∧ FirstRefused cls.members d := by
  rw [renderHelpers_eq] at h
  split at h
  · rename_i hderives
    have hknows : ({} : HelperState).Knows [] := fun _ => rfl
    refine ⟨hderives, ?_⟩
    rcases hknows.addAll cls.members with
      ⟨s, hall, -⟩ | ⟨d', front, m, rest, hall, hsplit, hnone, hd⟩
    · simp [hall, bind, Except.bind, pure, Except.pure] at h
    · obtain rfl : d' = d := by simpa [hall, bind, Except.bind] using h
      exact ⟨front, m, rest, hsplit, hnone, hd⟩
  · cases h

end SceneCodegen.Fragment
