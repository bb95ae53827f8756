import SceneCodegen.Proofs.Fragment.Refusal

/-!
# Handling members one after another

Handlers of members work on the state of a class step by step, and what a handler did before it
refuses a member stays done. As none does anything before it refuses, the state after any members
is made from those that were taken in, in their order, and shows nothing of those that were refused.
-/
namespace SceneCodegen.Fragment

/-- The signal of a delegate is what stands before the suffix. -/
theorem signalName?_eq_some {delegate signal : String} :
    signalName? delegate = some signal ↔ signal ≠ "" ∧ delegate = signal ++ eventSuffix := by
  have hends : Text.hasSuffix eventSuffix delegate = true ↔
      ∃ front, delegate = front ++ eventSuffix := by
    rw [Text.hasSuffix, List.isSuffixOf_iff_suffix]
    constructor
    · rintro ⟨front, hfront⟩
      refine ⟨String.ofList front, String.toList_injective ?_⟩
      rw [String.toList_append, String.toList_ofList, hfront]
    · rintro ⟨front, rfl⟩
      exact ⟨front.toList, (String.toList_append ..).symm⟩
  have hdrop (front : String) : Text.dropSuffix eventSuffix (front ++ eventSuffix) = front := by
    rw [Text.dropSuffix, String.toList_append, List.length_append, Nat.add_sub_cancel,
      List.take_left', String.ofList_toList]
    rfl
  have hfilled (front : String) : front ++ eventSuffix ≠ eventSuffix ↔ front ≠ "" := by
    rw [not_iff_not, ← String.toList_inj, ← String.toList_inj]
    simp
  rw [signalName?, Option.ite_none_right_eq_some, Bool.and_eq_true, bne_iff_ne, hends,
    Option.some.injEq]
  constructor
  · rintro ⟨⟨⟨front, rfl⟩, hne⟩, rfl⟩
    rw [hdrop]
    exact ⟨(hfilled front).mp hne, rfl⟩
  · rintro ⟨hne, rfl⟩
    exact ⟨⟨⟨signal, rfl⟩, (hfilled signal).mpr hne⟩, hdrop signal⟩

namespace HelperState

def accessorsOf (members : List DeclaredMember) : List DeclaredMember :=
  members.filter (·.kind == .accessor)

/-- The wrappers that a member has when it is taken in. -/
def wrappersOf (m : DeclaredMember) : List String :=
  match m.kind with
  | .remoteCall => remoteCallLines m
  | .eventEmit => ((signalName? m.name).map (eventLines m)).getD []
  | .accessor | .singletonClass | .notifyField => []

/-- A state is what some members that were taken in leave, in their order. -/
structure Shows (s : HelperState) (taken : List DeclaredMember) : Prop where
  membersByPath : s.membersByPath = (accessorsOf taken).map fun m => (m.nodePath, m)
  nodup_paths : ((accessorsOf taken).map (·.nodePath)).Nodup
  fieldLines : s.fieldLines =
    ((accessorsOf taken).filter (·.symbolKind != "property")).map lookupStatement
  propertyLines : s.propertyLines =
    ((accessorsOf taken).filter (·.symbolKind == "property")).map lookupStatement
  wrapperLines : s.wrapperLines = taken.flatMap wrappersOf
  signals : ∀ m ∈ taken, m.kind = .eventEmit →
    ∃ signal ≠ "", m.name = signal ++ eventSuffix ∧ wrappersOf m = eventLines m signal

theorem get?_accessorsOf (members : List DeclaredMember) (path : String) :
    Table.get? path ((accessorsOf members).map fun m => (m.nodePath, m)) =
      accessorAt members path := by
  induction members with
  | nil => rfl
  | cons m members ih =>
    by_cases hkind : m.kind = .accessor
    · have hcons : accessorsOf (m :: members) = m :: accessorsOf members :=
        List.filter_cons_of_pos (by simp [hkind])
      rw [hcons, List.map_cons, Table.get?, accessorAt, List.find?_cons, hkind]
      cases m.nodePath == path
      · exact ih
      · rfl
    · have hcons : accessorsOf (m :: members) = accessorsOf members :=
        List.filter_cons_of_neg (by simp [hkind])
      rw [hcons, accessorAt, List.find?_cons_of_neg (by simp [hkind])]
      exact ih

theorem accessorsOf_concat (members : List DeclaredMember) (m : DeclaredMember) :
    accessorsOf (members ++ [m]) =
      accessorsOf members ++ if m.kind = .accessor then [m] else [] := by
  by_cases hkind : m.kind = .accessor <;> simp [accessorsOf, hkind]

namespace Shows
variable {s : HelperState} {taken : List DeclaredMember}

theorem empty : Shows {} [] where
  membersByPath := rfl
  nodup_paths := List.nodup_nil
  fieldLines := rfl
  propertyLines := rfl
  wrapperLines := rfl
  signals _ hm := absurd hm List.not_mem_nil

theorem knows (h : s.Shows taken) : s.Knows taken := fun path => by
  rw [h.membersByPath]
  exact get?_accessorsOf taken path

/-- A member that is no accessor adds to the wrappers only. -/
theorem wrapped (h : s.Shows taken) {m : DeclaredMember} (hkind : m.kind ≠ .accessor)
    (hsignal : m.kind = .eventEmit →
      ∃ signal ≠ "", m.name = signal ++ eventSuffix ∧ wrappersOf m = eventLines m signal) :
    Shows { s with wrapperLines := s.wrapperLines ++ wrappersOf m } (taken ++ [m]) := by
  have haccessors : accessorsOf (taken ++ [m]) = accessorsOf taken := by
    rw [accessorsOf_concat, if_neg hkind, List.append_nil]
  refine ⟨?_, ?_, ?_, ?_, ?_, ?_⟩
  · rw [haccessors]
    exact h.membersByPath
  · rw [haccessors]
    exact h.nodup_paths
  · rw [haccessors]
    exact h.fieldLines
  · rw [haccessors]
    exact h.propertyLines
  · simp [h.wrapperLines]
  · intro m' hm' hkind'
    rcases List.mem_append.mp hm' with hm' | hm'
    · exact h.signals m' hm' hkind'
    · obtain rfl := List.mem_singleton.mp hm'
      exact hsignal hkind'

/-- An accessor for a node that none looks up yet adds its path and one statement. -/
theorem looked (h : s.Shows taken) {m : DeclaredMember} (hkind : m.kind = .accessor)
    (hnew : s.membersByPath.get? m.nodePath = none) {s' : HelperState}
    (hadd : s.addAccessor m = .ok s') : s'.Shows (taken ++ [m]) := by
  have haccessors : accessorsOf (taken ++ [m]) = accessorsOf taken ++ [m] := by
    rw [accessorsOf_concat, if_pos hkind]
  have hfresh : m.nodePath ∉ (accessorsOf taken).map (·.nodePath) := by
    simp only [Table.get?_eq_none_iff, h.membersByPath, Table.keys, List.map_map,
      Function.comp_def] at hnew
    exact hnew
  have hset : s.membersByPath.set m.nodePath m =
      (accessorsOf taken ++ [m]).map fun m => (m.nodePath, m) := by
    rw [Table.set_of_get?_eq_none hnew, h.membersByPath, List.map_append, List.map_singleton]
  have hnodup : ((accessorsOf taken ++ [m]).map (·.nodePath)).Nodup := by
    have hadded := Table.nodup_added m.nodePath h.nodup_paths
    rwa [if_neg hfresh, ← List.map_singleton (f := fun m : DeclaredMember => m.nodePath),
      ← List.map_append] at hadded
  have hwrappers : s.wrapperLines = (taken ++ [m]).flatMap wrappersOf := by
    simp [h.wrapperLines, wrappersOf, hkind]
  have hsignals : ∀ m' ∈ taken ++ [m], m'.kind = .eventEmit →
      ∃ signal ≠ "", m'.name = signal ++ eventSuffix ∧ wrappersOf m' = eventLines m' signal := by
    intro m' hm' hkind'
    rcases List.mem_append.mp hm' with hm' | hm'
    · exact h.signals m' hm' hkind'
    · obtain rfl := List.mem_singleton.mp hm'
      rw [hkind] at hkind'
      cases hkind'
  rw [addAccessor, hnew] at hadd
  obtain rfl := Except.ok.inj hadd
  -- The statement goes to the list that the kind of declaration tells.
  by_cases hproperty : m.symbolKind = "property"
  · simp only [hproperty, beq_self_eq_true, if_true]
    refine ⟨haccessors ▸ hset, haccessors ▸ hnodup, ?_, ?_, hwrappers, hsignals⟩
    · simp [haccessors, hproperty, h.fieldLines]
    · simp [haccessors, hproperty, h.propertyLines]
  · simp only [beq_iff_eq, hproperty, if_false]
    refine ⟨haccessors ▸ hset, haccessors ▸ hnodup, ?_, ?_, hwrappers, hsignals⟩
    · simp [haccessors, hproperty, h.fieldLines]
    · simp [haccessors, hproperty, h.propertyLines]

/-- Taking in one more member. -/
theorem add (h : s.Shows taken) {m : DeclaredMember} {s' : HelperState} (hadd : s.add m = .ok s') :
    s'.Shows (taken ++ [m]) := by
  unfold HelperState.add at hadd
  cases hkind : m.kind with
  | accessor =>
    simp only [hkind] at hadd
    cases hknown : s.membersByPath.get? m.nodePath with
    | none => exact h.looked hkind hknown hadd
    | some previous => simp [addAccessor, hknown] at hadd
  | remoteCall =>
    simp only [hkind] at hadd
    obtain rfl := Except.ok.inj hadd
    have hwrapped := h.wrapped (m := m) (by simp [hkind]) (by simp [hkind])
    rwa [wrappersOf, hkind] at hwrapped
  | eventEmit =>
    simp only [hkind] at hadd
    cases hsignal : signalName? m.name with
    | none => simp [hsignal] at hadd
    | some signal =>
      simp only [hsignal] at hadd
      obtain rfl := Except.ok.inj hadd
      have hlines : wrappersOf m = eventLines m signal := by simp [wrappersOf, hkind, hsignal]
      obtain ⟨hne, hname⟩ := signalName?_eq_some.mp hsignal
      rw [← hlines]
      exact h.wrapped (by simp [hkind]) fun _ => ⟨signal, hne, hname, hlines⟩
  | singletonClass | notifyField =>
    simp only [hkind] at hadd
    obtain rfl := Except.ok.inj hadd
    have hwrapped := h.wrapped (m := m) (by simp [hkind]) (by simp [hkind])
    rwa [wrappersOf, hkind, List.append_nil] at hwrapped

theorem hasAccessors_iff (h : s.Shows taken) :
    s.hasAccessors = true ↔ ∃ m ∈ taken, m.kind = .accessor := by
  have hmem (m : DeclaredMember) : m ∈ accessorsOf taken ↔ m ∈ taken ∧ m.kind = .accessor := by
    rw [accessorsOf, List.mem_filter, beq_iff_eq]
  have hlines : s.hasAccessors = true ↔ s.fieldLines ≠ [] ∨ s.propertyLines ≠ [] := by
    simp [hasAccessors]
  rw [hlines, h.fieldLines, h.propertyLines, Ne, Ne, List.map_eq_nil_iff, List.map_eq_nil_iff,
    List.filter_eq_nil_iff, List.filter_eq_nil_iff]
  simp only [hmem]
  constructor
  · rintro (hfield | hproperty)
    · push Not at hfield
      obtain ⟨m, hm, -⟩ := hfield
      exact ⟨m, hm⟩
    · push Not at hproperty
      obtain ⟨m, hm, -⟩ := hproperty
      exact ⟨m, hm⟩
  · rintro ⟨m, hm⟩
    by_cases hkind : m.symbolKind = "property"
    · exact .inr fun hnone => hnone m hm (by simp [hkind])
    · exact .inl fun hnone => hnone m hm (by simp [hkind])

/-- A state is empty if no member that has a statement or wrappers was taken in. -/
theorem isEmpty_iff (h : s.Shows taken) : s.isEmpty = true ↔
    ∀ m ∈ taken, m.kind ≠ .accessor ∧ m.kind ≠ .remoteCall ∧ m.kind ≠ .eventEmit := by
  have haccessors : s.hasAccessors = false ↔ ∀ m ∈ taken, m.kind ≠ .accessor := by
    rw [← Bool.not_eq_true, h.hasAccessors_iff]
    push Not
    rfl
  have hwrappers : s.wrapperLines = [] ↔
      ∀ m ∈ taken, m.kind ≠ .remoteCall ∧ m.kind ≠ .eventEmit := by
    rw [h.wrapperLines, List.flatMap_eq_nil_iff]
    refine forall₂_congr fun m hm => ?_
    cases hkind : m.kind with
    | remoteCall => simp [wrappersOf, hkind, remoteCallLines, wrapper]
    | eventEmit =>
      obtain ⟨signal, -, -, hlines⟩ := h.signals m hm hkind
      simp [hlines, eventLines, wrapper]
    | accessor | singletonClass | notifyField => simp [wrappersOf, hkind]
  have hempty : s.isEmpty = true ↔ s.hasAccessors = false ∧ s.wrapperLines = [] := by
    simp [isEmpty]
  rw [hempty, haccessors, hwrappers, ← forall₂_and]

theorem addAll (h : s.Shows taken) {members : List DeclaredMember} {s' : HelperState}
    (hall : s.addAll members = .ok s') : s'.Shows (taken ++ members) := by
  induction members generalizing s taken with
  | nil =>
    cases hall
    rwa [List.append_nil]
  | cons m members ih =>
    rw [HelperState.addAll, List.foldlM_cons] at hall
    cases hm : s.add m with
    | error d => simp [hm, bind, Except.bind] at hall
    | ok next =>
      rw [hm] at hall
      rw [List.append_cons]
      exact ih (h.add hm) hall

end Shows

/-- Handles members one after another, those after a refused one too. Every member is listed with
the diagnostic it was refused with. -/
def handleEach (members : List DeclaredMember) :
    List (DeclaredMember × Option Diagnostic) × HelperState :=
  members.foldl (fun (outcomes, s) m =>
    match (EmitterRegistry.standard.handle m).run.run s with
    | (.ok (), s) => (outcomes ++ [(m, none)], s)
    | (.error d, s) => (outcomes ++ [(m, some d)], s)) ([], {})

def accepted (outcomes : List (DeclaredMember × Option Diagnostic)) : List DeclaredMember :=
  (outcomes.filter (·.2.isNone)).map Prod.fst

/-- Handling one more member refuses it and keeps the state, or takes it in. -/
theorem handleEach_concat (members : List DeclaredMember) (m : DeclaredMember) :
    handleEach (members ++ [m]) =
      match (handleEach members).2.add m with
      | .ok s => ((handleEach members).1 ++ [(m, none)], s)
      | .error d => ((handleEach members).1 ++ [(m, some d)], (handleEach members).2) := by
  conv_lhs => rw [handleEach, List.foldl_append, List.foldl_cons, List.foldl_nil, ← handleEach]
  obtain ⟨outcomes, s⟩ := handleEach members
  simp only [handle_run]
  cases s.add m <;> rfl

theorem accepted_concat (outcomes : List (DeclaredMember × Option Diagnostic)) (m : DeclaredMember)
    (refusal : Option Diagnostic) : accepted (outcomes ++ [(m, refusal)]) =
      accepted outcomes ++ if refusal.isNone then [m] else [] := by
  cases refusal <;> simp [accepted]

/-- After any members, the state shows those that were not refused. -/
theorem handleEach_shows (members : List DeclaredMember) :
    (handleEach members).2.Shows (accepted (handleEach members).1) := by
  induction members using List.reverseRecOn with
  | nil => exact .empty
  | append_singleton members m ih =>
    rw [handleEach_concat]
    cases hadd : (handleEach members).2.add m with
    | ok s =>
      rw [accepted_concat]
      exact ih.add hadd
    | error d =>
      rw [accepted_concat]
      simpa using ih

theorem handleEach_members (members : List DeclaredMember) :
    (handleEach members).1.map Prod.fst = members := by
  induction members using List.reverseRecOn with
  | nil => rfl
  | append_singleton members m ih =>
    rw [handleEach_concat]
    cases (handleEach members).2.add m <;> simp [ih]

/-- What a member is refused with, if it is, after those that were taken in. -/
structure Answers (taken : List DeclaredMember) (m : DeclaredMember)
    (refusal : Option Diagnostic) : Prop where
  refused : ∀ d, refusal = some d ↔ Refused taken m d
  duplicate : (∃ d, refusal = some d ∧ d.id = Diagnostic.duplicateAccessorPath) ↔
    m.kind = .accessor ∧
      ∃ previous ∈ taken, previous.kind = .accessor ∧ previous.nodePath = m.nodePath
  suffix : (∃ d, refusal = some d ∧ d.id = Diagnostic.signalNameSuffix) ↔
    m.kind = .eventEmit ∧ ¬ ∃ signal ≠ "", m.name = signal ++ eventSuffix
  other : ∀ d, refusal = some d →
    d.id = Diagnostic.duplicateAccessorPath ∨ d.id = Diagnostic.signalNameSuffix

theorem Answers.of_refused {taken : List DeclaredMember} {m : DeclaredMember}
    {refusal : Option Diagnostic} (h : ∀ d, refusal = some d ↔ Refused taken m d) :
    Answers taken m refusal where
  refused := h
  duplicate := by
    simp only [h]
    constructor
    · rintro ⟨d, ⟨hkind, hat⟩ | ⟨-, -⟩, hid⟩
      · have hfound := List.find?_some hat
        simp only [Bool.and_eq_true, beq_iff_eq] at hfound
        exact ⟨hkind, _, List.mem_of_find?_eq_some hat, hfound⟩
      · exact absurd (show Diagnostic.signalNameSuffix = _ from hid) (by decide)
    · rintro ⟨hkind, previous, hmem, hprevious, hpath⟩
      obtain ⟨first, hat⟩ : ∃ first, accessorAt taken m.nodePath = some first := by
        rw [← Option.isSome_iff_exists, accessorAt, List.find?_isSome]
        exact ⟨previous, hmem, by simp [hprevious, hpath]⟩
      exact ⟨_, .duplicate hkind hat, rfl⟩
  suffix := by
    have hnone : signalName? m.name = none ↔ ¬ ∃ signal ≠ "", m.name = signal ++ eventSuffix := by
      simp only [Option.eq_none_iff_forall_ne_some, ne_eq, signalName?_eq_some, not_exists]
    rw [← hnone]
    simp only [h]
    constructor
    · rintro ⟨d, ⟨-, -⟩ | ⟨hkind, hsignal⟩, hid⟩
      · exact absurd (show Diagnostic.duplicateAccessorPath = _ from hid) (by decide)
      · exact ⟨hkind, hsignal⟩
    · rintro ⟨hkind, hsignal⟩
      exact ⟨_, .suffix hkind hsignal, rfl⟩
  other d hd := ((h d).mp hd).id_eq

/-- Handling is atomic and exact. After any members, the state shows just those that were taken in;
one more member is refused if and only if it looks up the node of an accessor taken in, or is an
event whose name is not that of a signal with the suffix, and a refused member leaves the state as
it was. -/
theorem handleEach_exact (members : List DeclaredMember) (m : DeclaredMember) :
    (handleEach members).1.map Prod.fst = members ∧
    (handleEach members).2.Shows (accepted (handleEach members).1) ∧
    ((handleEach members).2.isEmpty = true ↔ ∀ taken ∈ accepted (handleEach members).1,
      taken.kind ≠ .accessor ∧ taken.kind ≠ .remoteCall ∧ taken.kind ≠ .eventEmit) ∧
    ∃ refusal s, handleEach (members ++ [m]) = ((handleEach members).1 ++ [(m, refusal)], s) ∧
      Answers (accepted (handleEach members).1) m refusal ∧
      (refusal.isSome = true → s = (handleEach members).2) := by
  have hshows := handleEach_shows members
  refine ⟨handleEach_members members, hshows, hshows.isEmpty_iff, ?_⟩
  rw [handleEach_concat]
  cases hadd : (handleEach members).2.add m with
  | ok s =>
    refine ⟨none, s, rfl, .of_refused fun d => ?_, fun hsome => by cases hsome⟩
    rw [← hshows.knows.add_error, hadd]
    simp
  | error d =>
    refine ⟨some d, _, rfl, .of_refused fun d' => ?_, fun _ => rfl⟩
    rw [← hshows.knows.add_error, hadd, Option.some.injEq, Except.error.injEq]

end HelperState
end SceneCodegen.Fragment
