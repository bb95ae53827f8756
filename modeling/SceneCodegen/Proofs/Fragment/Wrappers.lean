import Mathlib.Data.List.Nodup
import Mathlib.Data.List.Pairwise
import SceneCodegen.Proofs.Fragment.Literals

/-!
# Wrappers

A remote call has two wrappers of one name. The second takes the peer in front of what the first
takes, and so it may have the signature of the first wrapper of another call, or a parameter of the
call may be named like the peer. The wrapper of an event shares neither names nor parameters.
-/
namespace SceneCodegen.Fragment

/-- A documented method whose body is one call. -/
structure Wrapper where
  documented : String
  name : String
  /-- Names with types. -/
  parameters : List (String × String)
  called : String
  arguments : List String
  deriving DecidableEq, Repr

namespace Wrapper

def parameterTexts (parameters : List (String × String)) : List String :=
  parameters.map fun (name, type) => type ++ " " ++ name

def head (w : Wrapper) : String :=
  w.name ++ "(" ++ Text.join ", " (parameterTexts w.parameters) ++ ")"

def call (w : Wrapper) : String := w.called ++ "(" ++ Text.join ", " w.arguments ++ ");"

/-- The line that declares the method. -/
def declaration (w : Wrapper) : String := indent ++ "public void " ++ w.head

/-- The method as it stands in a file. -/
def lines (w : Wrapper) : List String :=
  [indent ++ "/// <inheritdoc cref=\"" ++ w.documented ++ "\"/>", w.declaration, indent ++ "\x7b",
    indent2 ++ w.call, indent ++ "\x7d"]

/-- What overloads are told apart by. -/
def signature (w : Wrapper) : String × List String := (w.name, w.parameters.map Prod.snd)

end Wrapper

namespace HelperState

/-- The names of the parameters that a member declares. -/
def parameterNames (m : DeclaredMember) : List String := m.parameters.map Prod.fst

/-- The call to every peer. -/
def broadcast (m : DeclaredMember) : Wrapper :=
  ⟨m.name, "Rpc" ++ m.name, m.parameters, "Rpc", ("MethodName." ++ m.name) :: parameterNames m⟩

def directed (m : DeclaredMember) : Wrapper :=
  ⟨m.name, "Rpc" ++ m.name, ("peerId", "long") :: m.parameters, "RpcId",
    "peerId" :: ("MethodName." ++ m.name) :: parameterNames m⟩

def emission (m : DeclaredMember) (signal : String) : Wrapper :=
  ⟨includeGlobal (m.owner ++ "." ++ m.name), "Emit" ++ signal, m.parameters, "EmitSignal",
    ("SignalName." ++ signal) :: parameterNames m⟩

def memberWrappers (m : DeclaredMember) : List Wrapper :=
  match m.kind with
  | .remoteCall => [broadcast m, directed m]
  | .eventEmit => ((signalName? m.name).map (emission m)).toList
  | .accessor | .singletonClass | .notifyField => []

/-- A wrapper calls all peers, calls one peer or emits an event. -/
theorem mem_memberWrappers {m : DeclaredMember} {w : Wrapper} : w ∈ memberWrappers m ↔
    m.kind = .remoteCall ∧ (w = broadcast m ∨ w = directed m) ∨
    m.kind = .eventEmit ∧ ∃ signal, signalName? m.name = some signal ∧ w = emission m signal := by
  rw [memberWrappers]
  cases m.kind with
  | remoteCall => simp
  | eventEmit => cases signalName? m.name <;> simp
  | accessor | singletonClass | notifyField => simp

theorem join_empty_cons (first : String) (rest : List String) :
    Text.join "" (first :: rest) = first ++ Text.join "" rest := by
  cases rest with
  | nil => rw [Text.join, Text.join, String.intercalate_singleton, String.intercalate_nil,
      String.append_empty]
  | cons second rest => rw [Text.join, Text.join, String.intercalate_cons_cons, String.append_empty]

theorem join_cons (sep first : String) (rest : List String) :
    Text.join sep (first :: rest) = first ++ Text.join "" (rest.map (sep ++ ·)) := by
  induction rest generalizing first with
  | nil => rw [List.map_nil, Text.join, Text.join, String.intercalate_singleton,
      String.intercalate_nil, String.append_empty]
  | cons second rest ih =>
    have hrest : Text.join sep (first :: second :: rest) =
        first ++ sep ++ Text.join sep (second :: rest) := String.intercalate_cons_cons
    rw [hrest, ih, List.map_cons, join_empty_cons, String.append_assoc, String.append_assoc]

/-- The arguments of a call are joined whether or not a member has parameters. -/
theorem append_forwarded (target : String) (m : DeclaredMember) :
    target ++ forwarded m = Text.join ", " (target :: parameterNames m) := by
  rw [join_cons, forwarded, parameterNames, List.map_map]
  rfl

theorem broadcast_call (m : DeclaredMember) :
    (broadcast m).call = "Rpc(" ++ ("MethodName." ++ m.name ++ forwarded m ++ ");") := by
  rw [append_forwarded, ← String.append_assoc]
  rfl

theorem directed_call (m : DeclaredMember) :
    (directed m).call = "RpcId(peerId, " ++ ("MethodName." ++ m.name ++ forwarded m ++ ");") := by
  have hpeer : Text.join ", " (directed m).arguments =
      "peerId" ++ ", " ++ Text.join ", " (("MethodName." ++ m.name) :: parameterNames m) :=
    String.intercalate_cons_cons
  rw [append_forwarded, Wrapper.call, hpeer, ← String.append_assoc, ← String.append_assoc,
    ← String.append_assoc]
  rfl

theorem directed_head (m : DeclaredMember) : (directed m).head = "Rpc" ++ m.name ++ "(" ++
    ("long peerId" ++ if parameterList m == "" then "" else ", " ++ parameterList m) ++ ")" := by
  have hlist : parameterList m = Text.join ", " (Wrapper.parameterTexts m.parameters) := rfl
  have hhead : ("long peerId" ++ if parameterList m == "" then "" else ", " ++ parameterList m) =
      Text.join ", " (Wrapper.parameterTexts (("peerId", "long") :: m.parameters)) := by
    rw [hlist]
    cases m.parameters with
    | nil => rfl
    | cons p parameters =>
      have hne : Text.join ", " (Wrapper.parameterTexts (p :: parameters)) ≠ "" := by
        rw [Wrapper.parameterTexts, List.map_cons, join_cons, Ne, ← String.toList_inj]
        simp
      have htwo : Text.join ", " (Wrapper.parameterTexts (("peerId", "long") :: p :: parameters)) =
          "long peerId" ++ ", " ++ Text.join ", " (Wrapper.parameterTexts (p :: parameters)) :=
        String.intercalate_cons_cons
      rw [if_neg (by simpa using hne), htwo, String.append_assoc]
  rw [hhead]
  rfl

theorem emission_call (m : DeclaredMember) (signal : String) : (emission m signal).call =
    "EmitSignal(SignalName." ++ signal ++ forwarded m ++ ");" := by
  have hstart : "EmitSignal(SignalName." ++ signal ++ forwarded m =
      "EmitSignal(" ++ ("SignalName." ++ signal ++ forwarded m) := by
    rw [← String.append_assoc, ← String.append_assoc]
    rfl
  rw [hstart, append_forwarded]
  rfl

theorem lines_concat (w : Wrapper) : w.lines ++ [""] = wrapper w.documented w.head w.call := rfl

/-- The lines of a member are those of its wrappers, each with an empty line behind it. -/
theorem wrappersOf_eq (m : DeclaredMember) :
    wrappersOf m = (memberWrappers m).flatMap fun w => w.lines ++ [""] := by
  simp only [lines_concat]
  rw [wrappersOf, memberWrappers]
  cases m.kind with
  | remoteCall =>
    rw [List.flatMap_cons, List.flatMap_singleton, broadcast_call, directed_call, directed_head]
    rfl
  | eventEmit =>
    cases signalName? m.name with
    | none => rfl
    | some signal =>
      show eventLines m signal = [emission m signal].flatMap _
      rw [List.flatMap_singleton, emission_call]
      rfl
  | accessor | singletonClass | notifyField => rfl

/-- The lines that declare a member's wrappers. -/
theorem wrapperMembers_eq (m : DeclaredMember) :
    wrapperMembers m = (memberWrappers m).map Wrapper.declaration := by
  rw [wrapperMembers, memberWrappers]
  cases m.kind with
  | remoteCall =>
    rw [List.map_cons, List.map_singleton, Wrapper.declaration, Wrapper.declaration, directed_head]
    rfl
  | eventEmit => cases signalName? m.name <;> rfl
  | accessor | singletonClass | notifyField => rfl

end HelperState

def wrappers (c : ScannedClass) : List Wrapper := c.members.flatMap HelperState.memberWrappers

theorem HelperState.Shows.wrapperLines_eq {c : ScannedClass} {s : HelperState}
    (h : s.Shows c.members) : s.wrapperLines = (wrappers c).flatMap fun w => w.lines ++ [""] := by
  rw [h.wrapperLines, wrappers, List.flatMap_assoc, funext wrappersOf_eq]

/-- Each wrapper stands in the file, from its documentation to its closing brace. -/
theorem exists_wrapper_text {c : ScannedClass} {f : GeneratedFragment}
    (hf : renderHelpers c = .ok (some f)) {w : Wrapper} (hw : w ∈ wrappers c) :
    ∃ before after : String, f.text = before ++ String.join (w.lines.map (· ++ "\n")) ++ after := by
  obtain ⟨s, hs, -, rfl⟩ := renderHelpers_eq_some hf
  have hshows : s.Shows c.members := HelperState.Shows.empty.addAll hs
  refine exists_text_eq_block _ (endsFilled_helperLines c s) ?_
  obtain ⟨front, back, hwrappers⟩ := List.append_of_mem hw
  obtain ⟨body, hbody⟩ : ∃ body, w.lines = body ++ [indent ++ "\x7d"] := ⟨w.lines.dropLast, rfl⟩
  have hlines : s.wrapperLines = (front.flatMap fun w => w.lines ++ [""]) ++ body ++
      (indent ++ "\x7d") :: "" :: back.flatMap fun w => w.lines ++ [""] := by
    rw [hshows.wrapperLines_eq, hwrappers, List.flatMap_append, List.flatMap_cons, hbody]
    simp
  unfold helperLines
  extract_lets opening
  -- Only empty lines behind the last wrapper are dropped.
  rw [hlines, ← List.append_assoc, dropEmptyEnd_append (by decide), hbody]
  have hblock (more : List String) : body ++ [indent ++ "\x7d"] <:+:
      opening ++ s.accessorMethod ++ ((front.flatMap fun w => w.lines ++ [""]) ++ body) ++
        (indent ++ "\x7d") :: more :=
    ⟨opening ++ s.accessorMethod ++ (front.flatMap fun w => w.lines ++ [""]), more, by simp⟩
  exact (hblock _).trans ((List.prefix_append _ _).trans
    ((List.prefix_append _ _).trans (List.prefix_append _ _))).isInfix

theorem helperMembers_eq (c : ScannedClass) : helperMembers c =
    HelperState.accessorMembers c.members ++ (wrappers c).map Wrapper.declaration := by
  rw [helperMembers, wrappers, List.map_flatMap, funext HelperState.wrapperMembers_eq]

/-- What the overloads of a declared method are told apart by. -/
def overload (m : DeclaredMember) : String × List String := (m.name, m.parameters.map Prod.snd)

/-- The second member is named like the first and takes a `long` in front of the same types. -/
def TakesLongBefore (m m' : DeclaredMember) : Prop :=
  overload m' = (m.name, "long" :: m.parameters.map Prod.snd)

namespace HelperState

def signatures (m : DeclaredMember) : List (String × List String) :=
  (memberWrappers m).map Wrapper.signature

theorem mem_signatures {m : DeclaredMember} {x : String × List String} : x ∈ signatures m ↔
    m.kind = .remoteCall ∧ (x = ("Rpc" ++ m.name, m.parameters.map Prod.snd) ∨
      x = ("Rpc" ++ m.name, "long" :: m.parameters.map Prod.snd)) ∨
    m.kind = .eventEmit ∧ ∃ signal, signalName? m.name = some signal ∧
      x = ("Emit" ++ signal, m.parameters.map Prod.snd) := by
  rw [signatures, List.mem_map]
  constructor
  · rintro ⟨w, hw, rfl⟩
    rcases mem_memberWrappers.mp hw with ⟨hkind, rfl | rfl⟩ | ⟨hkind, signal, hsignal, rfl⟩
    · exact .inl ⟨hkind, .inl rfl⟩
    · exact .inl ⟨hkind, .inr rfl⟩
    · exact .inr ⟨hkind, signal, hsignal, rfl⟩
  · rintro (⟨hkind, rfl | rfl⟩ | ⟨hkind, signal, hsignal, rfl⟩)
    · exact ⟨broadcast m, mem_memberWrappers.mpr (.inl ⟨hkind, .inl rfl⟩), rfl⟩
    · exact ⟨directed m, mem_memberWrappers.mpr (.inl ⟨hkind, .inr rfl⟩), rfl⟩
    · exact ⟨emission m signal, mem_memberWrappers.mpr (.inr ⟨hkind, signal, hsignal, rfl⟩), rfl⟩

theorem nodup_signatures (m : DeclaredMember) : (signatures m).Nodup := by
  rw [signatures, memberWrappers]
  cases m.kind with
  | remoteCall => simp [Wrapper.signature, broadcast, directed]
  | eventEmit => cases signalName? m.name <;> simp
  | accessor | singletonClass | notifyField => simp

theorem rpc_ne_emit (a b : String) : "Rpc" ++ a ≠ "Emit" ++ b := by
  rw [Ne, ← String.toList_inj, String.toList_append, String.toList_append]
  exact fun h => absurd (List.cons.inj h).1 (by decide)

/-- Two members share no signature if they are different overloads of their kind, none with a
`long` in front of what the other takes. -/
theorem disjoint_signatures {m m' : DeclaredMember}
    (hcalls : m.kind = .remoteCall → m'.kind = .remoteCall →
      overload m ≠ overload m' ∧ ¬ TakesLongBefore m m' ∧ ¬ TakesLongBefore m' m)
    (hevents : m.kind = .eventEmit → m'.kind = .eventEmit → overload m ≠ overload m') :
    (signatures m).Disjoint (signatures m') := by
  intro x hx hx'
  rcases mem_signatures.mp hx with ⟨hkind, hx⟩ | ⟨hkind, signal, hsignal, rfl⟩
  · rcases mem_signatures.mp hx' with ⟨hkind', hx'⟩ | ⟨-, signal, -, rfl⟩
    · obtain ⟨hne, hnext, hbefore⟩ := hcalls hkind hkind'
      rcases hx with rfl | rfl <;> rcases hx' with hx' | hx' <;>
        obtain ⟨hname, htypes⟩ := Prod.mk.inj hx' <;>
        rw [String.append_right_inj] at hname
      · exact hne (Prod.ext hname htypes)
      · exact hbefore (Prod.ext hname htypes)
      · exact hnext (Prod.ext hname.symm htypes.symm)
      · exact hne (Prod.ext hname (List.cons.inj htypes).2)
    · rcases hx with hx | hx
      · exact rpc_ne_emit _ _ (Prod.mk.inj hx).1.symm
      · exact rpc_ne_emit _ _ (Prod.mk.inj hx).1.symm
  · rcases mem_signatures.mp hx' with ⟨-, hx' | hx'⟩ | ⟨hkind', signal', hsignal', hx'⟩
    · exact rpc_ne_emit _ _ (Prod.mk.inj hx').1.symm
    · exact rpc_ne_emit _ _ (Prod.mk.inj hx').1.symm
    · obtain ⟨hname, htypes⟩ := Prod.mk.inj hx'
      rw [String.append_right_inj] at hname
      subst hname
      refine hevents hkind hkind' (Prod.ext ?_ htypes)
      exact (signalName?_eq_some.mp hsignal).2.trans (signalName?_eq_some.mp hsignal').2.symm

end HelperState

theorem map_signature_wrappers (c : ScannedClass) :
    (wrappers c).map Wrapper.signature = c.members.flatMap HelperState.signatures := by
  rw [wrappers, List.map_flatMap]
  rfl

/-- Members of one kind that are different overloads. -/
theorem pairwise_overload {c : ScannedClass} {kind : MarkedKind}
    (h : ((c.membersOf kind).map overload).Nodup) :
    c.members.Pairwise fun m m' => m.kind = kind → m'.kind = kind → overload m ≠ overload m' := by
  rw [List.Nodup, List.pairwise_map, ScannedClass.membersOf, List.pairwise_filter] at h
  simpa only [beq_iff_eq] using h

theorem mem_membersOf {c : ScannedClass} {kind : MarkedKind} {m : DeclaredMember} :
    m ∈ c.membersOf kind ↔ m ∈ c.members ∧ m.kind = kind := by
  rw [ScannedClass.membersOf, List.mem_filter, beq_iff_eq]

/-- The wrappers of a class are different overloads just if no remote call has a `long` in front of
what another takes. -/
theorem nodup_wrappers_iff {c : ScannedClass}
    (hcalls : ((c.membersOf .remoteCall).map overload).Nodup)
    (hevents : ((c.membersOf .eventEmit).map overload).Nodup) :
    ((wrappers c).map Wrapper.signature).Nodup ↔
      ∀ m ∈ c.membersOf .remoteCall, ∀ m' ∈ c.membersOf .remoteCall, ¬ TakesLongBefore m m' := by
  rw [map_signature_wrappers, List.nodup_flatMap]
  constructor
  · rintro ⟨-, hapart⟩ m hm m' hm' hbefore
    obtain ⟨hm, hkind⟩ := mem_membersOf.mp hm
    obtain ⟨hm', hkind'⟩ := mem_membersOf.mp hm'
    have hne : m ≠ m' := by
      rintro rfl
      have hlength := congrArg List.length (Prod.mk.inj hbefore).2
      simp at hlength
    obtain ⟨hname, htypes⟩ := Prod.mk.inj hbefore
    have hdirected : ("Rpc" ++ m.name, "long" :: m.parameters.map Prod.snd) ∈
        HelperState.signatures m := HelperState.mem_signatures.mpr (.inl ⟨hkind, .inr rfl⟩)
    have hbroadcast : ("Rpc" ++ m.name, "long" :: m.parameters.map Prod.snd) ∈
        HelperState.signatures m' :=
      HelperState.mem_signatures.mpr (.inl ⟨hkind', .inl (by rw [hname, htypes])⟩)
    have : Std.Symm (Function.onFun List.Disjoint HelperState.signatures) :=
      ⟨fun _ _ h _ hx hx' => h hx' hx⟩
    exact hapart.forall hm hm' hne hdirected hbroadcast
  · intro hnone
    refine ⟨fun m _ => HelperState.nodup_signatures m, ?_⟩
    have hboth := List.pairwise_and_iff.mpr ⟨pairwise_overload hcalls, pairwise_overload hevents⟩
    refine hboth.imp_of_mem fun {m m'} hm hm' h => ?_
    refine HelperState.disjoint_signatures (fun hkind hkind' => ⟨h.1 hkind hkind', ?_, ?_⟩) h.2
    · exact hnone m (mem_membersOf.mpr ⟨hm, hkind⟩) m' (mem_membersOf.mpr ⟨hm', hkind'⟩)
    · exact hnone m' (mem_membersOf.mpr ⟨hm', hkind'⟩) m (mem_membersOf.mpr ⟨hm, hkind⟩)

/-- The parameters of a member stand behind those that a wrapper adds, and are handed on in their
order behind what is called. -/
def Forwards (m : DeclaredMember) (w : Wrapper) : Prop :=
  ∃ (added : List (String × String)) (target : String), w.parameters = added ++ m.parameters ∧
    w.arguments = added.map Prod.fst ++ target :: m.parameters.map Prod.fst

theorem forwards {m : DeclaredMember} {w : Wrapper} (hw : w ∈ HelperState.memberWrappers m) :
    Forwards m w := by
  rcases HelperState.mem_memberWrappers.mp hw with ⟨-, rfl | rfl⟩ | ⟨-, signal, -, rfl⟩
  · exact ⟨[], _, rfl, rfl⟩
  · exact ⟨[("peerId", "long")], _, rfl, rfl⟩
  · exact ⟨[], _, rfl, rfl⟩

/-- Wrappers have distinct parameters just if no remote call has one that is named like the peer. -/
theorem nodup_parameterNames_iff {c : ScannedClass}
    (hcalls : ∀ m ∈ c.membersOf .remoteCall, (m.parameters.map Prod.fst).Nodup)
    (hevents : ∀ m ∈ c.membersOf .eventEmit, (m.parameters.map Prod.fst).Nodup) :
    (∀ w ∈ wrappers c, (w.parameters.map Prod.fst).Nodup) ↔
      ∀ m ∈ c.membersOf .remoteCall, "peerId" ∉ m.parameters.map Prod.fst := by
  have hdirected (m : DeclaredMember) :
      ((HelperState.directed m).parameters.map Prod.fst).Nodup ↔
        "peerId" ∉ m.parameters.map Prod.fst ∧ (m.parameters.map Prod.fst).Nodup :=
    List.nodup_cons
  simp only [wrappers, List.forall_mem_flatMap, mem_membersOf] at hcalls hevents ⊢
  constructor
  · rintro h m ⟨hm, hkind⟩
    have hw := HelperState.mem_memberWrappers.mpr (.inl ⟨hkind, .inr rfl⟩)
    exact ((hdirected m).mp (h m hm _ hw)).1
  · intro h m hm w hw
    rcases HelperState.mem_memberWrappers.mp hw with ⟨hkind, rfl | rfl⟩ | ⟨hkind, signal, -, rfl⟩
    · exact hcalls m ⟨hm, hkind⟩
    · exact (hdirected m).mpr ⟨h m ⟨hm, hkind⟩, hcalls m ⟨hm, hkind⟩⟩
    · exact hevents m ⟨hm, hkind⟩

/-- The helper fragment of a class holds its wrappers and declares no other methods but the one for
accessors. Each hands on what its member declares. If remote calls are different overloads and
parameters are distinct, and so for events, then wrappers are different overloads just if no call
has a `long` in front of what another takes, and their parameters are distinct just if none of a
call is named like the peer. -/
theorem wrappers_legal {c : ScannedClass}
    (hcalls : ((c.membersOf .remoteCall).map overload).Nodup)
    (hcallNames : ∀ m ∈ c.membersOf .remoteCall, (m.parameters.map Prod.fst).Nodup)
    (hevents : ((c.membersOf .eventEmit).map overload).Nodup)
    (heventNames : ∀ m ∈ c.membersOf .eventEmit, (m.parameters.map Prod.fst).Nodup)
    {f : GeneratedFragment} (hf : renderHelpers c = .ok (some f)) :
    (∀ w ∈ wrappers c, ∃ before after : String,
      f.text = before ++ String.join (w.lines.map (· ++ "\n")) ++ after) ∧
    (TameClass c → Declares (blocks c.nameSpace + c.containingDeclarations.length + 1) f.text
      (HelperState.accessorMembers c.members ++ (wrappers c).map Wrapper.declaration)) ∧
    (∀ m ∈ c.members, ∀ w ∈ HelperState.memberWrappers m, Forwards m w) ∧
    (((wrappers c).map Wrapper.signature).Nodup ↔
      ∀ m ∈ c.membersOf .remoteCall, ∀ m' ∈ c.membersOf .remoteCall, ¬ TakesLongBefore m m') ∧
    ((∀ w ∈ wrappers c, (w.parameters.map Prod.fst).Nodup) ↔
      ∀ m ∈ c.membersOf .remoteCall, "peerId" ∉ m.parameters.map Prod.fst) := by
  refine ⟨fun w hw => exists_wrapper_text hf hw, fun htame => ?_, fun m _ w hw => forwards hw,
    nodup_wrappers_iff hcalls hevents, nodup_parameterNames_iff hcallNames heventNames⟩
  rw [← helperMembers_eq]
  exact declares_helpers htame hf

namespace Hud

def callPart (name : String) (parameters : List (String × String)) : Json :=
  .object [("kind", .text "method"), ("name", .text name),
    ("parameters", .list (parameters.map fun (name, type) =>
      .object [("name", .text name), ("type", .text type)])),
    ("markers", .list [.object [("name", .text Scan.remoteCallMarker)]])]

def callMember (name : String) (parameters : List (String × String)) : Symbol.Member :=
  { kind := .method, name, parameters := parameters.map fun (name, type) => ⟨name, type⟩
    markers := [⟨Scan.remoteCallMarker, [], []⟩] }

def call (name : String) (parameters : List (String × String)) : DeclaredMember :=
  { kind := .remoteCall, owner := "Game.Hud", name, type := "void", symbolKind := "method"
    parameters }

theorem tameClass_scanned {members : List Symbol.Member}
    (h : ∀ m ∈ (scanned members).members, TameMember m) : TameClass (scanned members) where
  nameSpace := (by decide : Tame "Game")
  name := (by decide : Tame "Hud")
  around d hd := by
    rw [containingDeclarations_scanned] at hd
    cases hd
  members := h

theorem tame_call {name : String} {parameters : List (String × String)} (hname : Tame name)
    (hparameters : ∀ p ∈ parameters, Tame p.1 ∧ Tame p.2) : TameMember (call name parameters) :=
  ⟨(by decide : Tame "Game.Hud"), hname, (by decide : Tame "void"), hparameters⟩

def hitMember : Symbol.Member :=
  { kind := .delegate, name := "HitEventHandler", parameters := [⟨"amount", "int"⟩]
    markers := [⟨Scan.eventSignalMarker, [], []⟩] }

def hit : DeclaredMember :=
  { kind := .eventEmit, owner := "Game.Hud", name := "HitEventHandler", type := "void"
    symbolKind := "delegate", parameters := [("amount", "int")] }

/-- Two overloads of a call that do not get in each other's way, and an event. -/
def talking : List Symbol.Member :=
  [callMember "Say" [("text", "string")], callMember "Say" [("text", "string"), ("times", "int")],
    hitMember]

/-- Two overloads of one call, and a call with a parameter that is named like the peer. -/
def clashing : List Symbol.Member :=
  [callMember "Ping" [], callMember "Ping" [("id", "long")], callMember "Kick" [("peerId", "long")]]

theorem members_clashing : (scanned clashing).members =
    [call "Ping" [], call "Ping" [("id", "long")], call "Kick" [("peerId", "long")]] := rfl

theorem tameClass_clashing : TameClass (scanned clashing) := by
  refine tameClass_scanned ?_
  rw [members_clashing]
  simp only [List.forall_mem_cons]
  exact ⟨tame_call (by decide) (by decide), tame_call (by decide) (by decide),
    tame_call (by decide) (by decide), nofun⟩

end Hud

theorem wrappers_legal_talking : ∃ f, renderHelpers (Hud.scanned Hud.talking) = .ok (some f) ∧
    (((Hud.scanned Hud.talking).membersOf .remoteCall).map overload).Nodup ∧
    (∀ m ∈ (Hud.scanned Hud.talking).membersOf .remoteCall,
      (m.parameters.map Prod.fst).Nodup) ∧
    (((Hud.scanned Hud.talking).membersOf .eventEmit).map overload).Nodup ∧
    (∀ m ∈ (Hud.scanned Hud.talking).membersOf .eventEmit,
      (m.parameters.map Prod.fst).Nodup) ∧
    ((wrappers (Hud.scanned Hud.talking)).map Wrapper.signature).Nodup ∧
    ∀ w ∈ wrappers (Hud.scanned Hud.talking), (w.parameters.map Prod.fst).Nodup := by
  obtain ⟨f, hf⟩ : ∃ f, renderHelpers (Hud.scanned Hud.talking) = .ok (some f) := ⟨_, rfl⟩
  have hcalls : (Hud.scanned Hud.talking).membersOf .remoteCall =
    [Hud.call "Say" [("text", "string")], Hud.call "Say" [("text", "string"), ("times", "int")]] :=
    rfl
  have hevents : (Hud.scanned Hud.talking).membersOf .eventEmit = [Hud.hit] := rfl
  have hoverloads : (((Hud.scanned Hud.talking).membersOf .remoteCall).map overload).Nodup := by
    rw [hcalls]
    decide
  have hnames : ∀ m ∈ (Hud.scanned Hud.talking).membersOf .remoteCall,
      (m.parameters.map Prod.fst).Nodup := by
    rw [hcalls]
    decide
  have hevents' : (((Hud.scanned Hud.talking).membersOf .eventEmit).map overload).Nodup := by
    rw [hevents]
    decide
  have heventNames : ∀ m ∈ (Hud.scanned Hud.talking).membersOf .eventEmit,
      (m.parameters.map Prod.fst).Nodup := by
    rw [hevents]
    decide
  obtain ⟨-, -, -, hsignatures, hparameters⟩ :=
    wrappers_legal hoverloads hnames hevents' heventNames hf
  refine ⟨f, hf, hoverloads, hnames, hevents', heventNames, hsignatures.mpr ?_, hparameters.mpr ?_⟩
  · rw [hcalls]
    unfold TakesLongBefore
    decide
  · rw [hcalls]
    decide

/-- Two calls share a wrapper, and a wrapper has two parameters of one name. -/
theorem wrappers_not_legal :
    SymbolTable.ofDocument Symbol.reader (Hud.document [Hud.callPart "Ping" [],
      Hud.callPart "Ping" [("id", "long")], Hud.callPart "Kick" [("peerId", "long")]]) =
      .ok (Hud.table Hud.clashing) ∧
    (Scan.scanClass (.ofTable (Hud.table Hud.clashing)) (Hud.hud Hud.clashing)).run =
      some (Hud.scanned Hud.clashing) ∧
    (((Hud.scanned Hud.clashing).membersOf .remoteCall).map overload).Nodup ∧
    (∀ m ∈ (Hud.scanned Hud.clashing).membersOf .remoteCall, (m.parameters.map Prod.fst).Nodup) ∧
    (Hud.scanned Hud.clashing).membersOf .eventEmit = [] ∧
    ∃ f, renderHelpers (Hud.scanned Hud.clashing) = .ok (some f) ∧ Declares 2 f.text
      ["    public void RpcPing()", "    public void RpcPing(long peerId)",
        "    public void RpcPing(long id)", "    public void RpcPing(long peerId, long id)",
        "    public void RpcKick(long peerId)",
        "    public void RpcKick(long peerId, long peerId)"] := by
  obtain ⟨f, hf⟩ : ∃ f, renderHelpers (Hud.scanned Hud.clashing) = .ok (some f) := ⟨_, rfl⟩
  have hcalls : (Hud.scanned Hud.clashing).membersOf .remoteCall =
    [Hud.call "Ping" [], Hud.call "Ping" [("id", "long")], Hud.call "Kick" [("peerId", "long")]] :=
    rfl
  have hdeclares := declares_helpers Hud.tameClass_clashing hf
  have hmembers : helperMembers (Hud.scanned Hud.clashing) =
      ["    public void RpcPing()", "    public void RpcPing(long peerId)",
        "    public void RpcPing(long id)", "    public void RpcPing(long peerId, long id)",
        "    public void RpcKick(long peerId)",
        "    public void RpcKick(long peerId, long peerId)"] := by
    rw [helperMembers, Hud.members_clashing]
    decide
  rw [Hud.containingDeclarations_scanned, hmembers] at hdeclares
  refine ⟨rfl, Hud.scanClass_hud _, ?_, ?_, rfl, f, hf, hdeclares⟩
  · rw [hcalls]
    decide
  · rw [hcalls]
    decide

end SceneCodegen.Fragment
