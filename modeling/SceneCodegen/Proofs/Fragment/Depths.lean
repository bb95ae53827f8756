import SceneCodegen.Fragment.InputAction
import SceneCodegen.Proofs.Fragment.Openings
import SceneCodegen.Proofs.Fragment.TameNames

/-!
# Depths of members

However a fragment is put together, it closes the braces that it opens, and the members of its class
begin one level inside of the class, which is inside of the declarations around it and of a
namespace with braces. Names and types must not hold characters that mean something between names;
the texts of literals may be any, and those of comments any that fit on a line.
-/
namespace SceneCodegen.Fragment

theorem isMargin_indent : IsMargin indent := by decide

theorem isMargin_indent2 : IsMargin indent2 := by decide

section
variable {D d f : Nat} {lines members : List String}

namespace Passage

/-- The documentation of a member refers to another one. -/
theorem documentation {margin name : String} (hmargin : IsMargin margin) (hname : OneLine name)
    (h : Passage D d lines f members) :
    Passage D d ((margin ++ "/// <inheritdoc cref=\"" ++ name ++ "\"/>") :: lines) f members := by
  rw [String.append_assoc, String.append_assoc]
  refine h.other (leadsTo_comment d hmargin.tame ⟨_, rfl⟩ ?_) (.inr ?_)
  · simp +decide [hname]
  · rw [hmargin.isDeclaration_append, isDeclaration_append (c := '/') (by decide)]
    decide

/-- A member that is made from tame texts. -/
theorem header {margin word rest : String} (hmargin : IsMargin margin) (hword : Tame word)
    (hdeclares : isDeclaration word = true) (hrest : Tame rest)
    (h : Passage D D lines f members) :
    Passage D D ((margin ++ word ++ rest) :: lines) f ((margin ++ word ++ rest) :: members) := by
  refine h.member (Tame.codes ?_ D) ?_
  · simp [hmargin.tame, hword, hrest]
  · rw [String.append_assoc, hmargin.isDeclaration_append]
    cases hfirst : firstChar? word with
    | none => simp [isDeclaration, hfirst] at hdeclares
    | some c => rwa [isDeclaration_append hfirst]

end Passage

/-- Opening the declarations around a class leads inward, without members of the class. -/
theorem passage_around {around : List (String × String)}
    (h : ∀ d ∈ around, Tame d.1 ∧ Tame d.2) (hD : d + around.length < D) :
    Passage D d
      (around.flatMap fun (keyword, name) => ["partial " ++ keyword ++ " " ++ name, "\x7b"])
      (d + around.length) [] := by
  induction around generalizing d with
  | nil => exact .nil
  | cons declared around ih =>
    obtain ⟨hkeyword, hname⟩ := h declared List.mem_cons_self
    rw [List.length_cons] at hD ⊢
    have hrest := ih (d := d + 1) (fun e he => h e (List.mem_cons_of_mem _ he)) (by omega)
    have hline : Tame ("partial " ++ declared.1 ++ " " ++ declared.2) := by
      simp +decide [hkeyword, hname]
    rw [show d + (around.length + 1) = d + 1 + around.length by omega]
    exact .outside (hline.codes d) (by omega) (.brace hrest)

/-- Closing braces lead outward. -/
theorem passage_ends (around : List (String × String)) (D d : Nat) :
    Passage D (d + around.length) (around.map fun _ => "\x7d") d [] := by
  induction around with
  | nil => exact .nil
  | cons _ around ih => exact .endBrace ih

theorem passage_usings (hD : d ≠ D) : Passage D d ["using Godot;", "using System;", ""] d [] :=
  .code (by decide +kernel) hD

theorem passage_moreUsings (hD : d ≠ D) :
    Passage D d ["using Godot;", "using System;", "using System.Collections.Generic;", ""] d [] :=
  .code (by decide +kernel) hD

/-- A namespace for the rest of a file takes no braces. -/
theorem passage_fileNamespace {nameSpace : String} (h : Tame nameSpace) (hD : d ≠ D) :
    Passage D d (fileNamespace nameSpace) d [] := by
  rw [fileNamespace]
  split
  · exact .nil
  · have hline : Tame ("namespace " ++ nameSpace ++ ";") := by simp +decide [h]
    exact .outside (hline.codes d) hD (.empty .nil)

end

namespace HelperState

/-- The methods that wrap a member. -/
def wrapperMembers (m : DeclaredMember) : List String :=
  match m.kind with
  | .remoteCall =>
    let parameters := parameterList m
    let directed := "long peerId" ++ if parameters == "" then "" else ", " ++ parameters
    [indent ++ "public void " ++ ("Rpc" ++ m.name ++ "(" ++ parameters ++ ")"),
      indent ++ "public void " ++ ("Rpc" ++ m.name ++ "(" ++ directed ++ ")")]
  | .eventEmit => ((signalName? m.name).map fun signal =>
      [indent ++ "public void " ++ ("Emit" ++ signal ++ "(" ++ parameterList m ++ ")")]).getD []
  | .accessor | .singletonClass | .notifyField => []

theorem passage_wrapper {D f : Nat} {documented header statement : String}
    {lines members : List String} (hdocumented : OneLine documented) (hheader : Tame header)
    (hstatement : Tame statement) (h : Passage D D lines f members) :
    Passage D D (wrapper documented header statement ++ lines) f
      ((indent ++ "public void " ++ header) :: members) := by
  have hline : Tame (indent2 ++ statement) :=
    tame_append.mpr ⟨isMargin_indent2.tame, hstatement⟩
  exact .documentation isMargin_indent hdocumented <|
    .header isMargin_indent (by decide) (by decide) hheader <|
    .opening isMargin_indent <| .outside (hline.codes _) (by omega) <|
    .closing isMargin_indent <| .empty h

theorem passage_wrappers {m : DeclaredMember} (h : TameMember m) (D : Nat) :
    Passage D D (wrappersOf m) D (wrapperMembers m) := by
  rw [wrappersOf, wrapperMembers]
  cases m.kind with
  | remoteCall =>
    have hdirected : Tame ("long peerId" ++
        if parameterList m == "" then "" else ", " ++ parameterList m) := by
      rw [tame_append]
      refine ⟨by decide, ?_⟩
      split
      · decide
      · exact tame_append.mpr ⟨by decide, h.parameterList⟩
    have htarget : Tame ("MethodName." ++ m.name ++ forwarded m ++ ");") := by
      simp +decide [h.name, h.forwarded]
    dsimp only [remoteCallLines]
    rw [← List.append_nil (wrapper _ ("Rpc" ++ m.name ++ "(" ++ ("long peerId" ++ _) ++ ")") _)]
    refine passage_wrapper h.name.oneLine ?_ ?_ (passage_wrapper h.name.oneLine ?_ ?_ .nil)
    · simp +decide [h.name, h.parameterList]
    · exact tame_append.mpr ⟨by decide, htarget⟩
    · simp +decide only [tame_append, h.name, hdirected, and_self]
    · exact tame_append.mpr ⟨by decide, htarget⟩
  | eventEmit =>
    cases hsignal : signalName? m.name with
    | none => exact .nil
    | some signal =>
      have htame := h.signal hsignal
      show Passage D D (eventLines m signal) D _
      rw [eventLines, ← List.append_nil (wrapper _ _ _)]
      refine passage_wrapper h.cref ?_ ?_ .nil
      · simp +decide [htame, h.parameterList]
      · simp +decide [htame, h.forwarded]
  | accessor | singletonClass | notifyField => exact .nil

theorem codes_lookupStatement {m : DeclaredMember} (h : TameMember m) (d : Nat) :
    Codes d (lookupStatement m) d := by
  rw [lookupStatement]
  refine Codes.append (Codes.append (Tame.codes ?_ d) (codes_stringLiteral d m.nodePath))
    (Tame.codes (by decide) d)
  have hcall : Tame (if m.notNull then "GetNode" else "GetNodeOrNull") := by
    split <;> decide
  simp +decide only [tame_append, h.name, h.type, hcall, and_self]

/-- The method that looks up the nodes of accessors, if there are any. -/
def accessorMembers (members : List DeclaredMember) : List String :=
  if members.any (·.kind == .accessor) then [indent ++ "public void GetNodes()"] else []

theorem Shows.passage_accessorMethod {s : HelperState} {taken : List DeclaredMember}
    (h : s.Shows taken) (htame : ∀ m ∈ taken, TameMember m) (D : Nat) :
    Passage D D s.accessorMethod D (accessorMembers taken) := by
  have hstatements {p : DeclaredMember → Bool} :
      Passage D (D + 1) (((accessorsOf taken).filter p).map lookupStatement) (D + 1) [] := by
    refine .outsides (fun line hline => ?_) (by omega)
    obtain ⟨m, hm, rfl⟩ := List.mem_map.mp hline
    exact codes_lookupStatement (htame m (List.mem_of_mem_filter (List.mem_of_mem_filter hm))) _
  have hfields : Passage D (D + 1) s.fieldLines (D + 1) [] := h.fieldLines ▸ hstatements
  have hproperties : Passage D (D + 1) s.propertyLines (D + 1) [] := h.propertyLines ▸ hstatements
  have hbetween : Passage D (D + 1)
      (if s.fieldLines.isEmpty || s.propertyLines.isEmpty then [] else [""]) (D + 1) [] := by
    split
    · exact .nil
    · exact .empty .nil
  have hany : s.hasAccessors = taken.any (·.kind == .accessor) := by
    rw [Bool.eq_iff_iff, h.hasAccessors_iff, List.any_eq_true]
    simp only [beq_iff_eq]
  rw [accessorMethod, accessorMembers, hany]
  split
  · have hbody := ((hfields.append hbetween).append hproperties).append
      (.closing isMargin_indent (.empty .nil))
    have hmethod : Passage D D
        ((indent ++ "public void GetNodes()") :: (indent ++ "\x7b") :: _) D _ :=
      .member (Tame.codes (by decide) D) (by decide) (.opening isMargin_indent hbody)
    simpa using hmethod
  · exact .nil

end HelperState

/-- A namespace with braces is one block. -/
def blocks (nameSpace : String) : Nat := if nameSpace == "" then 0 else 1

def helperMembers (c : ScannedClass) : List String :=
  HelperState.accessorMembers c.members ++ c.members.flatMap HelperState.wrapperMembers

section
variable {D : Nat} {nameSpace : String}

theorem passage_blockStart (h : Tame nameSpace) (hD : D ≠ 0) :
    Passage D 0 (if nameSpace == "" then [] else ["namespace " ++ nameSpace ++ " \x7b", ""])
      (blocks nameSpace) [] := by
  rw [blocks]
  split
  · exact .nil
  · have hline : Codes 0 ("namespace " ++ nameSpace ++ " \x7b") 1 := by
      have hbrace : " \x7b" = " " ++ "\x7b" := rfl
      rw [hbrace, ← String.append_assoc]
      exact (Tame.codes (by simp +decide [h]) 0).append (.opening 0)
    exact .outside hline hD.symm (.empty .nil)

theorem passage_blockEnd (D : Nat) (nameSpace : String) :
    Passage D (blocks nameSpace) (if nameSpace == "" then [] else ["", "\x7d"]) 0 [] := by
  rw [blocks]
  split
  · exact .nil
  · exact .empty (.endBrace .nil)

end

theorem endsFilled_helperLines (c : ScannedClass) (s : HelperState) :
    EndsFilled (helperLines c s) := by
  have hbrace : ∀ front, EndsFilled (front ++ ["\x7d"]) := (endsFilled_brace "").append
  rw [helperLines]
  split
  · -- Without a namespace the last line closes the outermost declaration.
    rw [List.append_nil]
    rcases List.eq_nil_or_concat c.containingDeclarations with hnil | ⟨around, d, hconcat⟩
    · rw [hnil, List.map_nil, List.append_nil]
      exact hbrace _
    · rw [hconcat, List.concat_eq_append, List.map_append, ← List.append_assoc]
      exact hbrace _
  · exact (hbrace [""]).append _

theorem HelperState.Shows.passage_helperLines {c : ScannedClass} {s : HelperState}
    (hshows : s.Shows c.members) (h : TameClass c) :
    Passage (blocks c.nameSpace + c.containingDeclarations.length + 1) 0 (helperLines c s) 0
      (helperMembers c) := by
  generalize hD : blocks c.nameSpace + c.containingDeclarations.length + 1 = D
  have husings : Passage D 0 ["using Godot;", "using Godot.NativeInterop;", ""] 0 [] :=
    .code (by decide) (by omega)
  have hclass : Passage D (blocks c.nameSpace + c.containingDeclarations.length)
      ["partial class " ++ c.nameWithTypeParameters, "\x7b"] D [] := by
    subst hD
    exact .outside (Tame.codes (by simp +decide [h.name]) _) (by omega) (.brace .nil)
  have hwrappers : Passage D D s.wrapperLines D
      (c.members.flatMap HelperState.wrapperMembers) := by
    rw [hshows.wrapperLines]
    exact .flatMap fun m hm => HelperState.passage_wrappers (h.members m hm) D
  have hmembers := (((husings.append (passage_blockStart h.nameSpace (by omega))).append
    (passage_around h.around (by omega))).append hclass).append
    ((hshows.passage_accessorMethod h.members D).append hwrappers)
  have hends : Passage D D ["\x7d"] (blocks c.nameSpace + c.containingDeclarations.length) [] := by
    subst hD
    exact .endBrace .nil
  have hall := ((hmembers.dropEmptyEnd.append hends).append
    (passage_ends c.containingDeclarations D (blocks c.nameSpace))).append
    (passage_blockEnd D c.nameSpace)
  simpa [helperLines, helperMembers] using hall

theorem declares_helpers {c : ScannedClass} {f : GeneratedFragment} (h : TameClass c)
    (hf : renderHelpers c = .ok (some f)) :
    Declares (blocks c.nameSpace + c.containingDeclarations.length + 1) f.text
      (helperMembers c) := by
  obtain ⟨s, hs, -, rfl⟩ := renderHelpers_eq_some hf
  have hshows : s.Shows c.members := HelperState.Shows.empty.addAll hs
  exact (hshows.passage_helperLines h).declares (endsFilled_helperLines c s) _

/-- The events, hooks and the property for a field. -/
def propertyMembers (margin type property : String) : List String :=
  let both := type ++ " oldValue, " ++ type ++ " newValue"
  [margin ++ "public event Action<" ++ type ++ ", " ++ type ++ "> " ++ property ++ "Changed;",
    margin ++ "partial void On" ++ property ++ "Changing(" ++ both ++ ");",
    margin ++ "partial void On" ++ property ++ "Changed(" ++ both ++ ");",
    margin ++ "public " ++ type ++ " " ++ property]

theorem passage_propertyLines {margin field type property : String} (hmargin : IsMargin margin)
    (hfield : Tame field) (htype : Tame type) (hproperty : Tame property) (D : Nat) :
    Passage D D (propertyLines margin field type property) D
      (propertyMembers margin type property) := by
  have hinner : IsMargin (margin ++ indent) := hmargin.append isMargin_indent
  have hinner2 : IsMargin (margin ++ indent ++ indent) := hinner.append isMargin_indent
  have hstarts : ∀ line ∈ propertyMembers margin type property, isDeclaration line = true := by
    simp only [propertyMembers, List.forall_mem_cons, isDeclaration, firstChar?_append,
      hmargin.firstChar?, Option.none_or]
    exact ⟨rfl, rfl, rfl, rfl, fun _ h => by cases h⟩
  have htame : ∀ line ∈ propertyMembers margin type property, Tame line := by
    simp +decide [propertyMembers, hmargin.tame, htype, hproperty]
  have haccessors : Passage D (D + 1)
      [margin ++ indent ++ "get => " ++ field ++ ";", margin ++ indent ++ "set"] (D + 1) [] :=
    .code (by simp +decide [hmargin.tame, hfield]) (by omega)
  have htest : Passage D (D + 2) [margin ++ indent ++ indent ++ "if (!EqualityComparer<" ++ type ++
      ">.Default.Equals(" ++ field ++ ", value))"] (D + 2) [] :=
    .code (by simp +decide [hmargin.tame, hfield, htype]) (by omega)
  have hchange : Passage D (D + 3)
      [margin ++ indent ++ indent ++ indent ++ "var oldValue = " ++ field ++ ";",
        margin ++ indent ++ indent ++ indent ++ "On" ++ property ++ "Changing(oldValue, value);",
        margin ++ indent ++ indent ++ indent ++ field ++ " = value;",
        margin ++ indent ++ indent ++ indent ++ "On" ++ property ++ "Changed(oldValue, value);",
        margin ++ indent ++ indent ++ indent ++ property ++ "Changed?.Invoke(oldValue, value);"]
      (D + 3) [] :=
    .code (by simp +decide [hmargin.tame, hfield, hproperty]) (by omega)
  simp only [propertyMembers, List.forall_mem_cons] at hstarts htame
  obtain ⟨hevent, hchanging, hchanged, hname, -⟩ := htame
  obtain ⟨hevent', hchanging', hchanged', hname', -⟩ := hstarts
  exact .member (hevent.codes D) hevent' <| .member (hchanging.codes D) hchanging' <|
    .member (hchanged.codes D) hchanged' <| .empty <| .documentation hmargin hfield.oneLine <|
    .member (hname.codes D) hname' <| .opening hmargin <| haccessors.append <|
    .opening hinner <| htest.append <| .opening hinner2 <| hchange.append <|
    .closing hinner2 <| .closing hinner <| .closing hmargin <| .empty .nil

def notifyMembersOf (margin : String) (m : DeclaredMember) : List String :=
  if pascalCase m.name == "" || pascalCase m.name == m.name then []
  else propertyMembers margin m.type (pascalCase m.name)

theorem passage_notifyLines {margin : String} (hmargin : IsMargin margin) {m : DeclaredMember}
    (h : TameMember m) (D : Nat) :
    Passage D D (notifyLines margin m) D (notifyMembersOf margin m) := by
  rw [notifyLines, notifyMembersOf]
  split
  · exact .nil
  · exact passage_propertyLines hmargin h.name h.type (tame_pascalCase m.name) D

/-- A namespace whose opening brace has a line of its own. -/
theorem passage_inBlock {D : Nat} {nameSpace : String} {lines members : List String}
    (h : Tame nameSpace) (hD : D ≠ 0)
    (hlines : Passage D (blocks nameSpace) lines (blocks nameSpace) members) :
    Passage D 0 ((if nameSpace == "" then [] else ["namespace " ++ nameSpace, "\x7b"]) ++ lines ++
      if nameSpace == "" then [] else ["\x7d"]) 0 members := by
  revert hlines
  rw [blocks]
  split
  · intro hlines
    simpa using hlines
  · intro hlines
    have hstart : Tame ("namespace " ++ nameSpace) := by simp +decide [h]
    have hend := hlines.append (.endBrace .nil)
    rw [List.append_nil] at hend
    exact .outside (hstart.codes 0) hD.symm (.brace hend)

def notifyMembers (c : ScannedClass) : List String :=
  (c.membersOf .notifyField).flatMap
    (notifyMembersOf ((if c.nameSpace == "" then "" else indent) ++ indent))

theorem declares_notify {c : ScannedClass} {f : GeneratedFragment} (h : TameClass c)
    (hf : renderNotify c = some f) :
    Declares (blocks c.nameSpace + c.containingDeclarations.length + 1) f.text
      (notifyMembers c) := by
  simp only [renderNotify, Option.ite_none_left_eq_some, Option.some.injEq] at hf
  obtain ⟨hnested, -, rfl⟩ := hf
  have haround : c.containingDeclarations.length = 0 := by
    simpa [ScannedClass.isNested] using hnested
  rw [haround, Nat.add_zero, notifyMembers]
  generalize hmargin : (if c.nameSpace == "" then "" else indent) = margin
  have hmargin : IsMargin margin := by
    rw [← hmargin]
    split <;> decide
  have hclass : Tame (margin ++ "public partial class " ++ c.nameWithTypeParameters) := by
    simp +decide [hmargin.tame, h.name]
  have hmembers : Passage (blocks c.nameSpace + 1) (blocks c.nameSpace + 1)
      ((c.membersOf .notifyField).flatMap (notifyLines (margin ++ indent))) _ _ :=
    .flatMap fun m hm => passage_notifyLines (hmargin.append isMargin_indent)
      (h.members m (List.mem_of_mem_filter hm)) _
  have hbody := hmembers.dropEmptyEnd.append (.closing hmargin .nil)
  have hfile := (passage_moreUsings (by omega)).append <|
    passage_inBlock h.nameSpace (by omega) <|
      .outside (hclass.codes _) (by omega) (.opening hmargin hbody)
  have hend (front : List String) :
      EndsFilled (front ++ [margin ++ "\x7d"] ++ if c.nameSpace == "" then [] else ["\x7d"]) := by
    split
    · rw [List.append_nil]
      exact (endsFilled_brace margin).append front
    · exact (endsFilled_brace "").append _
  refine Passage.declares ?_ (hend _) _
  simpa using hfile

theorem TameSlot.slotType {s : SingletonSlot} (h : TameSlot s) : Tame s.slotType := by
  rw [SingletonSlot.slotType]
  cases hrecord : s.record with
  | none => exact (by decide : Tame "Node")
  | some r => exact (h.record r hrecord).2.2

theorem codes_slotLine {s : SingletonSlot} (h : TameSlot s) (d : Nat) : Codes d (slotLine s) d := by
  have haccessors : " \x7b get; set; \x7d = null!;" =
      " " ++ "\x7b" ++ " get; set; " ++ "\x7d" ++ " = null!;" := rfl
  have htame : Tame (indent ++ "public static " ++ s.slotType ++ " " ++ s.name) := by
    simp +decide [h.slotType, h.name]
  rw [slotLine, haccessors]
  exact (htame.codes d).append <| (((((Tame.codes (by decide) d).append (.opening d)).append
    (Tame.codes (by decide) (d + 1))).append (.closing d)).append (Tame.codes (by decide) d))

theorem codes_resolveLine {s : SingletonSlot} (h : TameSlot s) (d : Nat) :
    Codes d (resolveLine s) d := by
  have htame : Tame (indent2 ++ s.name ++ " ??= node.GetNode(") := by
    simp +decide [h.name]
  exact ((htame.codes d).append (codes_stringLiteral d _)).append (Tame.codes (by decide) d)

theorem isDeclaration_slotLine (s : SingletonSlot) : isDeclaration (slotLine s) = true := by
  simp only [slotLine, isDeclaration, firstChar?_append]
  rfl

def registryMembers (r : SingletonRegistry) : List String :=
  r.slots.map slotLine ++ [indent ++ "public static void ResolveOthers(Node node)"]

theorem declares_registry {r : SingletonRegistry} {f : GeneratedFragment}
    (h : ∀ s ∈ r.slots, TameSlot s) (hf : renderRegistry r = some f) :
    Declares 1 f.text (registryMembers r) := by
  simp only [renderRegistry, Option.ite_none_right_eq_some, Option.some.injEq] at hf
  obtain ⟨-, rfl⟩ := hf
  have hslots : Passage 1 1 (r.slots.map slotLine) 1 (r.slots.map slotLine) := by
    refine .declarations fun line hline => ?_
    obtain ⟨s, hs, rfl⟩ := List.mem_map.mp hline
    exact ⟨codes_slotLine (h s hs) 1, isDeclaration_slotLine s⟩
  have hresolved : Passage 1 2 ((r.slots.filter (!·.isTyped)).map resolveLine) 2 [] := by
    refine .outsides (fun line hline => ?_) (by omega)
    obtain ⟨s, hs, rfl⟩ := List.mem_map.mp hline
    exact codes_resolveLine (h s (List.mem_of_mem_filter hs)) 2
  have hmethod : Passage 1 1 _ 0 [indent ++ "public static void ResolveOthers(Node node)"] :=
    .empty <| .member (Tame.codes (by decide) 1) (by decide) <| .opening isMargin_indent <|
    hresolved.append <| .closing isMargin_indent <| .endBrace .nil
  have hname : Tame ("public partial class " ++ registryClass) := by decide
  have hclass := (passage_usings Nat.zero_ne_one).append <|
    .outside (hname.codes 0) Nat.zero_ne_one <| .brace <| hslots.append hmethod
  have hend (front : List String) : EndsFilled (front ++ [indent ++ "\x7d", "\x7d"]) :=
    ((endsFilled_brace "").append [indent ++ "\x7d"]).append front
  refine Passage.declares ?_ (hend _) _
  simpa [registryMembers] using hclass

/-- The hooks, the constructor and the callback of a singleton. -/
def singletonMembers (r : SingletonRecord) : List String :=
  [indent ++ "partial void OnInit();", indent ++ "public " ++ r.name ++ "()",
    indent ++ "partial void OnReady();", indent ++ "public new void ReadyCallback()"]

theorem endsFilled_singletonLines (slot : String) (r : SingletonRecord) :
    EndsFilled (singletonLines slot r) :=
  ⟨"\x7d", '\x7d', by rw [singletonLines, List.getLast?_append]; rfl, by decide, by decide⟩

theorem passage_singletonLines {slot : String} {r : SingletonRecord} (hslot : Tame slot)
    (hspace : Tame r.nameSpace) (hrecord : Tame r.name) :
    Passage 1 0 (singletonLines slot r) 0 (singletonMembers r) := by
  have hstart : Passage 1 2 ((if r.baseIsSingleton then [indent2 ++ "Ready -= base.ReadyCallback;"]
      else []) ++ [indent2 ++ "Ready += ReadyCallback;", indent2 ++ "OnInit();"]) 2 [] := by
    refine .code ?_ (by omega)
    split <;> decide
  have hcallback : Passage 1 2 [indent2 ++ registryClass ++ "." ++ slot ++ " = this;",
      indent2 ++ registryClass ++ ".ResolveOthers(this);", indent2 ++ "OnReady();"] 2 [] :=
    .code (by simp +decide [hslot]) (by omega)
  have hconstructor : Tame (indent ++ "public " ++ r.name ++ "()") := by
    simp +decide [hrecord]
  have hconstructor' : isDeclaration (indent ++ "public " ++ r.name ++ "()") = true := by
    simp only [isDeclaration, firstChar?_append]
    rfl
  have hdisable : Codes 1 "#pragma warning disable CS0109" 1 := Tame.codes (by decide) 1
  have hrestore : Codes 1 "#pragma warning restore CS0109" 1 := Tame.codes (by decide) 1
  have hmembers : Passage 1 1 _ 0 (singletonMembers r) :=
    .member (Tame.codes (by decide) 1) (by decide) <|
    .member (hconstructor.codes 1) hconstructor' <| .opening isMargin_indent <| hstart.append <|
    .closing isMargin_indent <| .empty <| .other hdisable.leadsTo (.inr rfl) <|
    .member (Tame.codes (by decide) 1) (by decide) <|
    .member (Tame.codes (by decide) 1) (by decide) <| .opening isMargin_indent <|
    hcallback.append <| .closing isMargin_indent <| .other hrestore.leadsTo (.inr rfl) <|
    .endBrace .nil
  have hname : Tame ("public partial class " ++ r.name) := by
    simp +decide [hrecord]
  have hfile := ((passage_usings Nat.zero_ne_one).append
    (passage_fileNamespace hspace Nat.zero_ne_one)).append <|
    .outside (hname.codes 0) Nat.zero_ne_one <| .brace hmembers
  simpa [singletonLines] using hfile

theorem declares_singleton {s : SingletonSlot} {r : SingletonRecord} {f : GeneratedFragment}
    (h : TameSlot s) (hr : s.record = some r) (hf : renderSingleton s = some f) :
    Declares 1 f.text (singletonMembers r) := by
  rw [renderSingleton, hr, Option.map_some, Option.some.injEq] at hf
  subst hf
  obtain ⟨hspace, hrecord, -⟩ := h.record r hr
  exact (passage_singletonLines h.name hspace hrecord).declares (endsFilled_singletonLines _ r) _

theorem codes_inputActionLine (e : Manifest.Entry) (d : Nat) : Codes d (inputActionLine e) d := by
  have hname : Tame
      (indent ++ "public static readonly StringName " ++ identifier e.name ++ " = ") := by
    simp +decide [tame_identifier]
  exact ((hname.codes d).append (codes_stringLiteral d e.name)).append (Tame.codes (by decide) d)

theorem isDeclaration_inputActionLine (e : Manifest.Entry) :
    isDeclaration (inputActionLine e) = true := by
  simp only [inputActionLine, isDeclaration, firstChar?_append]
  rfl

def inputActionMembers (entries : List Manifest.Entry) : List String :=
  (entries.mergeSort fun a b => a.name ≤ b.name).map inputActionLine

theorem declares_inputActions {entries : List Manifest.Entry} {f : GeneratedFragment}
    (hf : renderInputActions entries = some f) :
    Declares 1 f.text (inputActionMembers entries) := by
  simp only [renderInputActions, Option.ite_none_left_eq_some, Option.some.injEq] at hf
  obtain ⟨-, rfl⟩ := hf
  have hactions : Passage 1 1 (inputActionMembers entries) 1 (inputActionMembers entries) := by
    refine .declarations fun line hline => ?_
    obtain ⟨e, -, rfl⟩ := List.mem_map.mp hline
    exact ⟨codes_inputActionLine e 1, isDeclaration_inputActionLine e⟩
  have hname : Tame "public partial class InputActionName" := by decide
  have hfile := (passage_usings Nat.zero_ne_one).append <|
    .outside (hname.codes 0) Nat.zero_ne_one <| .brace <| hactions.append (.endBrace .nil)
  refine Passage.declares ?_ ((endsFilled_brace "").append _) _
  simpa [inputActionMembers] using hfile

theorem passage_connectionLines {call : String} {k : Scene.Connection} (hcall : Tame call)
    (hk : TameConnection k) : Passage 1 2 (connectionLines call k) 2 [] := by
  have hcomment : OneLine ("// " ++ (k.scenePath ++ " - FromNode: " ++ k.fromNode ++
      " - Signal: " ++ k.signal)) := by
    simp +decide [hk.scenePath, hk.fromNode, hk.signal]
  have hleads := leadsTo_comment 2 isMargin_indent2.tame (by decide) hcomment
  have hline : Tame (indent2 ++ call) := tame_append.mpr ⟨isMargin_indent2.tame, hcall⟩
  have hlines : Passage 1 2 ["", indent2 ++ ("// " ++ (k.scenePath ++ " - FromNode: " ++
      k.fromNode ++ " - Signal: " ++ k.signal)), indent2 ++ call] 2 [] :=
    .empty <| .other hleads (.inl (by omega)) <| .outside (hline.codes 2) (by omega) .nil
  simpa [connectionLines, String.append_assoc] using hlines

/-- The method that refers to the handlers, and the end of its class. -/
theorem passage_connectionMethod {r : ClassRecord} {connections : List Scene.Connection}
    (h : TameRecord r) (hconnections : ∀ k ∈ connections, TameConnection k) :
    Passage 1 1 ((indent ++ "public void GetMethodConnectionTscnList()") :: (indent ++ "\x7b") ::
      (indent2 ++ "return;") :: (r.methods.flatMap (methodConnections connections) ++
        [indent ++ "\x7d", "\x7d"])) 0 [indent ++ "public void GetMethodConnectionTscnList()"] := by
  have hbody : Passage 1 2 (r.methods.flatMap (methodConnections connections)) 2 [] := by
    refine .flatMap_of_nil fun p hp => .flatMap_of_nil fun k hk => ?_
    obtain ⟨m, hcall, hname, htypes⟩ := h.methods p hp
    exact passage_connectionLines (hcall ▸ tame_methodCall hname htypes)
      (hconnections k (List.mem_of_mem_filter hk))
  have hreturn : Tame (indent2 ++ "return;") := by decide
  exact .member (Tame.codes (by decide) 1) (by decide) <| .opening isMargin_indent <|
    .outside (hreturn.codes 2) (by omega) <| hbody.append <| .closing isMargin_indent <|
    .endBrace .nil

theorem declares_connectionList {r : ClassRecord} {connections : List Scene.Connection}
    {f : GeneratedFragment} (h : TameRecord r)
    (hconnections : ∀ k ∈ connections, TameConnection k)
    (hf : renderConnectionList r connections = some f) :
    Declares 1 f.text [indent ++ "public void GetMethodConnectionTscnList()"] := by
  simp only [renderConnectionList, Option.ite_none_left_eq_some, Option.some.injEq] at hf
  obtain ⟨-, rfl⟩ := hf
  have hmembers := passage_connectionMethod h hconnections
  have hendif : LeadsTo 0 "#endif // TOOLS" 0 := by
    have htext : "#endif // TOOLS" = "#endif " ++ ("// TOOLS" ++ "") := rfl
    rw [htext]
    exact leadsTo_comment 0 (by decide) (by decide) (by decide)
  have hdirectives : ∀ line ∈ ["#pragma warning disable CS0162", "#if TOOLS",
      "#pragma warning restore CS0162", "public partial class " ++ r.name], Tame line := by
    simp +decide [h.name]
  simp only [List.forall_mem_cons] at hdirectives
  obtain ⟨hdisable, hif, hrestore, hname, -⟩ := hdirectives
  have hfile := (((passage_moreUsings Nat.zero_ne_one).append
    (passage_fileNamespace h.nameSpace Nat.zero_ne_one)).append <|
    .outside (hdisable.codes 0) Nat.zero_ne_one <| .outside (hif.codes 0) Nat.zero_ne_one <|
    .outside (hname.codes 0) Nat.zero_ne_one <| .brace hmembers).append <|
    .other hendif (.inl Nat.zero_ne_one) <| .outside (hrestore.codes 0) Nat.zero_ne_one .nil
  have hend (front : List String) : EndsFilled (front ++ [indent ++ "\x7d", "\x7d",
      "#endif // TOOLS", "#pragma warning restore CS0162"]) :=
    ⟨"#pragma warning restore CS0162", '2', by rw [List.getLast?_append]; rfl, by decide,
      by decide⟩
  refine Passage.declares ?_ (hend _) _
  simpa using hfile

/-- A renderer returns a fragment for an input with tame names. In the fragment a number of
namespaces with braces and a number of declarations are written around the class, and the class has
these members. The file of a singleton, of the registry, of input actions or of connections puts
nothing with braces around its class. -/
inductive Rendered : GeneratedFragment → Nat → Nat → List String → Prop
  | helpers {c : ScannedClass} {f : GeneratedFragment} (h : TameClass c)
      (hf : renderHelpers c = .ok (some f)) :
      Rendered f (blocks c.nameSpace) c.containingDeclarations.length (helperMembers c)
  | notify {c : ScannedClass} {f : GeneratedFragment} (h : TameClass c)
      (hf : renderNotify c = some f) :
      Rendered f (blocks c.nameSpace) c.containingDeclarations.length (notifyMembers c)
  | registry {r : SingletonRegistry} {f : GeneratedFragment} (h : ∀ s ∈ r.slots, TameSlot s)
      (hf : renderRegistry r = some f) : Rendered f 0 0 (registryMembers r)
  | singleton {s : SingletonSlot} {r : SingletonRecord} {f : GeneratedFragment} (h : TameSlot s)
      (hr : s.record = some r) (hf : renderSingleton s = some f) :
      Rendered f 0 0 (singletonMembers r)
  | inputActions {entries : List Manifest.Entry} {f : GeneratedFragment}
      (hf : renderInputActions entries = some f) : Rendered f 0 0 (inputActionMembers entries)
  | connectionList {r : ClassRecord} {connections : List Scene.Connection} {f : GeneratedFragment}
      (h : TameRecord r) (hconnections : ∀ k ∈ connections, TameConnection k)
      (hf : renderConnectionList r connections = some f) :
      Rendered f 0 0 [indent ++ "public void GetMethodConnectionTscnList()"]

/-- Every fragment closes the braces that it opens and no others, and the members of its class begin
one level inside of all that is around them. -/
theorem rendered_declares {f : GeneratedFragment} {blocks around : Nat} {members : List String}
    (h : Rendered f blocks around members) : Declares (blocks + around + 1) f.text members := by
  cases h with
  | helpers h hf => exact declares_helpers h hf
  | notify h hf => exact declares_notify h hf
  | registry h hf => exact declares_registry h hf
  | singleton h hr hf => exact declares_singleton h hr hf
  | inputActions hf => exact declares_inputActions hf
  | connectionList h hconnections hf => exact declares_connectionList h hconnections hf

namespace PauseMenu

/-- The path that the accessor looks up would close a brace and begin a comment. -/
def members : List DeclaredMember :=
  [{ kind := .accessor, owner := "Game.Ui.PauseMenu", name := "title", type := "Label"
     markerArgs := [.text "\x7d\"\\//"], symbolKind := "field" },
   { kind := .remoteCall, owner := "Game.Ui.PauseMenu", name := "Open", type := "void"
     parameters := [("page", "int")] },
   { kind := .eventEmit, owner := "Game.Ui.PauseMenu", name := "ClosedEventHandler"
     type := "void" }]

def cls : ScannedClass where
  qualifiedName := "Game.Ui.PauseMenu"
  name := "PauseMenu"
  nameSpace := "Game"
  nameWithTypeParameters := "PauseMenu"
  hintName := "Game.Ui.PauseMenu"
  containingDeclarations := [("class", "Ui")]
  derivesFromRoot := true
  members := members

theorem tame : TameClass cls where
  nameSpace := by decide
  name := by decide
  around := by decide
  members m hm := by
    simp only [cls, members, List.mem_cons, List.not_mem_nil, or_false] at hm
    rcases hm with rfl | rfl | rfl <;> exact ⟨by decide, by decide, by decide, by decide⟩

end PauseMenu

theorem rendered_declares_pauseMenu : ∃ f, Rendered f 1 1 (helperMembers PauseMenu.cls) ∧
    Declares 3 f.text ["    public void GetNodes()", "    public void RpcOpen(int page)",
      "    public void RpcOpen(long peerId, int page)", "    public void EmitClosed()"] := by
  have hrendered : ∃ f, renderHelpers PauseMenu.cls = .ok (some f) := ⟨_, rfl⟩
  obtain ⟨f, hf⟩ := hrendered
  have hmembers : helperMembers PauseMenu.cls = ["    public void GetNodes()",
      "    public void RpcOpen(int page)", "    public void RpcOpen(long peerId, int page)",
      "    public void EmitClosed()"] := by decide
  have h : Rendered f 1 1 (helperMembers PauseMenu.cls) := .helpers PauseMenu.tame hf
  exact ⟨f, h, hmembers ▸ rendered_declares h⟩

end SceneCodegen.Fragment
