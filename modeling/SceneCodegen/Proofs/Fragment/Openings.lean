import SceneCodegen.Fragment.ConnectionList
import SceneCodegen.Fragment.Notify
import SceneCodegen.Fragment.Registry
import SceneCodegen.Proofs.Fragment.Heads
import SceneCodegen.Proofs.Fragment.Refusal

/-!
# What the fragments of a class open

Each renderer writes a head of its own. Those of helpers and of notify properties are made from the
declarations around a class and its name with type parameters; those of singletons and of connection
lists only from its namespace and its plain name.
-/
namespace SceneCodegen.Fragment

/-- A name that can stand in any head. -/
def Legible (name : String) : Prop := ∀ c ∈ name.toList, c ≠ '\n' ∧ c ≠ ';' ∧ c ≠ '\x7b'

instance (name : String) : Decidable (Legible name) :=
  inferInstanceAs (Decidable (∀ c ∈ name.toList, _))

theorem Legible.oneLine {name : String} (h : Legible name) : '\n' ∉ name.toList :=
  fun hmem => (h '\n' hmem).1 rfl

/-- A namespace, unless it is the global one. -/
def spaces (nameSpace : String) : List String := if nameSpace == "" then [] else [nameSpace]

theorem opens_usings : Opens ["using Godot;", "using System;", ""] [] :=
  .passed (by decide)

theorem opens_moreUsings :
    Opens ["using Godot;", "using System;", "using System.Collections.Generic;", ""] [] :=
  .passed (by decide)

theorem opens_helperUsings : Opens ["using Godot;", "using Godot.NativeInterop;", ""] [] :=
  .passed (by decide)

theorem opens_brace : Opens ["\x7b"] [] := .passed (by decide)

theorem opens_fileNamespace {nameSpace : String} (h : Legible nameSpace) :
    Opens (fileNamespace nameSpace) (spaces nameSpace) := by
  unfold fileNamespace spaces
  split
  · exact .nil
  · have hline : Opens ["namespace " ++ nameSpace ++ ";"] [nameSpace] := by
      refine .line (by simp [h.oneLine]) ?_
      rw [String.toList_append, String.toList_append, List.append_assoc]
      exact headNames?_fileNamespace nameSpace.toList
    exact hline.append (.passed (by decide))

theorem opens_braced {nameSpace : String} (h : Legible nameSpace) :
    Opens (if nameSpace == "" then [] else ["namespace " ++ nameSpace ++ " \x7b", ""])
      (spaces nameSpace) := by
  unfold spaces
  split
  · exact .nil
  · have hline : Opens ["namespace " ++ nameSpace ++ " \x7b"] [nameSpace] := by
      refine .line (by simp [h.oneLine]) ?_
      rw [String.toList_append, String.toList_append, List.append_assoc]
      exact headNames?_braced nameSpace.toList
    exact hline.append (.passed (by decide))

theorem opens_bare {nameSpace : String} (h : Legible nameSpace) :
    Opens (if nameSpace == "" then [] else ["namespace " ++ nameSpace, "\x7b"])
      (spaces nameSpace) := by
  unfold spaces
  split
  · exact .nil
  · have hline : Opens ["namespace " ++ nameSpace] [nameSpace] := by
      refine .line (by simp [h.oneLine]) ?_
      rw [String.toList_append]
      exact headNames?_bare ⟨fun hmem => (h _ hmem).2.1 rfl, fun hmem => (h _ hmem).2.2 rfl⟩
    exact hline.append opens_brace

theorem opens_partial {keyword name : String} (hkeyword : keyword ∈ typeKeywords)
    (h : Legible name) : Opens ["partial " ++ keyword ++ " " ++ name, "\x7b"] [name] := by
  have hline : Opens ["partial " ++ keyword ++ " " ++ name] [name] := by
    refine .line ?_ ?_
    · have hplain : '\n' ∉ keyword.toList := by
        simp only [typeKeywords, List.mem_cons, List.not_mem_nil, or_false] at hkeyword
        rcases hkeyword with rfl | rfl | rfl | rfl <;> decide
      simp [h.oneLine, hplain]
    · rw [String.toList_append, String.toList_append, String.toList_append, List.append_assoc,
        List.append_assoc, ← List.append_assoc keyword.toList]
      exact headNames?_partial hkeyword name.toList
  exact hline.append opens_brace

theorem opens_containing {around : List (String × String)}
    (h : ∀ d ∈ around, d.1 ∈ typeKeywords ∧ Legible d.2) :
    Opens (around.flatMap fun (keyword, name) => ["partial " ++ keyword ++ " " ++ name, "\x7b"])
      (around.map Prod.snd) := by
  induction around with
  | nil => exact .nil
  | cons d around ih =>
    obtain ⟨hkeyword, hname⟩ := h d List.mem_cons_self
    exact (opens_partial hkeyword hname).append (ih fun e he => h e (List.mem_cons_of_mem d he))

theorem opens_publicPartial {margin name : String} (hmargin : margin = "" ∨ margin = indent)
    (h : Legible name) :
    Opens [margin ++ "public partial class " ++ name, margin ++ "\x7b"] [name] := by
  have hblank : ∃ n, margin.toList = List.replicate n ' ' := by
    rcases hmargin with rfl | rfl
    · exact ⟨0, rfl⟩
    · exact ⟨4, rfl⟩
  obtain ⟨n, hn⟩ := hblank
  have hline : Opens [margin ++ "public partial class " ++ name] [name] := by
    refine .line (by simp [hn, h.oneLine]) ?_
    rw [String.toList_append, String.toList_append, List.append_assoc, hn, headNames?_indented]
    exact headNames?_publicPartial name.toList
  refine hline.append (.passed ?_)
  rcases hmargin with rfl | rfl <;> decide

theorem ends_accessors : Ends (indent ++ "public void GetNodes()") where
  oneLine := by decide
  last := ⟨')', by decide⟩
  stops _ := rfl

theorem ends_documentation : Ends (indent ++ "/// <inheritdoc cref=\"") where
  oneLine := by decide
  last := ⟨'"', by decide⟩
  stops _ := rfl

theorem ends_hook : Ends (indent ++ "partial void OnInit();") where
  oneLine := by decide
  last := ⟨';', by decide⟩
  stops _ := rfl

theorem ends_listing : Ends (indent ++ "public void GetMethodConnectionTscnList()") where
  oneLine := by decide
  last := ⟨')', by decide⟩
  stops _ := rfl

theorem ends_event {margin : String} (h : margin = "" ∨ margin = indent) :
    Ends (margin ++ indent ++ "public event Action<") := by
  rcases h with rfl | rfl
  · exact ⟨by decide, ⟨'<', by decide⟩, fun _ => rfl⟩
  · exact ⟨by decide, ⟨'<', by decide⟩, fun _ => rfl⟩

/-- The fragment of a singleton opens its plain name in its namespace. -/
theorem openedType_singleton {slot : SingletonSlot} {r : SingletonRecord} {f : GeneratedFragment}
    (hrecord : slot.record = some r) (hspace : Legible r.nameSpace) (hname : Legible r.name)
    (h : renderSingleton slot = some f) :
    openedType f.text = Text.join "." (spaces r.nameSpace ++ [r.name]) := by
  rw [renderSingleton, hrecord, Option.map_some, Option.some.injEq] at h
  have hopens := (opens_usings.append (opens_fileNamespace hspace)).append
    (opens_publicPartial (.inl rfl) hname)
  obtain ⟨body, hbody⟩ : ∃ body, singletonLines slot.name r =
      (["using Godot;", "using System;", ""] ++ fileNamespace r.nameSpace ++
        ["" ++ "public partial class " ++ r.name, "" ++ "\x7b"]) ++
          ((indent ++ "partial void OnInit();") ++ "") :: body := by
    refine ⟨?_, ?lines⟩
    case lines =>
      simp only [singletonLines, String.empty_append, String.append_empty, List.append_assoc,
        List.cons_append, List.nil_append]
      rfl
  rw [← h, hbody]
  exact openedType_ofLines r.hintName hopens ends_hook "" body

/-- The connection list of a class opens its plain name in its namespace. -/
theorem openedType_connectionList {r : ClassRecord} {connections : List Scene.Connection}
    {f : GeneratedFragment} (hspace : Legible r.nameSpace) (hname : Legible r.name)
    (h : renderConnectionList r connections = some f) :
    openedType f.text = Text.join "." (spaces r.nameSpace ++ [r.name]) := by
  simp only [renderConnectionList, Option.ite_none_left_eq_some, Option.some.injEq] at h
  have hpragmas : Opens ["#pragma warning disable CS0162", "#if TOOLS"] [] :=
    .passed (by decide)
  have hopens := ((opens_moreUsings.append (opens_fileNamespace hspace)).append hpragmas).append
    (opens_publicPartial (.inl rfl) hname)
  have hfile := openedType_ofLines (r.hintName ++ "_GodotHelper_ConnectionTscn.g.cs") hopens
    ends_listing "" ([indent ++ "\x7b", indent2 ++ "return;"] ++
      r.methods.flatMap (methodConnections connections) ++
      [indent ++ "\x7d", "\x7d", "#endif // TOOLS", "#pragma warning restore CS0162"])
  rw [← h.2]
  simpa using hfile

theorem renderHelpers_eq_some {c : ScannedClass} {f : GeneratedFragment}
    (h : renderHelpers c = .ok (some f)) :
    ∃ s : HelperState, ({} : HelperState).addAll c.members = .ok s ∧
      s.isEmpty = false ∧ f = ofLines (c.hintName ++ "_GodotHelper.g.cs") (helperLines c s) := by
  rw [renderHelpers_eq] at h
  split at h
  · cases hall : ({} : HelperState).addAll c.members with
    | error d => simp [hall, bind, Except.bind] at h
    | ok s =>
      cases hempty : s.isEmpty with
      | true => simp [hall, hempty, bind, Except.bind, pure, Except.pure] at h
      | false =>
        simp only [hall, bind, Except.bind, pure, Except.pure, hempty, Bool.false_eq_true, if_false,
          Except.ok.injEq, Option.some.injEq] at h
        exact ⟨s, rfl, hempty, h.symm⟩
  · cases h

namespace HelperState

/-- Wrappers begin with their documentation. -/
def Documented (s : HelperState) : Prop :=
  ∀ line, s.wrapperLines.head? = some line →
    ∃ rest, line = indent ++ "/// <inheritdoc cref=\"" ++ rest

theorem documented_append {s : HelperState} (h : s.Documented) {lines : List String}
    (hlines : ∀ line, lines.head? = some line →
      ∃ rest, line = indent ++ "/// <inheritdoc cref=\"" ++ rest) :
    Documented { s with wrapperLines := s.wrapperLines ++ lines } := by
  intro line hline
  rw [List.head?_append] at hline
  cases hhead : s.wrapperLines.head? with
  | some first =>
    rw [hhead, Option.some_or] at hline
    exact h line (hhead.trans hline)
  | none =>
    rw [hhead, Option.none_or] at hline
    exact hlines line hline

theorem wrapper_documented (documented header statement : String) (more : List String) :
    ∀ line, (wrapper documented header statement ++ more).head? = some line →
      ∃ rest, line = indent ++ "/// <inheritdoc cref=\"" ++ rest := by
  intro line hline
  rw [wrapper, List.cons_append, List.head?_cons, Option.some.injEq] at hline
  exact ⟨documented ++ "\"/>", by rw [← hline, String.append_assoc, String.append_assoc]⟩

theorem Documented.add {s s' : HelperState} {m : DeclaredMember} (h : s.Documented)
    (hadd : s.add m = .ok s') : s'.Documented := by
  unfold HelperState.add at hadd
  split at hadd
  · unfold addAccessor at hadd
    split at hadd
    · cases hadd
    · cases hadd
      split <;> exact h
  · cases hadd
    exact documented_append h (wrapper_documented _ _ _ _)
  · split at hadd
    · cases hadd
    · cases hadd
      refine documented_append h ?_
      rw [eventLines, ← List.append_nil (wrapper _ _ _)]
      exact wrapper_documented _ _ _ []
  · cases hadd
    exact h
  · cases hadd
    exact h

theorem Documented.addAll {s s' : HelperState} {members : List DeclaredMember} (h : s.Documented)
    (hadd : s.addAll members = .ok s') : s'.Documented := by
  induction members generalizing s with
  | nil =>
    cases hadd
    exact h
  | cons m members ih =>
    rw [HelperState.addAll, List.foldlM_cons] at hadd
    cases hm : s.add m with
    | error d => simp [hm, bind, Except.bind] at hadd
    | ok next =>
      rw [hm] at hadd
      exact ih (h.add hm) hadd

/-- The first line of the members of a file with helpers. -/
theorem Documented.exists_lines {s : HelperState} (h : s.Documented) (hfilled : s.isEmpty = false) :
    ∃ word rest more, Ends word ∧ s.accessorMethod ++ s.wrapperLines = (word ++ rest) :: more := by
  unfold accessorMethod
  cases haccessors : s.hasAccessors with
  | true =>
    refine ⟨_, "", ?_, ends_accessors, ?lines⟩
    case lines =>
      rw [String.append_empty]
      rfl
  | false =>
    cases hlines : s.wrapperLines with
    | nil => simp [isEmpty, haccessors, hlines] at hfilled
    | cons line more =>
      obtain ⟨rest, hrest⟩ := h line (by rw [hlines]; rfl)
      exact ⟨_, rest, more, ends_documentation, by simp [hrest]⟩

end HelperState

/-- Empty lines are dropped after the last line that is not. -/
theorem dropEmptyEnd_append {front : List String} {line : String} (hline : line ≠ "")
    (more : List String) :
    dropEmptyEnd (front ++ line :: more) = front ++ line :: dropEmptyEnd more := by
  have hend : (front ++ [line]).getLast? = some line := List.getLast?_concat
  have hdrop := Text.dropEnd_append (p := fun l => l == "") hend (by simpa using hline) more
  simpa [dropEmptyEnd] using hdrop

theorem mem_dropEmptyEnd {line : String} (hne : line ≠ "") {lines : List String}
    (h : line ∈ lines) : line ∈ dropEmptyEnd lines := by
  obtain ⟨front, more, rfl⟩ := List.append_of_mem h
  rw [dropEmptyEnd_append hne]
  exact List.mem_append_right _ List.mem_cons_self

theorem Ends.append_ne_empty {word : String} (h : Ends word) (rest : String) :
    word ++ rest ≠ "" := by
  obtain ⟨c, hlast, -⟩ := h.last
  intro hempty
  have hchars := congrArg String.toList hempty
  simp only [String.toList_append, String.toList_empty, List.append_eq_nil_iff] at hchars
  rw [hchars.1] at hlast
  cases hlast

/-- A helper fragment opens the name of its class with type parameters, in the declarations around
the class, in its namespace. -/
theorem openedType_helpers {c : ScannedClass} {f : GeneratedFragment}
    (hspace : Legible c.nameSpace)
    (haround : ∀ d ∈ c.containingDeclarations, d.1 ∈ typeKeywords ∧ Legible d.2)
    (hname : Legible c.nameWithTypeParameters) (h : renderHelpers c = .ok (some f)) :
    openedType f.text = Text.join "." (spaces c.nameSpace ++
      c.containingDeclarations.map Prod.snd ++ [c.nameWithTypeParameters]) := by
  obtain ⟨s, hs, hfilled, rfl⟩ := renderHelpers_eq_some h
  have hempty : ({} : HelperState).Documented := fun line hline => by cases hline
  have hdocumented : s.Documented := hempty.addAll hs
  obtain ⟨word, rest, more, hends, hmembers⟩ := hdocumented.exists_lines hfilled
  have hclass : "class" ∈ typeKeywords := by decide
  have hopens := ((opens_helperUsings.append (opens_braced hspace)).append
    (opens_containing haround)).append (opens_partial hclass hname)
  have hfile := openedType_ofLines (c.hintName ++ "_GodotHelper.g.cs") hopens hends rest
    (dropEmptyEnd more ++ ["\x7d"] ++ c.containingDeclarations.map (fun _ => "\x7d") ++
      if c.nameSpace == "" then [] else ["", "\x7d"])
  rw [List.nil_append] at hfile
  rw [← hfile, helperLines, List.append_assoc _ s.accessorMethod, hmembers,
    dropEmptyEnd_append (hends.append_ne_empty rest)]
  simp

/-- The lines of a notify property, if there are any, begin with an event. -/
theorem notifyLines_cases (margin : String) (m : DeclaredMember) : notifyLines margin m = [] ∨
    ∃ rest more, notifyLines margin m = (margin ++ "public event Action<" ++ rest) :: more := by
  rw [notifyLines]
  by_cases hproperty : (pascalCase m.name == "" || pascalCase m.name == m.name) = true
  · exact .inl (if_pos hproperty)
  · refine .inr ⟨m.type ++ ", " ++ m.type ++ "> " ++ pascalCase m.name ++ "Changed;", ?_, ?lines⟩
    case lines =>
      simp only [hproperty, propertyLines, String.append_assoc]
      rfl

theorem exists_notifyLines {margin : String} {members : List DeclaredMember}
    (h : members.flatMap (notifyLines margin) ≠ []) :
    ∃ rest more, members.flatMap (notifyLines margin) =
      (margin ++ "public event Action<" ++ rest) :: more := by
  induction members with
  | nil => exact absurd rfl h
  | cons m members ih =>
    rw [List.flatMap_cons] at h ⊢
    obtain hnone | ⟨rest, more, hlines⟩ := notifyLines_cases margin m
    · rw [hnone, List.nil_append] at h ⊢
      exact ih h
    · exact ⟨rest, _, by rw [hlines, List.cons_append]⟩

/-- A notify fragment opens the name of its class with type parameters in its namespace. -/
theorem openedType_notify {c : ScannedClass} {f : GeneratedFragment} (hspace : Legible c.nameSpace)
    (hname : Legible c.nameWithTypeParameters) (h : renderNotify c = some f) :
    c.isNested = false ∧
      openedType f.text = Text.join "." (spaces c.nameSpace ++ [c.nameWithTypeParameters]) := by
  simp only [renderNotify, Option.ite_none_left_eq_some, Option.some.injEq] at h
  obtain ⟨hnested, hfilled, rfl⟩ := h
  refine ⟨by simpa using hnested, ?_⟩
  obtain ⟨margin, hmargin, hcases⟩ : ∃ margin, (if c.nameSpace == "" then "" else indent) = margin ∧
      (margin = "" ∨ margin = indent) := by
    refine ⟨_, rfl, ?_⟩
    split
    · exact .inl rfl
    · exact .inr rfl
  rw [hmargin] at hfilled ⊢
  obtain ⟨rest, more, hbody⟩ := exists_notifyLines (mt List.isEmpty_iff.mpr hfilled)
  have hends := ends_event hcases
  have hopens := (opens_moreUsings.append (opens_bare hspace)).append
    (opens_publicPartial hcases hname)
  have hfile := openedType_ofLines (c.hintName ++ "_GodotHelperNotify.g.cs") hopens hends rest
    (dropEmptyEnd more ++ [margin ++ "\x7d"] ++ if c.nameSpace == "" then [] else ["\x7d"])
  have hdrop : dropEmptyEnd ([] ++ _ :: more) = _ :=
    dropEmptyEnd_append (hends.append_ne_empty rest) more
  rw [List.nil_append] at hdrop hfile
  rw [← hfile, hbody, hdrop]
  simp

end SceneCodegen.Fragment
