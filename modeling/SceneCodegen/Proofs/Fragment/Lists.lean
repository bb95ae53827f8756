import SceneCodegen.Fragment.ConnectionList
import SceneCodegen.Fragment.Registry
import SceneCodegen.Proofs.Fragment.Heads
import SceneCodegen.Proofs.Fragment.Literals

/-!
# Lists in files

The registry declares its slots and assigns those without a class, one on each line, and the list of
connections has a group of lines for each. What is listed is read off the text: the lines of a block
are those between the one that opens it and the one that closes it.
-/
namespace SceneCodegen.Fragment

/-- The text of a file with these lines, all of which are ended. -/
def ended (lines : List String) : String := .join (lines.map (· ++ "\n"))

/-- The lines of a text after the first that is `opening` and before the next that is `closing`. -/
def linesBetween (opening closing text : String) : List String :=
  (((Text.split '\n' text).dropWhile (· != opening)).drop 1).takeWhile (· != closing)

/-- The text between two others that a line begins and ends with. -/
def between? (front back line : String) : Option String :=
  (line.toList.dropPrefix? front.toList).bind fun rest =>
    (rest.dropSuffix? back.toList).map String.ofList

section
variable {lines front block back : List String} {opening closing : String}

theorem text_ofLines (hintName : String) (hend : EndsFilled lines) :
    ofLines hintName lines = ⟨hintName, ended lines⟩ := by
  have htext : (ofLines hintName lines).text = ended lines := by
    rw [← String.toList_inj, toList_ofLines hintName hend, ended, String.toList_join]
    simp [List.flatMap_map, String.toList_append]
  rw [← htext]
  rfl

theorem split_ended (hplain : ∀ line ∈ lines, '\n' ∉ line.toList) :
    Text.split '\n' (ended lines) = lines ++ [""] := by
  have hchars : (ended lines).toList = (lines.map String.toList).flatMap (· ++ ['\n']) ++ [] := by
    rw [ended, String.toList_join, List.append_nil]
    simp [List.flatMap_map, String.toList_append]
  rw [Text.split, hchars, Text.fields_flatMap (by simpa using hplain)]
  simp [Text.fields, Function.comp_def]

theorem linesBetween_ended
    (hplain : ∀ line ∈ front ++ opening :: (block ++ closing :: back), '\n' ∉ line.toList)
    (hfront : opening ∉ front) (hblock : closing ∉ block) :
    linesBetween opening closing (ended (front ++ opening :: (block ++ closing :: back))) =
      block := by
  have hpass {l : List String} {line : String} (h : line ∉ l) : ∀ x ∈ l, (x != line) = true :=
    fun x hx => bne_iff_ne.mpr fun he => h (he ▸ hx)
  rw [linesBetween, split_ended hplain, List.append_assoc,
    List.dropWhile_append_of_pos (hpass hfront), List.cons_append,
    List.dropWhile_cons_of_neg (by simp), List.drop_one, List.tail_cons, List.append_assoc,
    List.takeWhile_append_of_pos (hpass hblock), List.cons_append,
    List.takeWhile_cons_of_neg (by simp), List.append_nil]

end

theorem between?_append (front middle back : String) :
    between? front back (front ++ middle ++ back) = some middle := by
  rw [between?, String.toList_append, String.toList_append, List.append_assoc, dropPrefix?_append,
    Option.bind_some, dropSuffix?_append, Option.map_some, String.ofList_toList]

def declarations (slots : List SingletonSlot) : List String :=
  slots.map fun s =>
    "    public static " ++ s.slotType ++ " " ++ s.name ++ " \x7b get; set; \x7d = null!;"

def assignments (slots : List SingletonSlot) : List String :=
  (slots.filter (·.record.isNone)).map fun s =>
    "        " ++ s.name ++ " ??= node.GetNode(" ++ stringLiteral ("/root/" ++ s.name) ++ ");"

def registryLines (slots : List SingletonSlot) : List String :=
  ["using Godot;", "using System;", "", "public partial class AutoLoad"] ++
    "\x7b" :: (declarations slots ++
    "" :: ("    public static void ResolveOthers(Node node)" ::
    "    \x7b" :: (assignments slots ++ "    \x7d" :: ["\x7d"])))

/-- The type and the name that a line declares a slot with. -/
def declaredSlot? : String → Option String :=
  between? "    public static " " \x7b get; set; \x7d = null!;"

/-- The slot that a line assigns, and the path of the node that it looks up for it. -/
def assignedSlot? (line : String) : Option (String × String) :=
  (Text.cutAt '=' line.toList).bind fun (target, source) =>
    (between? "        " " ??" (.ofList target)).bind fun name =>
      (source.dropPrefix? " node.GetNode(".toList).bind fun call =>
        (readLiteral (.ofList call)).bind fun (path, rest) =>
          if rest = ");" then some (name, path) else none

/-- A text declares each of some slots once, in their order, and assigns just those without a class,
each with the node of its name under the root. -/
structure ListsSlots (text : String) (slots : List SingletonSlot) : Prop where
  text_eq : text = ended (registryLines slots)
  declared : (∀ s ∈ slots, '\n' ∉ s.slotType.toList) →
    (linesBetween "\x7b" "" text).map declaredSlot? =
      slots.map fun s => some (s.slotType ++ " " ++ s.name)
  assigned : (∀ s ∈ slots, '\n' ∉ s.slotType.toList) →
    (linesBetween "    \x7b" "    \x7d" text).map assignedSlot? =
      (slots.filter (·.record.isNone)).map fun s => some (s.name, "/root/" ++ s.name)

theorem declaredSlot?_line (type name : String) :
    declaredSlot? ("    public static " ++ type ++ " " ++ name ++ " \x7b get; set; \x7d = null!;") =
      some (type ++ " " ++ name) := by
  have hline : "    public static " ++ type ++ " " ++ name ++ " \x7b get; set; \x7d = null!;" =
      "    public static " ++ (type ++ " " ++ name) ++ " \x7b get; set; \x7d = null!;" := by
    simp only [String.append_assoc]
  rw [declaredSlot?, hline, between?_append]

theorem assignedSlot?_line {name : String} (hname : OneLine name) (hequals : '=' ∉ name.toList) :
    assignedSlot? ("        " ++ name ++ " ??= node.GetNode(" ++ stringLiteral ("/root/" ++ name) ++
      ");") = some (name, "/root/" ++ name) := by
  have hroot : OneLine ("/root/" ++ name) := oneLine_append.mpr ⟨by decide, hname⟩
  have hline : ("        " ++ name ++ " ??= node.GetNode(" ++ stringLiteral ("/root/" ++ name) ++
      ");").toList = ("        " ++ name ++ " ??").toList ++ '=' :: (" node.GetNode(".toList ++
        (stringLiteral ("/root/" ++ name) ++ ");").toList) := by
    simp [String.toList_append]
  have htarget : '=' ∉ ("        " ++ name ++ " ??").toList := by
    simp [String.toList_append, hequals]
  rw [assignedSlot?, hline, Text.cutAt_append htarget, Option.bind_some]
  dsimp only
  rw [String.ofList_toList, between?_append, Option.bind_some, dropPrefix?_append,
    Option.bind_some, String.ofList_toList, readLiteral_append, if_pos hroot, Option.bind_some]
  rfl

theorem lineFeed_not_mem {s : String} (h : OneLine s) : '\n' ∉ s.toList := fun hmem =>
  absurd (h '\n' hmem) (by decide)

theorem lineFeed_not_mem_stringLiteral {s : String} (h : OneLine s) :
    '\n' ∉ (stringLiteral s).toList := by
  have hchars : '\n' ∉ s.toList.flatMap escapeChar := by
    rw [List.mem_flatMap]
    rintro ⟨c, hc, hmem⟩
    have hne : '\n' ≠ c := fun he => lineFeed_not_mem h (he ▸ hc)
    rw [escapeChar] at hmem
    split at hmem <;> simp [hne] at hmem
  simp [stringLiteral, hchars]

section
variable {slots : List SingletonSlot} (h : ∀ s ∈ slots, OneLine s.name ∧ '=' ∉ s.name.toList)
include h

theorem lineFeed_not_mem_declarations (hplain : ∀ s ∈ slots, '\n' ∉ s.slotType.toList) :
    ∀ line ∈ declarations slots, '\n' ∉ line.toList := by
  intro line hline
  obtain ⟨s, hs, rfl⟩ := List.mem_map.mp hline
  simp [String.toList_append, hplain s hs, lineFeed_not_mem (h s hs).1]

theorem lineFeed_not_mem_assignments : ∀ line ∈ assignments slots, '\n' ∉ line.toList := by
  intro line hline
  obtain ⟨s, hs, rfl⟩ := List.mem_map.mp hline
  have hname := (h s (List.mem_of_mem_filter hs)).1
  have hroot : OneLine ("/root/" ++ s.name) := oneLine_append.mpr ⟨by decide, hname⟩
  simp [String.toList_append, lineFeed_not_mem hname, lineFeed_not_mem_stringLiteral hroot]

theorem lineFeed_not_mem_registry (hplain : ∀ s ∈ slots, '\n' ∉ s.slotType.toList) :
    ∀ line ∈ registryLines slots, '\n' ∉ line.toList := by
  have hdeclarations := lineFeed_not_mem_declarations h hplain
  have hassignments := lineFeed_not_mem_assignments h
  simp only [registryLines, List.forall_mem_append, List.forall_mem_cons, List.not_mem_nil,
    false_implies, implies_true, and_true]
  exact ⟨by decide, by decide, hdeclarations, by decide, by decide, by decide, hassignments,
    by decide, by decide⟩

theorem listsSlots : ListsSlots (ended (registryLines slots)) slots where
  text_eq := rfl
  declared hplain := by
    have hlines : linesBetween "\x7b" "" (ended (registryLines slots)) = declarations slots := by
      refine linesBetween_ended (lineFeed_not_mem_registry h hplain) (by decide) fun hempty => ?_
      obtain ⟨s, -, hs⟩ := List.mem_map.mp hempty
      simpa [String.toList_append] using congrArg String.toList hs
    rw [hlines, declarations, List.map_map]
    refine List.map_congr_left fun s _ => ?_
    exact declaredSlot?_line s.slotType s.name
  assigned hplain := by
    have hlines : linesBetween "    \x7b" "    \x7d" (ended (registryLines slots)) =
        assignments slots := by
      have happend : registryLines slots =
          (["using Godot;", "using System;", "", "public partial class AutoLoad", "\x7b"] ++
            declarations slots ++ ["", "    public static void ResolveOthers(Node node)"]) ++
          "    \x7b" :: (assignments slots ++ "    \x7d" :: ["\x7d"]) := by
        simp [registryLines]
      have hplain := lineFeed_not_mem_registry h hplain
      rw [happend] at hplain ⊢
      refine linesBetween_ended hplain (fun hopening => ?_) fun hclosing => ?_
      · rcases List.mem_append.mp hopening with hopening | hopening
        · rcases List.mem_append.mp hopening with hopening | hopening
          · exact absurd hopening (by decide)
          · obtain ⟨s, -, hs⟩ := List.mem_map.mp hopening
            simpa [String.toList_append] using congrArg String.toList hs
        · exact absurd hopening (by decide)
      · obtain ⟨s, -, hs⟩ := List.mem_map.mp hclosing
        simpa [String.toList_append] using congrArg String.toList hs
    rw [hlines, assignments, List.map_map]
    refine List.map_congr_left fun s hs => ?_
    obtain ⟨hname, hequals⟩ := h s (List.mem_of_mem_filter hs)
    exact assignedSlot?_line hname hequals

end

theorem renderRegistry_eq_some {r : SingletonRegistry} {f : GeneratedFragment} :
    renderRegistry r = some f ↔ (∃ slot ∈ r.slots, ∃ x, slot.record = some x) ∧
      f = ⟨"HelperGenerator_AutoLoad.g.cs", ended (registryLines r.slots)⟩ := by
  have hgeneric : (fun slot : SingletonSlot => !slot.isTyped) = fun slot => slot.record.isNone := by
    funext slot
    rw [SingletonSlot.isTyped, Option.not_isSome]
  have hend (front : List String) : EndsFilled (front ++ [indent ++ "\x7d", "\x7d"]) :=
    ((endsFilled_brace "").append [indent ++ "\x7d"]).append front
  have hlines : ["using Godot;", "using System;", "", "public partial class " ++ registryClass,
        "\x7b"] ++ r.slots.map slotLine ++
      ["", indent ++ "public static void ResolveOthers(Node node)", indent ++ "\x7b"] ++
      (r.slots.filter (·.record.isNone)).map resolveLine ++ [indent ++ "\x7d", "\x7d"] =
        registryLines r.slots := by
    simp only [registryLines, List.append_assoc, List.cons_append, List.nil_append]
    rfl
  rw [renderRegistry, hgeneric, Option.ite_none_right_eq_some, List.any_eq_true,
    text_ofLines _ (hend _), hlines]
  simp only [SingletonSlot.isTyped, Option.isSome_iff_exists, Option.some.injEq]
  rw [eq_comm (a := f)]
  rfl

/-- The lines of a method that lists connections, each as a comment and a call. -/
def wiringLines (nameSpace name : String) (listed : List (String × String)) : List String :=
  ["using Godot;", "using System;", "using System.Collections.Generic;", ""] ++
    (if nameSpace = "" then [] else ["namespace " ++ nameSpace ++ ";", ""]) ++
    ["#pragma warning disable CS0162", "#if TOOLS", "public partial class " ++ name, "\x7b",
      "    public void GetMethodConnectionTscnList()", "    \x7b"] ++
    "        return;" ::
    (listed.flatMap (fun p => ["", "        // " ++ p.1, "        " ++ p.2]) ++
    "    \x7d" :: ["\x7d", "#endif // TOOLS", "#pragma warning restore CS0162"])

/-- The comments and calls that groups of lines list. -/
def readListed : List String → Option (List (String × String))
  | [] => some []
  | "" :: comment :: call :: rest =>
    (between? "        // " "" comment).bind fun comment =>
      (between? "        " "" call).bind fun call =>
        (readListed rest).map ((comment, call) :: ·)
  | _ => none

theorem readListed_flatMap (listed : List (String × String)) :
    readListed (listed.flatMap fun p => ["", "        // " ++ p.1, "        " ++ p.2]) =
      some listed := by
  induction listed with
  | nil => rfl
  | cons p listed ih =>
    have hcomment := between?_append "        // " p.1 ""
    have hcall := between?_append "        " p.2 ""
    rw [String.append_empty] at hcomment hcall
    simp only [List.flatMap_cons, List.cons_append, List.nil_append, readListed, hcomment, hcall,
      Option.bind_some, ih, Option.map_some]

section
variable {nameSpace name : String} {listed : List (String × String)}

theorem lineFeed_not_mem_wiringLines (hnameSpace : '\n' ∉ nameSpace.toList)
    (hname : '\n' ∉ name.toList)
    (hlisted : ∀ p ∈ listed, '\n' ∉ p.1.toList ∧ '\n' ∉ p.2.toList) :
    ∀ line ∈ wiringLines nameSpace name listed, '\n' ∉ line.toList := by
  have hspace : ∀ line ∈ (if nameSpace = "" then [] else ["namespace " ++ nameSpace ++ ";", ""]),
      '\n' ∉ line.toList := by
    split
    · exact fun _ h => absurd h List.not_mem_nil
    · simp [String.toList_append, hnameSpace]
  have hclass : '\n' ∉ ("public partial class " ++ name).toList := by
    simp [String.toList_append, hname]
  have hgroups : ∀ line ∈ listed.flatMap fun p => ["", "        // " ++ p.1, "        " ++ p.2],
      '\n' ∉ line.toList := by
    intro line hline
    obtain ⟨p, hp, hline⟩ := List.mem_flatMap.mp hline
    obtain ⟨hcomment, hcall⟩ := hlisted p hp
    simp only [List.mem_cons, List.not_mem_nil, or_false] at hline
    rcases hline with rfl | rfl | rfl
    · decide
    · simp [String.toList_append, hcomment]
    · simp [String.toList_append, hcall]
  simp only [wiringLines, List.forall_mem_append, List.forall_mem_cons, List.not_mem_nil,
    false_implies, implies_true, and_true]
  exact ⟨⟨⟨⟨by decide, by decide, by decide, by decide⟩, hspace⟩, by decide, by decide, hclass,
    by decide, by decide, by decide⟩, by decide, hgroups, by decide, by decide,
      by decide, by decide⟩

/-- What is listed is read off the text, unless a line feed cuts one of its lines. -/
theorem readListed_wiringLines (hnameSpace : '\n' ∉ nameSpace.toList) (hname : '\n' ∉ name.toList)
    (hlisted : ∀ p ∈ listed, '\n' ∉ p.1.toList ∧ '\n' ∉ p.2.toList) :
    readListed (linesBetween "        return;" "    \x7d"
      (ended (wiringLines nameSpace name listed))) = some listed := by
  have hlines : linesBetween "        return;" "    \x7d"
      (ended (wiringLines nameSpace name listed)) =
        listed.flatMap fun p => ["", "        // " ++ p.1, "        " ++ p.2] := by
    refine linesBetween_ended (lineFeed_not_mem_wiringLines hnameSpace hname hlisted)
      (fun hopening => ?_) fun hclosing => ?_
    · simp only [List.mem_append, List.mem_ite_nil_left, List.mem_cons, List.not_mem_nil,
        or_false, String.reduceEq, false_or] at hopening
      rcases hopening with ⟨-, hopening⟩ | hopening <;>
        simpa [String.toList_append] using congrArg String.toList hopening
    · obtain ⟨p, -, hp⟩ := List.mem_flatMap.mp hclosing
      simp only [List.mem_cons, List.not_mem_nil, or_false] at hp
      rcases hp with hp | hp | hp <;>
        simpa [String.toList_append] using congrArg String.toList hp
  rw [hlines, readListed_flatMap]

end

/-- What is told of a connection beside the call that it makes. -/
def connectionText (k : Scene.Connection) : String :=
  k.scenePath ++ " - FromNode: " ++ k.fromNode ++ " - Signal: " ++ k.signal

/-- The connections to the methods of a class, with the call of each. -/
def listedOf (r : ClassRecord) (connections : List Scene.Connection) : List (String × String) :=
  r.methods.flatMap fun (name, call) =>
    (connections.filter (·.method == name)).map fun k => (connectionText k, call)

theorem renderConnectionList_eq (r : ClassRecord) (connections : List Scene.Connection) :
    renderConnectionList r connections =
      if listedOf r connections = [] then none
      else some ⟨r.hintName ++ "_GodotHelper_ConnectionTscn.g.cs",
        ended (wiringLines r.nameSpace r.name (listedOf r connections))⟩ := by
  have hbody : r.methods.flatMap (methodConnections connections) =
      (listedOf r connections).flatMap fun p => ["", "        // " ++ p.1, "        " ++ p.2] := by
    rw [listedOf, List.flatMap_assoc]
    refine List.flatMap_congr fun method _ => ?_
    rw [methodConnections, List.flatMap_map]
    refine List.flatMap_congr fun k _ => ?_
    simp only [connectionLines, connectionText, String.append_assoc]
    rfl
  have hempty : ((listedOf r connections).flatMap fun p =>
      ["", "        // " ++ p.1, "        " ++ p.2]) = [] ↔ listedOf r connections = [] := by
    cases listedOf r connections <;> simp
  have hspace : fileNamespace r.nameSpace =
      if r.nameSpace = "" then [] else ["namespace " ++ r.nameSpace ++ ";", ""] := by
    rw [fileNamespace]
    simp
  have hend (front : List String) : EndsFilled (front ++ [indent ++ "\x7d", "\x7d",
      "#endif // TOOLS", "#pragma warning restore CS0162"]) :=
    ⟨"#pragma warning restore CS0162", '2', by rw [List.getLast?_append]; rfl, by decide,
      by decide⟩
  simp only [renderConnectionList, hbody, List.isEmpty_iff, hempty, text_ofLines _ (hend _)]
  simp only [hspace, wiringLines, List.append_assoc, List.cons_append, List.nil_append]
  rfl

/-- The lines of the file in which a class fills its slot. -/
def fillerLines (r : SingletonRecord) : List String :=
  ["using Godot;", "using System;", ""] ++
    (if r.nameSpace = "" then [] else ["namespace " ++ r.nameSpace ++ ";", ""]) ++
    ["public partial class " ++ r.name, "\x7b", "    partial void OnInit();",
      "    public " ++ r.name ++ "()", "    \x7b"] ++
    (if r.baseIsSingleton then ["        Ready -= base.ReadyCallback;"] else []) ++
    ["        Ready += ReadyCallback;", "        OnInit();", "    \x7d", "",
      "#pragma warning disable CS0109", "    partial void OnReady();",
      "    public new void ReadyCallback()", "    \x7b",
      "        AutoLoad." ++ r.name ++ " = this;", "        AutoLoad.ResolveOthers(this);",
      "        OnReady();", "    \x7d", "#pragma warning restore CS0109", "\x7d"]

theorem ofLines_singletonLines (r : SingletonRecord) :
    ofLines r.hintName (singletonLines r.name r) = ⟨r.hintName, ended (fillerLines r)⟩ := by
  rw [text_ofLines _ (endsFilled_singletonLines r.name r)]
  have hspace : fileNamespace r.nameSpace =
      if r.nameSpace = "" then [] else ["namespace " ++ r.nameSpace ++ ";", ""] := by
    rw [fileNamespace]
    simp
  rw [singletonLines, hspace]
  rfl

end SceneCodegen.Fragment
