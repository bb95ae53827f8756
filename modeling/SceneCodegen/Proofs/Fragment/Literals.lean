import SceneCodegen.Proofs.Fragment.Depths
import SceneCodegen.Proofs.Fragment.NodePaths
import SceneCodegen.Proofs.Manifest.Lines
import SceneCodegen.Proofs.Scan.Nesting
import SceneCodegen.Symbol.Document
import SceneCodegen.Text.Lines

/-!
# What literals denote

A string literal is read from its opening double quote up to the next one that no backslash stands
before, and it has to end in its line. Names from a manifest come from single lines. The path of an
accessor may hold any characters, and line breaks are not escaped.
-/
namespace SceneCodegen.Fragment

/-- The character that stands for itself or for a control character behind a backslash. -/
def unescape? : Char → Option Char
  | '\'' => some '\''
  | '"' => some '"'
  | '\\' => some '\\'
  | '0' => some (Char.ofNat 0)
  | 'a' => some (Char.ofNat 7)
  | 'b' => some (Char.ofNat 8)
  | 't' => some (Char.ofNat 9)
  | 'n' => some (Char.ofNat 10)
  | 'v' => some (Char.ofNat 11)
  | 'f' => some (Char.ofNat 12)
  | 'r' => some (Char.ofNat 13)
  | _ => none

/-- The value of a literal whose opening quote was read, and the text after the closing one. -/
def readQuoted : List Char → Option (List Char × List Char)
  | [] => none
  | '\\' :: c :: rest =>
    (unescape? c).bind fun c => (readQuoted rest).map fun (value, rest) => (c :: value, rest)
  | c :: rest =>
    if c == '"' then some ([], rest)
    else if c == '\\' || isLineBreak c then none
    else (readQuoted rest).map fun (value, rest) => (c :: value, rest)

/-- The value of the literal that a text begins with, and the text behind it. -/
def readLiteral (text : String) : Option (String × String) :=
  match text.toList with
  | '"' :: rest => (readQuoted rest).map fun (value, rest) => (.ofList value, .ofList rest)
  | _ => none

theorem readQuoted_cons {c : Char} (hc : c ≠ '\\') (rest : List Char) :
    readQuoted (c :: rest) =
      if c == '"' then some ([], rest)
      else if isLineBreak c then none
      else (readQuoted rest).map fun (value, rest) => (c :: value, rest) := by
  rw [readQuoted, beq_eq_false_iff_ne.mpr hc, Bool.false_or]
  exact fun _ _ h => absurd h hc

theorem readQuoted_escapeChar {c : Char} (hc : isLineBreak c = false) (rest : List Char) :
    readQuoted (escapeChar c ++ rest) =
      (readQuoted rest).map fun (value, rest) => (c :: value, rest) := by
  by_cases hescaped : c = '\\' ∨ c = '"'
  · rcases hescaped with rfl | rfl <;> rfl
  · rw [not_or] at hescaped
    have hplain : escapeChar c = [c] := by simp [escapeChar, hescaped]
    rw [hplain, List.singleton_append, readQuoted_cons hescaped.1, hc,
      if_neg (by simpa using hescaped.2)]
    rfl

/-- A line break is not escaped, so that a literal breaks off at it. -/
theorem readQuoted_lineBreak {c : Char} (hc : isLineBreak c = true) (rest : List Char) :
    readQuoted (escapeChar c ++ rest) = none := by
  have hslash : c ≠ '\\' := by
    rintro rfl
    revert hc
    decide
  have hquote : c ≠ '"' := by
    rintro rfl
    revert hc
    decide
  have hplain : escapeChar c = [c] := by simp [escapeChar, hslash, hquote]
  rw [hplain, List.singleton_append, readQuoted_cons hslash, hc, if_neg (by simpa using hquote)]
  rfl

theorem readQuoted_flatMap (cs rest : List Char) :
    readQuoted (cs.flatMap escapeChar ++ '"' :: rest) =
      if cs.all (!isLineBreak ·) then some (cs, rest) else none := by
  induction cs with
  | nil => simp [readQuoted]
  | cons c cs ih =>
    rw [List.flatMap_cons, List.append_assoc, List.all_cons]
    cases hc : isLineBreak c with
    | true => simp [readQuoted_lineBreak hc]
    | false =>
      rw [readQuoted_escapeChar hc, ih, Bool.not_false, Bool.true_and]
      split <;> rfl

/-- A literal is read as the text that it was made from if that fits on a line, and else not at
all. -/
theorem readLiteral_append (s rest : String) :
    readLiteral (stringLiteral s ++ rest) = if OneLine s then some (s, rest) else none := by
  have htext : (stringLiteral s ++ rest).toList =
      '"' :: (s.toList.flatMap escapeChar ++ '"' :: rest.toList) := by
    simp [stringLiteral, String.toList_append]
  have hline : s.toList.all (!isLineBreak ·) = true ↔ OneLine s := by
    simp [OneLine]
  rw [readLiteral, htext]
  show (readQuoted _).map _ = _
  rw [readQuoted_flatMap]
  by_cases h : OneLine s
  · rw [if_pos (hline.mpr h), if_pos h]
    simp
  · rw [if_neg (mt hline.mp h), if_neg h, Option.map_none]

theorem escapeChar_append_inj {c d : Char} {cs ds : List Char}
    (h : escapeChar c ++ cs = escapeChar d ++ ds) : c = d ∧ cs = ds := by
  unfold escapeChar at h
  split at h <;> split at h
  · simpa using h
  · -- A character that stands alone is no backslash.
    rename_i hplain
    obtain ⟨rfl, -⟩ := List.cons.inj h
    simp at hplain
  · rename_i hplain _
    obtain ⟨rfl, -⟩ := List.cons.inj h
    simp at hplain
  · simpa using h

theorem flatMap_escapeChar_inj {cs ds : List Char}
    (h : cs.flatMap escapeChar = ds.flatMap escapeChar) : cs = ds := by
  have hne (c : Char) (cs : List Char) : escapeChar c ++ cs.flatMap escapeChar ≠ [] := by
    rw [escapeChar]
    split <;> simp
  induction cs generalizing ds with
  | nil =>
    cases ds with
    | nil => rfl
    | cons d ds => exact absurd h.symm (hne d ds)
  | cons c cs ih =>
    cases ds with
    | nil => exact absurd h (hne c cs)
    | cons d ds =>
      obtain ⟨rfl, hrest⟩ := escapeChar_append_inj h
      rw [ih hrest]

/-- Different texts have different literals, whatever they hold. -/
theorem stringLiteral_inj {s t : String} : stringLiteral s = stringLiteral t ↔ s = t := by
  refine ⟨fun h => ?_, congrArg stringLiteral⟩
  rw [← String.toList_inj, stringLiteral, stringLiteral, String.toList_ofList,
    String.toList_ofList, List.append_cancel_right_eq] at h
  exact String.toList_injective (flatMap_escapeChar_inj (List.cons.inj h).2)

theorem isLineBreak_of_mem_lineChars {cs line : List Char} (hline : line ∈ Text.lineChars cs)
    {c : Char} (hc : c ∈ line) : Text.isLineBreak c = false := by
  fun_induction Text.lineChars cs generalizing line with
  | case1 => cases hline
  | case2 rest ih =>
    rcases List.mem_cons.mp hline with rfl | hline
    · cases hc
    · exact ih hline hc
  | case3 d rest _ hbreak ih =>
    rcases List.mem_cons.mp hline with rfl | hline
    · cases hc
    · exact ih hline hc
  | case4 d rest _ hinner ih =>
    rw [Bool.not_eq_true] at hinner
    cases hrest : Text.lineChars rest with
    | nil =>
      rw [hrest, Text.consLine, List.mem_singleton] at hline
      subst hline
      rwa [List.mem_singleton.mp hc]
    | cons first more =>
      rw [hrest, Text.consLine, List.mem_cons] at hline
      rcases hline with rfl | hline
      · rcases List.mem_cons.mp hc with rfl | hc
        · exact hinner
        · exact ih (by rw [hrest]; exact List.mem_cons_self) hc
      · exact ih (by rw [hrest]; exact List.mem_cons_of_mem _ hline) hc

/-- What ends a line of code ends a line of a manifest. -/
theorem oneLine_of_mem_lines {text line : String} (h : line ∈ Text.lines text) : OneLine line := by
  obtain ⟨cs, hcs, rfl⟩ := List.mem_map.mp h
  rw [oneLine_ofList]
  intro c hc
  have hinner := isLineBreak_of_mem_lineChars hcs hc
  simp only [Text.isLineBreak, Bool.or_eq_false_iff, Bool.and_eq_false_iff, decide_eq_false_iff_not,
    beq_eq_false_iff_ne] at hinner
  simp only [isLineBreak, Bool.or_eq_false_iff, beq_eq_false_iff_ne]
  omega

theorem mem_of_mem_trim {s : String} {c : Char} (h : c ∈ (Text.trim s).toList) : c ∈ s.toList := by
  rw [Text.trim, String.toList_ofList, Text.trimBoth, List.mem_reverse] at h
  have hfront := List.mem_reverse.mp ((List.dropWhile_sublist _).subset h)
  exact (List.dropWhile_sublist _).subset hfront

theorem oneLine_trim {s : String} (h : OneLine s) : OneLine (Text.trim s) :=
  fun c hc => h c (mem_of_mem_trim hc)

/-- An entry of a manifest stands on one of its lines. -/
theorem exists_standsAt {lines : List String} {e : Manifest.Entry}
    (he : e ∈ Manifest.parse lines) : ∃ i, Manifest.StandsAt lines i e := by
  obtain ⟨places, -, -, hall⟩ := Manifest.readsAs_parse lines
  obtain ⟨hlength, hat⟩ := List.forall₂_iff_get.mp hall
  obtain ⟨k, hk, rfl⟩ := List.mem_iff_getElem.mp he
  exact ⟨_, hat k (hlength ▸ hk) hk⟩

theorem oneLine_entryName {text : String} {e : Manifest.Entry}
    (he : e ∈ Manifest.parse (Text.lines text)) : OneLine e.name := by
  have hpart {line before after : String} (hmem : line ∈ Text.lines text)
      (hline : line = before ++ "=" ++ after) : OneLine (Text.trim before) := by
    have honeLine := oneLine_of_mem_lines hmem
    rw [hline] at honeLine
    exact oneLine_trim (oneLine_append.mp (oneLine_append.mp honeLine).1).1
  obtain ⟨i, line, hline, -, hstands⟩ := exists_standsAt he
  have hmem := List.mem_of_getElem? hline
  rcases hstands with ⟨-, before, after, hparts, -, -, -, rfl⟩ |
    ⟨-, before, after, hparts, -, -, -, rfl⟩
  · exact hpart hmem hparts
  · exact hpart hmem hparts

theorem equals_not_mem_entryName {lines : List String} {e : Manifest.Entry}
    (he : e ∈ Manifest.parse lines) : '=' ∉ e.name.toList := by
  obtain ⟨i, line, -, -, hstands⟩ := exists_standsAt he
  rcases hstands with ⟨-, before, after, -, hbefore, -, -, rfl⟩ |
    ⟨-, before, after, -, hbefore, -, -, rfl⟩
  · exact fun hmem => hbefore (mem_of_mem_trim hmem)
  · exact fun hmem => hbefore (mem_of_mem_trim hmem)

/-- What a literal is written for: the path of an accessor, an input action or a slot without a
class. -/
inductive Written
  | path (m : DeclaredMember)
  | action (e : Manifest.Entry)
  | slot (s : SingletonSlot)

namespace Written

def value : Written → String
  | path m => m.nodePath
  | action e => e.name
  | slot s => "/root/" ++ s.name

/-- The code of the statement before its literal. -/
def front : Written → String
  | path m => indent2 ++ m.name ++ " = " ++ (if m.notNull then "GetNode" else "GetNodeOrNull") ++
      "<" ++ m.type ++ ">("
  | action e => indent ++ "public static readonly StringName " ++ identifier e.name ++ " = "
  | slot s => indent2 ++ s.name ++ " ??= node.GetNode("

/-- The code of the statement behind its literal. -/
def back : Written → String
  | path _ | slot _ => ");"
  | action _ => ";"

/-- Whether the text that is written fits on a line. Names from a manifest always do. -/
def Fits : Written → Prop
  | path m => PathFits m
  | action _ | slot _ => True

/-- The statements with literals that a file holds. -/
inductive In : Written → GeneratedFragment → Prop
  | path {c : ScannedClass} {f : GeneratedFragment} {m : DeclaredMember}
      (hf : renderHelpers c = .ok (some f)) (hm : m ∈ c.members) (hkind : m.kind = .accessor) :
      In (.path m) f
  | action {entries : List Manifest.Entry} {f : GeneratedFragment} {e : Manifest.Entry}
      {text : String} (hf : renderInputActions entries = some f) (he : e ∈ entries)
      (hmanifest : e ∈ Manifest.parse (Text.lines text)) : In (.action e) f
  | slot {r : SingletonRegistry} {f : GeneratedFragment} {s : SingletonSlot} {e : Manifest.Entry}
      {text : String} (hf : renderRegistry r = some f) (hs : s ∈ r.slots)
      (huntyped : s.isTyped = false) (hmanifest : e ∈ Manifest.parse (Text.lines text))
      (hname : s.name = e.name) : In (.slot s) f

theorem fits_iff {w : Written} {f : GeneratedFragment} (h : w.In f) :
    OneLine w.value ↔ w.Fits := by
  cases h with
  | path => exact oneLine_nodePath_iff _
  | action _ _ hmanifest => exact iff_of_true (oneLine_entryName hmanifest) trivial
  | slot _ _ _ hmanifest hname =>
    refine iff_of_true (oneLine_append.mpr ⟨by decide, ?_⟩) trivial
    rw [hname]
    exact oneLine_entryName hmanifest

end Written

namespace HelperState

theorem lookupStatement_ne (m : DeclaredMember) : lookupStatement m ≠ "" := by
  rw [lookupStatement, Ne, ← String.toList_inj]
  simp

theorem Shows.mem_accessorMethod {s : HelperState} {taken : List DeclaredMember}
    (h : s.Shows taken) {m : DeclaredMember} (hm : m ∈ taken) (hkind : m.kind = .accessor) :
    lookupStatement m ∈ s.accessorMethod := by
  have haccessor : m ∈ accessorsOf taken := List.mem_filter.mpr ⟨hm, beq_iff_eq.mpr hkind⟩
  have hstatements : lookupStatement m ∈ s.fieldLines ∨ lookupStatement m ∈ s.propertyLines := by
    rw [h.fieldLines, h.propertyLines]
    by_cases hproperty : m.symbolKind = "property"
    · exact .inr (List.mem_map_of_mem (List.mem_filter.mpr ⟨haccessor, by simp [hproperty]⟩))
    · exact .inl (List.mem_map_of_mem (List.mem_filter.mpr ⟨haccessor, by simp [hproperty]⟩))
  rw [accessorMethod, if_pos (h.hasAccessors_iff.mpr ⟨m, hm, hkind⟩)]
  simp only [List.mem_append]
  rcases hstatements with hfield | hproperty
  · exact .inl (.inl (.inl (.inr hfield)))
  · exact .inl (.inr hproperty)

end HelperState

/-- Each statement is a line of its file. -/
theorem Written.In.mem_lines {w : Written} {f : GeneratedFragment} (h : w.In f) :
    ∃ hintName lines, f = ofLines hintName lines ∧ EndsFilled lines ∧
      w.front ++ stringLiteral w.value ++ w.back ∈ lines := by
  cases h with
  | @path c f m hf hm hkind =>
    obtain ⟨s, hs, -, rfl⟩ := renderHelpers_eq_some hf
    have hshows : s.Shows c.members := HelperState.Shows.empty.addAll hs
    refine ⟨_, _, rfl, endsFilled_helperLines c s, ?_⟩
    have hmem := hshows.mem_accessorMethod hm hkind
    rw [helperLines]
    refine List.mem_append_left _ (List.mem_append_left _ (List.mem_append_left _ ?_))
    exact mem_dropEmptyEnd (HelperState.lookupStatement_ne m)
      (List.mem_append_left _ (List.mem_append_right _ hmem))
  | @action entries f e text hf he hmanifest =>
    simp only [renderInputActions, Option.ite_none_left_eq_some, Option.some.injEq] at hf
    obtain ⟨-, rfl⟩ := hf
    refine ⟨_, _, rfl, (endsFilled_brace "").append _, ?_⟩
    refine List.mem_append_left _ (List.mem_append_right _ ?_)
    exact List.mem_map.mpr ⟨e, List.mem_mergeSort.mpr he, rfl⟩
  | @slot r f s e text hf hs huntyped hmanifest hname =>
    simp only [renderRegistry, Option.ite_none_right_eq_some, Option.some.injEq] at hf
    obtain ⟨-, rfl⟩ := hf
    refine ⟨_, _, rfl, ((endsFilled_brace "").append [indent ++ "\x7d"]).append _, ?_⟩
    refine List.mem_append_left _ (List.mem_append_right _ ?_)
    exact List.mem_map.mpr ⟨s, List.mem_filter.mpr ⟨hs, by rw [huntyped]; rfl⟩, rfl⟩

theorem Written.In.exists_text_eq {w : Written} {f : GeneratedFragment} (h : w.In f) :
    ∃ before after : String,
      f.text = before ++ w.front ++ stringLiteral w.value ++ w.back ++ "\n" ++ after := by
  obtain ⟨hintName, lines, rfl, hend, hline⟩ := h.mem_lines
  obtain ⟨before, after, htext⟩ := Fragment.exists_text_eq hintName hend hline
  exact ⟨before, after, by simp [htext, String.append_assoc]⟩

/-- A literal denotes the text that it was written for just if that text fits on a line, as names
from a manifest always do; otherwise it breaks off. Different texts have different literals. -/
theorem literal_denotes {w : Written} {f : GeneratedFragment} (h : w.In f) :
    (∃ before after : String,
      f.text = before ++ w.front ++ stringLiteral w.value ++ w.back ++ "\n" ++ after ∧
      (w.Fits → readLiteral (stringLiteral w.value ++ (w.back ++ "\n" ++ after)) =
        some (w.value, w.back ++ "\n" ++ after)) ∧
      (¬ w.Fits → readLiteral (stringLiteral w.value ++ (w.back ++ "\n" ++ after)) = none)) ∧
    ∀ other, stringLiteral other = stringLiteral w.value → other = w.value := by
  refine ⟨?_, fun other => stringLiteral_inj.mp⟩
  obtain ⟨before, after, htext⟩ := h.exists_text_eq
  refine ⟨before, after, htext, fun hfits => ?_, fun hbreaks => ?_⟩
  · rw [readLiteral_append, if_pos ((Written.fits_iff h).mpr hfits)]
  · rw [readLiteral_append, if_neg (mt (Written.fits_iff h).mp hbreaks)]

namespace Hud

/-- A class with the given members, derived from the root type. -/
def document (members : List Json) : Json :=
  .object [("types", .list [
    .object [("name", .text "GodotObject"), ("namespace", .text "Godot"),
      ("assembly", .text TypeResolver.rootAssembly)],
    .object [("name", .text "Hud"), ("namespace", .text "Game"),
      ("base_type", .text TypeResolver.rootName), ("members", .list members)]])]

def root : TypeSymbol :=
  { name := "GodotObject", nameSpace := "Godot", assembly := TypeResolver.rootAssembly }

def hud (members : List Symbol.Member) : TypeSymbol :=
  { name := "Hud", nameSpace := "Game", baseType := some TypeResolver.rootName, members }

def table (members : List Symbol.Member) : SymbolTable :=
  [("Godot.GodotObject", root), ("Game.Hud", hud members)]

def scanned (members : List Symbol.Member) : ScannedClass :=
  Scan.scannedAmong (.ofTable (table members)) (hud members)

theorem scanClass_hud (members : List Symbol.Member) :
    (Scan.scanClass (.ofTable (table members)) (hud members)).run = some (scanned members) := by
  rw [Scan.scanClass_run, if_pos (by rfl)]
  rfl

theorem containingDeclarations_scanned (members : List Symbol.Member) :
    (scanned members).containingDeclarations = [] :=
  containingDeclarations_eq_nil_iff.mpr rfl

def labelPart (path : String) : Json :=
  .object [("kind", .text "field"), ("name", .text "_label"), ("type", .text "Label"),
    ("markers", .list
      [.object [("name", .text Scan.accessorMarker), ("args", .list [.text path])]])]

def labelMember (path : String) : Symbol.Member :=
  { kind := .field, name := "_label", type := "Label"
    markers := [⟨Scan.accessorMarker, [.text path], []⟩] }

def label (path : String) : DeclaredMember :=
  { kind := .accessor, owner := "Game.Hud", name := "_label", type := "Label"
    markerArgs := [.text path, .bool true], symbolKind := "field" }

theorem ofDocument_label (path : String) :
    SymbolTable.ofDocument Symbol.reader (document [labelPart path]) =
      .ok (table [labelMember path]) := by rfl

def labelled (path : String) : ScannedClass := scanned [labelMember path]

theorem members_labelled {path : String} (h : path ≠ "") :
    (labelled path).members = [label path] := by
  have hmembers : (labelled path).members = [{ label path with
      markerArgs := [if path != "" then .text path else .text "", .bool true] }] := rfl
  rw [hmembers, if_pos (bne_iff_ne.mpr h)]
  rfl

def helpers (path : String) : GeneratedFragment :=
  ofLines ((labelled path).hintName ++ "_GodotHelper.g.cs") <| helperLines (labelled path)
    { fieldLines := [HelperState.lookupStatement (label path)]
      membersByPath := [((label path).nodePath, label path)] }

theorem renderHelpers_labelled {path : String} (h : path ≠ "") :
    renderHelpers (labelled path) = .ok (some (helpers path)) := by
  rw [renderHelpers_eq, members_labelled h]
  rfl

theorem label_in (path : String) (h : path ≠ "") :
    (Written.path (label path)).In (helpers path) :=
  .path (renderHelpers_labelled h) (by rw [members_labelled h]; exact List.mem_cons_self) rfl

end Hud

/-- A path with double quotes and a backslash is denoted by its literal. -/
theorem literal_denotes_quotes :
    SymbolTable.ofDocument Symbol.reader (Hud.document [Hud.labelPart "Top/\"A\\B\""]) =
      .ok (Hud.table [Hud.labelMember "Top/\"A\\B\""]) ∧
    (Written.path (Hud.label "Top/\"A\\B\"")).In (Hud.helpers "Top/\"A\\B\"") ∧
    (Written.path (Hud.label "Top/\"A\\B\"")).Fits ∧
    ∃ before after : String, (Hud.helpers "Top/\"A\\B\"").text = before ++
        "        _label = GetNode<Label>(" ++ "\"Top/\\\"A\\\\B\\\"\"" ++ ");" ++ "\n" ++ after ∧
      readLiteral ("\"Top/\\\"A\\\\B\\\"\"" ++ (");" ++ "\n" ++ after)) =
        some ("Top/\"A\\B\"", ");" ++ "\n" ++ after) := by
  have hin := Hud.label_in "Top/\"A\\B\"" (by decide)
  have hfits : (Written.path (Hud.label "Top/\"A\\B\"")).Fits :=
    (Written.fits_iff hin).mp (by decide)
  have hfront : (Written.path (Hud.label "Top/\"A\\B\"")).front =
      "        _label = GetNode<Label>(" := by decide
  have hliteral : stringLiteral (Written.path (Hud.label "Top/\"A\\B\"")).value =
      "\"Top/\\\"A\\\\B\\\"\"" := by decide
  obtain ⟨⟨before, after, htext, hread, -⟩, -⟩ := literal_denotes hin
  rw [hfront, hliteral] at htext
  rw [hliteral] at hread
  exact ⟨Hud.ofDocument_label _, hin, hfits, before, after, htext, hread hfits⟩

/-- The literal of a path with a line feed breaks off at the end of its first line. -/
theorem broken_literal :
    SymbolTable.ofDocument Symbol.reader (Hud.document [Hud.labelPart "Top\nA"]) =
      .ok (Hud.table [Hud.labelMember "Top\nA"]) ∧
    (Scan.scanClass (.ofTable (Hud.table [Hud.labelMember "Top\nA"]))
      (Hud.hud [Hud.labelMember "Top\nA"])).run = some (Hud.labelled "Top\nA") ∧
    renderHelpers (Hud.labelled "Top\nA") = .ok (some (Hud.helpers "Top\nA")) ∧
    ∃ before after : String, (Hud.helpers "Top\nA").text = before ++
        "        _label = GetNode<Label>(" ++ "\"Top\nA\"" ++ ");" ++ "\n" ++ after ∧
      readLiteral ("\"Top\nA\"" ++ (");" ++ "\n" ++ after)) = none := by
  have hfront : (Written.path (Hud.label "Top\nA")).front =
      "        _label = GetNode<Label>(" := by decide
  have hliteral : stringLiteral (Written.path (Hud.label "Top\nA")).value = "\"Top\nA\"" := by
    decide
  obtain ⟨before, after, htext⟩ := (Hud.label_in "Top\nA" (by decide)).exists_text_eq
  have hbroken := readLiteral_append "Top\nA" (");" ++ "\n" ++ after)
  rw [if_neg (by decide)] at hbroken
  rw [hfront, hliteral] at htext
  exact ⟨Hud.ofDocument_label _, Hud.scanClass_hud _, Hud.renderHelpers_labelled (by decide),
    before, after, htext, hbroken⟩

end SceneCodegen.Fragment
