import Mathlib.Data.String.Basic
import SceneCodegen.Proofs.Generation.Wiring
import SceneCodegen.Proofs.ResPath

/-!
# The order of listed connections

Below each of its handlers a type lists connections file by file: those into the file that its
source paths name first, then those into the next one. Among the connections into one file it keeps
the order of scenes, and within a scene that of the places. A type with one file so follows the
scenes, one that is spread over several files does not.
-/
namespace SceneCodegen
open SceneCodegen.Graph Generation

namespace Generation.ConnectionKey

/-- A place in an earlier scene, or an earlier place in the same one. -/
def Before (a b : ConnectionKey) : Prop := a.1 < b.1 ∨ a.1 = b.1 ∧ a.2 < b.2

theorem before_iff {a b : ConnectionKey} : Before a b ↔ compareConnectionKeys a b = .lt := by
  rw [compareConnectionKeys, Ordering.then_eq_lt, compare_lt_iff_lt, compare_eq_iff_eq,
    compare_lt_iff_lt]
  rfl

instance : Std.TransCmp compareConnectionKeys :=
  inferInstanceAs (Std.TransCmp (compareLex (compareOn Prod.fst) (compareOn Prod.snd)))

/-- Sorted keys follow scenes and places. -/
theorem pairwise_sortedBy (keys : List ConnectionKey) :
    (sortedBy compareConnectionKeys keys).Pairwise Before := by
  have hsorted := pairwise_mergeSort_isLE compareConnectionKeys keys.eraseDups
  refine (hsorted.and (nodup_sortedBy compareConnectionKeys keys)).imp fun {a b} hab => ?_
  rw [before_iff]
  cases h : compareConnectionKeys a b with
  | lt => rfl
  | eq =>
    obtain ⟨h₁, h₂⟩ := Ordering.then_eq_eq.mp h
    exact absurd (Prod.ext (compare_eq_iff_eq.mp h₁) (compare_eq_iff_eq.mp h₂)) hab.2
  | gt => simp [h] at hab

end Generation.ConnectionKey

/-- The first key under which a thing is kept. -/
structure FirstUnder {ι β : Type} (before : ι → ι → Prop) (kept : ι → β → Prop) (i : ι) (b : β) :
    Prop where
  here : kept i b
  first : ∀ j, kept j b → i = j ∨ before i j

section
variable {ι β : Type} [BEq β] [LawfulBEq β] {before : ι → ι → Prop} {l : List (ι × β)}

theorem exists_firstUnder (h : l.Pairwise fun x y => before x.1 y.1) {b : β}
    (hb : b ∈ l.map Prod.snd) : ∃ x, l[(l.map Prod.snd).idxOf b]? = some x ∧
      FirstUnder before (fun i b => (i, b) ∈ l) x.1 b := by
  have hidx := List.getElem?_idxOf hb
  rw [List.getElem?_map, Option.map_eq_some_iff] at hidx
  obtain ⟨x, hx, hxb⟩ := hidx
  obtain ⟨hlt, hget⟩ := List.getElem?_eq_some_iff.mp hx
  refine ⟨x, hx, ?_, fun j hj => ?_⟩
  · rw [← hxb]
    exact hget ▸ List.getElem_mem hlt
  · obtain ⟨n, hn, hjn⟩ := List.getElem_of_mem hj
    have htake : b ∈ (l.map Prod.snd).take (n + 1) :=
      List.mem_take_iff_getElem.mpr ⟨n, by simpa using hn, by simp [hjn]⟩
    have hle := Nat.lt_succ_iff.mp ((List.mem_take_iff_idxOf_lt hb).mp htake)
    rcases hle.eq_or_lt with heq | hbefore
    · left
      subst heq
      rw [← hget, hjn]
    · have hbefore := List.pairwise_iff_getElem.mp h _ _ hlt hn hbefore
      rw [hget, hjn] at hbefore
      exact .inr hbefore

/-- Things that are listed in the order of keys stand, each once, in the order of their first
keys. -/
theorem pairwise_eraseDups_snd (h : l.Pairwise fun x y => before x.1 y.1) :
    (l.map Prod.snd).eraseDups.Pairwise fun a b => ∃ i j,
      FirstUnder before (fun i b => (i, b) ∈ l) i a ∧
        FirstUnder before (fun i b => (i, b) ∈ l) j b ∧ before i j := by
  refine (pairwise_idxOf_eraseDups _).imp_of_mem fun {a b} ha hb hab => ?_
  obtain ⟨x, hx, hfirst⟩ := exists_firstUnder h (List.mem_eraseDups.mp ha)
  obtain ⟨y, hy, hfirst'⟩ := exists_firstUnder h (List.mem_eraseDups.mp hb)
  obtain ⟨hm, rfl⟩ := List.getElem?_eq_some_iff.mp hx
  obtain ⟨hn, rfl⟩ := List.getElem?_eq_some_iff.mp hy
  exact ⟨_, _, hfirst, hfirst', List.pairwise_iff_getElem.mp h _ _ hm hn hab⟩

end

/-- Of two things in a list that is in order one comes before the other. -/
theorem rel_or_rel {α : Type} {R : α → α → Prop} {l : List α} (h : l.Pairwise R)
    {a b : α} (ha : a ∈ l) (hb : b ∈ l) (hne : a ≠ b) : R a b ∨ R b a := by
  obtain ⟨m, hm, rfl⟩ := List.getElem_of_mem ha
  obtain ⟨n, hn, rfl⟩ := List.getElem_of_mem hb
  rcases Nat.lt_trichotomy m n with hlt | rfl | hlt
  · exact .inl (List.pairwise_iff_getElem.mp h _ _ hm hn hlt)
  · exact absurd rfl hne
  · exact .inr (List.pairwise_iff_getElem.mp h _ _ hn hm hlt)

theorem append_le_append_iff {before a b : String} : before ++ a ≤ before ++ b ↔ a ≤ b := by
  simp only [← String.not_lt, String.lt_iff, String.toList_append]
  refine not_congr ⟨fun h => ?_, List.append_left_lt⟩
  by_contra hle
  exact List.append_left_le (List.not_lt.mp hle) h

/-- Paths below one directory are in the order of the names behind it. -/
theorem Path.text_under_le_iff (base : Path) {names others : List String} (hnames : names ≠ [])
    (hothers : others ≠ []) : (base.under names).text ≤ (base.under others).text ↔
      Text.join "/" names ≤ Text.join "/" others := by
  have htext : ∃ before, ∀ names, names ≠ [] →
      (base.under names).text = before ++ Text.join "/" names := by
    by_cases hparts : base.parts = []
    · refine ⟨base.anchor.text, fun names hne => ?_⟩
      rw [under, hparts, List.nil_append, text_of_ne_nil _ hne]
    · refine ⟨base.anchor.text ++ (Text.join "/" base.parts ++ "/"), fun names hne => ?_⟩
      rw [under, text_of_ne_nil _ (by simp [hparts])]
      simp only [Text.join, String.intercalate_append_of_ne_nil hparts hne, String.append_assoc]
  obtain ⟨before, htext⟩ := htext
  rw [htext names hnames, htext others hothers, append_le_append_iff]

namespace Generator.Supplies
variable (c : Generation.Config) (given : Supplies)

/-- A connection stands in an earlier scene than another one, or earlier in the same scene. What
stands in several places counts at the first of them. -/
def Earlier (r r' : Scene.Connection) : Prop :=
  ∃ key key', FirstUnder ConnectionKey.Before (given.Stands c) key r ∧
    FirstUnder ConnectionKey.Before (given.Stands c) key' r' ∧ key.Before key'

/-- Of two connections into the files of a type, the first leads into a file that is named earlier,
or it leads into the same file and stands earlier. -/
def Precedes (paths : List String) (r r' : Scene.Connection) : Prop :=
  paths.idxOf r.scriptPath < paths.idxOf r'.scriptPath ∨
    r.scriptPath = r'.scriptPath ∧ given.Earlier c r r'

/-- The scenes lie below the project root, under paths that are written out and by resource paths
that name the same way. -/
def ScenesBelow : Prop :=
  ∀ path s, given.scene c path = some s → ∃ names, Path.LeadDown names ∧
    path = ((ResPath.rootOf c).under names).text ∧
      s.resPath = ResPath.scheme ++ Text.join "/" names

variable {c given}

theorem scenePath_of_stands {key : ConnectionKey} {r : Scene.Connection}
    (h : given.Stands c key r) : ∃ s, given.scene c key.1 = some s ∧ r.scenePath = s.resPath := by
  obtain ⟨s, asset, hs, hparse, hr⟩ := h
  refine ⟨s, hs, ?_⟩
  have hpath : asset.path = s.resPath := Scene.path_of_parse hparse
  rw [Scene.Asset.connections, List.mem_map] at hr
  obtain ⟨⟨tag, place⟩, -, he⟩ := hr
  rw [← hpath]
  cases he
  rfl

/-- Scenes below the project root are written in the order of their files. -/
theorem scenePath_le_of_earlier (hbelow : given.ScenesBelow c) {r r' : Scene.Connection}
    (h : given.Earlier c r r') : r.scenePath ≤ r'.scenePath := by
  obtain ⟨key, key', hkey, hkey', hbefore⟩ := h
  obtain ⟨s, hs, hr⟩ := scenePath_of_stands hkey.here
  obtain ⟨s', hs', hr'⟩ := scenePath_of_stands hkey'.here
  obtain ⟨names, hnames, hpath, hres⟩ := hbelow _ s hs
  obtain ⟨names', hnames', hpath', hres'⟩ := hbelow _ s' hs'
  have hle : key.1 ≤ key'.1 := hbefore.elim le_of_lt fun hsame => hsame.1.le
  rw [hpath, hpath', Path.text_under_le_iff _ hnames.nonempty hnames'.nonempty] at hle
  rw [hr, hr', hres, hres', append_le_append_iff]
  exact hle

theorem scenesBelow_fed {snapshots : List Snapshot} {symbols : SymbolTable}
    (h : ∀ s ∈ snapshots, ∃ names, Path.LeadDown names ∧
      s.path = ((ResPath.rootOf c).under names).text ∧
        s.resPath = ResPath.scheme ++ Text.join "/" names) :
    (Supplies.fed c snapshots symbols).ScenesBelow c := by
  intro path s hs
  rw [Supplies.fed_scene, Option.ite_none_right_eq_some] at hs
  have hpath : s.path = path := by simpa using List.find?_some hs.2
  subst hpath
  exact h s (mem_of_lastUnder hs.2)

end Generator.Supplies

/-- How a type lists the connections to each of its handlers. -/
structure Wiring.InOrder (c : Generation.Config) (given : Generator.Supplies) (t : TypeSymbol)
    (pairs : List (String × Scene.Connection)) : Prop where
  /-- Connections are listed file by file, in the order in which the files are named, and for each
  file in the order of scenes and places. -/
  byFile : pairs.Pairwise fun x y => x.1 = y.1 →
    given.Precedes c (scriptResPaths c t.sourcePaths) x.2 y.2
  /-- A type with one file lists connections in the order of scenes and places. -/
  byScene : (∀ path ∈ scriptResPaths c t.sourcePaths, ∀ path' ∈ scriptResPaths c t.sourcePaths,
      path = path') → pairs.Pairwise fun x y => x.1 = y.1 → given.Earlier c x.2 y.2
  /-- So the scene paths that it writes are in order. -/
  byName : (∀ path ∈ scriptResPaths c t.sourcePaths, ∀ path' ∈ scriptResPaths c t.sourcePaths,
      path = path') → given.ScenesBelow c →
        pairs.Pairwise fun x y => x.1 = y.1 → x.2.scenePath ≤ y.2.scenePath

namespace Project.Holds
variable {c : Generation.Config} {p : Project} {given : Generator.Supplies} (h : p.Holds c given)
include h

/-- The connections into one file are in the order of scenes and places. -/
theorem pairwise_under (path : String) :
    ((p.connections c).under (·.scriptPath) path).eraseDups.Pairwise (given.Earlier c) := by
  have hkeys : ((p.connections c).items.map Prod.fst).Pairwise ConnectionKey.Before :=
    (ConnectionKey.pairwise_sortedBy _).sublist (p.connections c).keys_items_sublist
  have hitems := (List.pairwise_map.mp hkeys).filter fun x => x.2.scriptPath == path
  refine (pairwise_eraseDups_snd hitems).imp_of_mem fun {r r'} hr hr' => ?_
  -- A connection into the file stands where it is listed among those into the file.
  have hplaces {r : Scene.Connection} (hr : r ∈ ((p.connections c).under (·.scriptPath) path))
      {key : ConnectionKey} : (key, r) ∈ ((p.connections c).items.filter
        fun x => x.2.scriptPath == path) ↔ given.Stands c key r := by
    rw [List.mem_filter, h.mem_connections, beq_iff_eq, and_iff_left (Listing.mem_under.mp hr).1]
  have hfirst {r : Scene.Connection} (hr : r ∈ ((p.connections c).under (·.scriptPath) path))
      {key : ConnectionKey} (hkey : FirstUnder ConnectionKey.Before (fun key r => (key, r) ∈
        (p.connections c).items.filter fun x => x.2.scriptPath == path) key r) :
      FirstUnder ConnectionKey.Before (given.Stands c) key r :=
    ⟨(hplaces hr).mp hkey.here, fun j hj => hkey.first j ((hplaces hr).mpr hj)⟩
  rintro ⟨key, key', hkey, hkey', hbefore⟩
  exact ⟨key, key', hfirst (List.mem_eraseDups.mp hr) hkey,
    hfirst (List.mem_eraseDups.mp hr') hkey', hbefore⟩

/-- Incoming connections are in the order of the files that they lead into. -/
theorem pairwise_incoming (t : TypeSymbol) :
    (p.incoming c t).Pairwise (given.Precedes c (scriptResPaths c t.sourcePaths)) := by
  have hpath {path : String} {r : Scene.Connection}
      (hr : r ∈ ((p.connections c).under (·.scriptPath) path).eraseDups) : r.scriptPath = path :=
    (Listing.mem_under.mp (List.mem_eraseDups.mp hr)).1
  rw [incoming, Listing.sharing_eq_flatMap, List.pairwise_flatMap]
  constructor
  · intro path _
    refine (h.pairwise_under path).imp_of_mem fun hr hr' hearlier => .inr ⟨?_, hearlier⟩
    rw [hpath hr, hpath hr']
  · refine (pairwise_idxOf_eraseDups _).imp fun {path path'} hlt r hr r' hr' => .inl ?_
    rwa [hpath hr, hpath hr']

theorem pairwise_wired_precedes (t : TypeSymbol) : (p.wired c t).Pairwise fun x y => x.1 = y.1 →
    given.Precedes c (scriptResPaths c t.sourcePaths) x.2 y.2 := by
  rw [wired, List.pairwise_flatMap]
  constructor
  · intro name _
    rw [List.pairwise_map]
    refine ((h.pairwise_incoming t).filter _).imp fun {r r'} hprecedes => ?_
    exact fun _ => hprecedes
  · refine (Table.nodup_eraseDups _).imp fun {name name'} hne x hx y hy heq => absurd ?_ hne
    obtain ⟨_, -, rfl⟩ := List.mem_map.mp hx
    obtain ⟨_, -, rfl⟩ := List.mem_map.mp hy
    exact heq

end Project.Holds

namespace Project.Holds
variable {c : Generation.Config} {p : Project} {given : Generator.Supplies} (h : p.Holds c given)
include h

theorem wired_inOrder (t : TypeSymbol) : Wiring.InOrder c given t (p.wired c t) := by
  have hscene (hone : ∀ path ∈ scriptResPaths c t.sourcePaths,
      ∀ path' ∈ scriptResPaths c t.sourcePaths, path = path') :
      (p.wired c t).Pairwise fun x y => x.1 = y.1 → given.Earlier c x.2 y.2 := by
    refine (h.pairwise_wired_precedes t).imp_of_mem fun {x y} hx hy hprecedes heq => ?_
    have hpath : x.2.scriptPath = y.2.scriptPath :=
      hone _ (h.mem_wired.mp hx).scriptPath _ (h.mem_wired.mp hy).scriptPath
    refine (hprecedes heq).elim (fun hlt => ?_) And.right
    rw [hpath] at hlt
    exact absurd hlt (Nat.lt_irrefl _)
  exact {
    byFile := h.pairwise_wired_precedes t
    byScene := hscene
    byName := fun hone hbelow => (hscene hone).imp fun hearlier heq =>
      Generator.Supplies.scenePath_le_of_earlier hbelow (hearlier heq) }

/-- A class has a connection fragment only if it derives from the root type. -/
theorem derivesFromRoot_of_item (hnodup : (Table.keys given.symbols).Nodup) {key : String}
    {f : GeneratedFragment} (hf : (p.connectionFragments c).item key = some f) :
    ∃ cls, given.scanned key = some cls ∧ cls.derivesFromRoot := by
  rw [connectionFragments, Listing.item_map, Option.bind_eq_some_iff] at hf
  obtain ⟨pair, hpair, -⟩ := hf
  rw [classConnections, Listing.join, Option.map_eq_some_iff] at hpair
  obtain ⟨record, hrecord, -⟩ := hpair
  rw [classRecords, Listing.item_map, h.scannedClasses_item hnodup, Option.bind_eq_some_iff]
    at hrecord
  obtain ⟨cls, hcls, hkept⟩ := hrecord
  obtain ⟨t, -, rfl⟩ := Generator.Supplies.exists_type_of_scanned hcls
  have hrecord : (Scan.scannedAmong given.known t).classRecord = some record :=
    (Option.filter_eq_some_iff.mp hkept).1
  exact ⟨_, hcls, ((Scan.scannedAmong_classRecord given.known t).mp hrecord).1⟩

end Project.Holds

namespace Generator

/-- After the run of a generator that was given scenes and types, a class lists the connections that
reach it file by file, and those into one file in the order of scenes and places. -/
theorem run_wires_inOrder (c : Generation.Config) (snapshots : List Snapshot)
    (symbols : SymbolTable) (hnodup : (Table.keys symbols).Nodup) {key : String}
    {t : TypeSymbol} (ht : (Supplies.fed c snapshots symbols).type key = some t) :
    ∃ result fragment, ((fed c snapshots symbols).run none).1 = .ok result ∧
      (((fed c snapshots symbols).run none).2.ask
        (readNode (.connectionFragments (.item key)))).1 = .ok fragment ∧
      ∀ f, fragment = some f → ∃ pairs, Wiring c (.fed c snapshots symbols) t pairs fragment ∧
        Wiring.InOrder c (.fed c snapshots symbols) t pairs := by
  obtain ⟨p, hp, hrun, hask⟩ := run_connectionFragments c snapshots hnodup
  refine ⟨p.result c, (p.connectionFragments c).item key, hrun, hask key, fun f hf => ?_⟩
  obtain ⟨cls, hcls, hroot⟩ := hp.derivesFromRoot_of_item hnodup hf
  exact ⟨p.wired c t, hp.wiring hnodup ht hcls hroot, hp.wired_inOrder t⟩

namespace Spread
open Button (menu symbols)

/-- A scene whose button is connected to a script. -/
def text (script : String) : String :=
  "[ext_resource path=\"res://" ++ script ++ "\" id=\"1\"]\n[node name=\"Menu\"]\n" ++
    "script = ExtResource(\"1\")\n[connection to=\".\" method=\"OnPressed\"]"

def scene (name script : String) : Snapshot :=
  ⟨"/game/" ++ name, "res://" ++ name, "", text script⟩

def tag (script : String) : Scene.Tag :=
  ⟨.connection, "OnPressed", [("to", "."), ("method", "OnPressed"),
    (Scene.scriptPathKey, "res://" ++ script)]⟩

def pressed (name script : String) : Scene.Connection := ⟨"res://" ++ name, tag script⟩

/-- The button is the only connection of a scene, whatever the scene is called. -/
def Retained (script : String) : Prop :=
  ((Scene.Reading.ofLines ".cs" (Text.lines (text script))).asset? "").map (·.connectionTags) =
    some [tag script]

theorem retained {script : String}
    (htext : text script = Text.join "\n" (Scene.menu (Scene.headerLine "ext_resource"
      [.quoted "path" ("res://" ++ script), .quoted "id" "1"])))
    (hunbroken : (Scene.writtenPairs [.quoted "path" ("res://" ++ script), .quoted "id" "1"]).any
      Text.isLineBreak = false)
    (hsuffix : Text.hasSuffix ".cs" ("res://" ++ script) = true) : Retained script := by
  have htags := Scene.connectionTags_menu
    [.quoted "path" ("res://" ++ script), .quoted "id" "1"] rfl hsuffix rfl ""
  rw [← Scene.lines_menu hunbroken, ← htext] at htags
  exact htags

theorem retained_menu : Retained "Menu.cs" := retained rfl (by decide) (by decide)

theorem retained_input : Retained "MenuInput.cs" := retained rfl (by decide) (by decide)

/-- Two scenes that lead to the only file of a menu. -/
def scenes : List Snapshot := [scene "second.tscn" "Menu.cs", scene "first.tscn" "Menu.cs"]

def given : Supplies := .fed Button.config scenes symbols

/-- Two scenes of which the first leads to the second file of a menu. -/
def spreadScenes : List Snapshot :=
  [scene "second.tscn" "Menu.cs", scene "first.tscn" "MenuInput.cs"]

def spreadMenu : TypeSymbol := { menu with sourcePaths := ["/game/Menu.cs", "/game/MenuInput.cs"] }

def spreadSymbols : SymbolTable := Table.set "Menu" spreadMenu symbols

def spreadGiven : Supplies := .fed Button.config spreadScenes spreadSymbols

theorem reaches {g : Supplies} {t : TypeSymbol} (name : String) {script : String}
    (hscene : g.scene Button.config ("/game/" ++ name) = some (scene name script))
    (hretained : Retained script)
    (hpath : (pressed name script).scriptPath ∈ scriptResPaths Button.config t.sourcePaths)
    (hhandler : "OnPressed" ∈ Scan.handlerNames t.members) :
    g.Reaches Button.config t "OnPressed" (pressed name script) := by
  obtain ⟨asset, hasset, htags⟩ := Option.map_eq_some_iff.mp hretained
  have hparse : Scene.parse ".cs" ("res://" ++ name) (Text.lines (text script)) =
      some ⟨"res://" ++ name, asset.tags⟩ := Scene.Reading.asset?_eq_some hasset _
  have hconnections : (⟨"res://" ++ name, asset.tags⟩ : Scene.Asset).connections =
      [(0, pressed name script)] := by
    have htags : Scene.Asset.connectionTags ⟨"res://" ++ name, asset.tags⟩ = [tag script] := htags
    rw [Scene.Asset.connections, htags]
    rfl
  exact ⟨⟨_, _, _, hscene, hparse, by simp [hconnections]⟩, hpath, rfl, hhandler⟩

theorem leadDown (name : String) (hpart : Path.IsPart name) (hne : name ≠ "..") :
    Path.LeadDown [name] where
  part := by simpa using hpart
  noParent := by simpa using hne.symm
  nonempty := List.cons_ne_nil _ _

theorem scenesBelow : given.ScenesBelow Button.config := by
  refine Supplies.scenesBelow_fed fun s hs => ?_
  obtain rfl | rfl : s = scene "second.tscn" "Menu.cs" ∨ s = scene "first.tscn" "Menu.cs" := by
    simpa [scenes] using hs
  · exact ⟨["second.tscn"], leadDown _ ⟨by decide, by decide⟩ (by decide), by decide, by decide⟩
  · exact ⟨["first.tscn"], leadDown _ ⟨by decide, by decide⟩ (by decide), by decide, by decide⟩

end Spread

theorem run_wires_inOrder_scenes : (Table.keys Button.symbols).Nodup ∧
    Spread.given.type "Menu" = some Button.menu ∧ Spread.given.ScenesBelow Button.config ∧
    scriptResPaths Button.config Button.menu.sourcePaths = ["res://Menu.cs"] ∧
    (∀ name ∈ ["first.tscn", "second.tscn"], Spread.given.Reaches Button.config Button.menu
      "OnPressed" (Spread.pressed name "Menu.cs")) ∧
    ∃ result fragment,
      ((fed Button.config Spread.scenes Button.symbols).run none).1 = .ok result ∧
      (((fed Button.config Spread.scenes Button.symbols).run none).2.ask
        (readNode (.connectionFragments (.item "Menu")))).1 = .ok fragment ∧
      ∀ f, fragment = some f → ∃ pairs,
        Wiring Button.config Spread.given Button.menu pairs fragment ∧
          Wiring.InOrder Button.config Spread.given Button.menu pairs := by
  refine ⟨by decide, rfl, Spread.scenesBelow, by decide, fun name hname => ?_,
    run_wires_inOrder Button.config Spread.scenes Button.symbols (by decide) rfl⟩
  obtain rfl | rfl : name = "first.tscn" ∨ name = "second.tscn" := by simpa using hname
  · exact Spread.reaches "first.tscn" (by decide) Spread.retained_menu (by decide) (by decide)
  · exact Spread.reaches "second.tscn" (by decide) Spread.retained_menu (by decide) (by decide)

/-- A menu whose list follows its files and not the scenes. -/
theorem spread_menu_out_of_order : ∃ result pairs fragment,
    ((fed Button.config Spread.spreadScenes Spread.spreadSymbols).run none).1 = .ok result ∧
    (((fed Button.config Spread.spreadScenes Spread.spreadSymbols).run none).2.ask
      (readNode (.connectionFragments (.item "Menu")))).1 = .ok fragment ∧
    Wiring Button.config Spread.spreadGiven Spread.spreadMenu pairs fragment ∧
    ¬ pairs.Pairwise fun x y => x.1 = y.1 → x.2.scenePath ≤ y.2.scenePath := by
  have hnodup : (Table.keys Spread.spreadSymbols).Nodup := by decide
  have hcls : Spread.spreadGiven.scanned "Menu" =
      some (Scan.scannedAmong Spread.spreadGiven.known Spread.spreadMenu) := by
    have hinterest : Scan.isOfInterest Spread.spreadGiven.known Spread.spreadMenu = true := by
      decide
    show (Scan.scanClass Spread.spreadGiven.known Spread.spreadMenu).run = _
    rw [Scan.scanClass_run, if_pos hinterest]
  obtain ⟨p, hp, hrun, hask⟩ := run_connectionFragments Button.config Spread.spreadScenes hnodup
  have hwiring := hp.wiring hnodup (t := Spread.spreadMenu) rfl hcls (by decide)
  refine ⟨_, _, _, hrun, hask "Menu", hwiring, fun hordered => ?_⟩
  have hfirst := (hwiring.listed _ _).mpr <| Spread.reaches (g := Spread.spreadGiven)
    "first.tscn" (by decide) Spread.retained_input (by decide) (by decide)
  have hsecond := (hwiring.listed _ _).mpr <| Spread.reaches (g := Spread.spreadGiven)
    "second.tscn" (by decide) Spread.retained_menu (by decide) (by decide)
  have horders := hordered.and (hp.pairwise_wired_precedes Spread.spreadMenu)
  -- The names of the files speak against the one order, those of the scenes against the other.
  rcases rel_or_rel horders hfirst hsecond (by decide) with ⟨-, hprecedes⟩ | ⟨hle, -⟩
  · rcases hprecedes rfl with hlt | ⟨hpath, -⟩
    · exact absurd hlt (by decide)
    · exact absurd hpath (by decide)
  · exact absurd (hle rfl) (by decide)

end Generator
end SceneCodegen
