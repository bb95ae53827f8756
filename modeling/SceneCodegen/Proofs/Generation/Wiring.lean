import SceneCodegen.Proofs.Generation.Assembling
import SceneCodegen.Proofs.Fragment.Lists
import SceneCodegen.Proofs.Generation.Classes
import SceneCodegen.Proofs.Scan.Handlers
import SceneCodegen.Proofs.Scene.Passages

/-!
# Wiring of classes

The connections that scenes retain are handed to the classes whose files they lead into. A class
that derives from the root type lists, for each of its handlers, each connection to it once.
-/
namespace SceneCodegen
open SceneCodegen.Graph Generation

namespace Generator.Supplies

def Retains (c : Generation.Config) (given : Supplies) (r : Scene.Connection) : Prop :=
  ∃ path s asset, given.scene c path = some s ∧
    Scene.parse c.scriptExtension s.resPath s.lines = some asset ∧
      r ∈ asset.connections.map Prod.snd

/-- A connection stands at a place of a scene. -/
def Stands (c : Generation.Config) (given : Supplies) (key : ConnectionKey) (r : Scene.Connection) :
    Prop :=
  ∃ s asset, given.scene c key.1 = some s ∧
    Scene.parse c.scriptExtension s.resPath s.lines = some asset ∧ (key.2, r) ∈ asset.connections

/-- A connection leads to a handler of a type. -/
structure Reaches (c : Generation.Config) (given : Supplies) (t : TypeSymbol) (name : String)
    (r : Scene.Connection) : Prop where
  retained : given.Retains c r
  scriptPath : r.scriptPath ∈ scriptResPaths c t.sourcePaths
  method : r.method = name
  handler : name ∈ Scan.handlerNames t.members

end Generator.Supplies

/-- Connections with the handlers they lead to, as they are listed. -/
def listedPairs (t : TypeSymbol) (pairs : List (String × Scene.Connection)) :
    List (String × String) :=
  pairs.map fun (name, r) => (Fragment.connectionText r, Scan.firstCall t.members name)

def wiringFragment (t : TypeSymbol) (pairs : List (String × Scene.Connection)) :
    GeneratedFragment :=
  ⟨hintNameOf t.qualifiedName ++ "_GodotHelper_ConnectionTscn.g.cs",
    Fragment.ended (Fragment.wiringLines t.nameSpace t.name (listedPairs t pairs))⟩

/-- No line feed cuts a line in which connections are listed. -/
structure Uncut (t : TypeSymbol) (pairs : List (String × Scene.Connection)) : Prop where
  nameSpace : '\n' ∉ t.nameSpace.toList
  name : '\n' ∉ t.name.toList
  listed : ∀ p ∈ listedPairs t pairs, '\n' ∉ p.1.toList ∧ '\n' ∉ p.2.toList

open Generator in
/-- What a type lists of the connections that reach it, if there are any. -/
structure Wiring (c : Generation.Config) (given : Supplies) (t : TypeSymbol)
    (pairs : List (String × Scene.Connection)) (fragment : Option GeneratedFragment) : Prop where
  listed : ∀ name r, (name, r) ∈ pairs ↔ given.Reaches c t name r
  once : pairs.Nodup
  ordered : pairs.Pairwise fun x y =>
    (Scan.handlerNames t.members).idxOf x.1 ≤ (Scan.handlerNames t.members).idxOf y.1
  written : pairs ≠ [] → fragment = some (wiringFragment t pairs)
  read : Uncut t pairs → ∀ f, fragment = some f →
    Fragment.readListed (Fragment.linesBetween "        return;" "    \x7d" f.text) =
      some (listedPairs t pairs)
  absent : fragment = none ↔ ∀ name r, ¬ given.Reaches c t name r

namespace Scene.Asset

theorem nodup_places (a : Asset) : (Table.keys a.connections).Nodup := by
  have hplaces : Table.keys a.connections = a.connectionTags.zipIdx.map Prod.snd := by
    rw [Table.keys, connections, List.map_map]
    rfl
  rw [hplaces, List.zipIdx_map_snd]
  exact List.nodup_range'

/-- Each connection of an asset is found at its place. -/
theorem find?_connections {a : Asset} {place : Nat} {r : Connection} :
    a.connections.find? (·.1 == place) = some (place, r) ↔ (place, r) ∈ a.connections := by
  refine ⟨List.mem_of_find?_eq_some, fun hmem => ?_⟩
  have hget := Table.get?_of_mem a.nodup_places hmem
  have hfind := Table.get?_map_pairs Prod.fst Prod.snd place a.connections
  rw [List.map_id', hget, eq_comm, Option.map_eq_some_iff] at hfind
  obtain ⟨⟨place', r'⟩, hfound, rfl⟩ := hfind
  obtain rfl : place' = place := by simpa using List.find?_some hfound
  exact hfound

end Scene.Asset

namespace Project.Holds
variable {c : Generation.Config} {p : Project} {given : Generator.Supplies} (h : p.Holds c given)
include h

/-- A connection is listed under its scene file and its place in the scene. -/
theorem mem_connections {key : ConnectionKey} {r : Scene.Connection} :
    (key, r) ∈ (p.connections c).items ↔ given.Stands c key r := by
  obtain ⟨path, place⟩ := key
  have hitem : (p.sceneAssets c).item path = (given.scene c path).bind fun s =>
      Scene.parse c.scriptExtension s.resPath s.lines := by
    rw [sceneAssets, Listing.item_map, h.scenes.item]
  have hkeys : (p.sceneAssets c).keys = p.scenes.keys := rfl
  rw [connections, Listing.mem_items_flat fun _ _ => mem_sortedBy, hkeys]
  simp only [hitem, Option.bind_eq_some_iff, Scene.Asset.find?_connections]
  constructor
  · rintro ⟨-, asset, ⟨s, hs, hparse⟩, hr⟩
    exact ⟨s, asset, hs, hparse, hr⟩
  · rintro ⟨s, asset, hs, hparse, hr⟩
    refine ⟨?_, asset, ⟨s, hs, hparse⟩, hr⟩
    rw [h.scenes.mem_keys, h.scenes.item, hs]
    rfl

/-- The connections there are, are those that scenes retain. -/
theorem exists_mem_connections {r : Scene.Connection} :
    (∃ key, (key, r) ∈ (p.connections c).items) ↔ given.Retains c r := by
  simp only [h.mem_connections]
  constructor
  · rintro ⟨⟨path, place⟩, s, asset, hs, hparse, hr⟩
    exact ⟨path, s, asset, hs, hparse, List.mem_map_of_mem (f := Prod.snd) hr⟩
  · rintro ⟨path, s, asset, hs, hparse, hr⟩
    obtain ⟨⟨place, r⟩, hmem, rfl⟩ := List.mem_map.mp hr
    exact ⟨(path, place), s, asset, hs, hparse, hmem⟩

end Project.Holds

namespace Project
variable (c : Generation.Config) (p : Project) (t : TypeSymbol)

/-- The connections into the files of a type. -/
def incoming : List Scene.Connection :=
  (p.connections c).sharing (scriptResPaths c t.sourcePaths) (·.scriptPath)

/-- The handlers of a type with the connections to each. -/
def wired : List (String × Scene.Connection) :=
  (Scan.handlerNames t.members).eraseDups.flatMap fun name =>
    ((p.incoming c t).filter (·.method == name)).map (name, ·)

variable {c p t}

theorem Holds.mem_wired {given : Generator.Supplies} (h : p.Holds c given) {name : String}
    {r : Scene.Connection} : (name, r) ∈ p.wired c t ↔ given.Reaches c t name r := by
  have hincoming {r : Scene.Connection} : r ∈ p.incoming c t ↔
      r.scriptPath ∈ scriptResPaths c t.sourcePaths ∧ given.Retains c r := by
    rw [incoming, Listing.mem_sharing, ← h.exists_mem_connections]
    simp only [Listing.mem_items]
  simp only [wired, List.mem_flatMap, List.mem_eraseDups, List.mem_map, List.mem_filter,
    beq_iff_eq, hincoming]
  constructor
  · rintro ⟨_, hname, _, ⟨⟨hpath, hretained⟩, hmethod⟩, he⟩
    obtain ⟨rfl, rfl⟩ := Prod.mk.inj he
    exact ⟨hretained, hpath, hmethod, hname⟩
  · intro hreaches
    exact ⟨name, hreaches.handler, r, ⟨⟨hreaches.scriptPath, hreaches.retained⟩, hreaches.method⟩,
      rfl⟩

theorem pairwise_wired : (p.wired c t).Pairwise fun x y => x ≠ y ∧
    (Scan.handlerNames t.members).idxOf x.1 ≤ (Scan.handlerNames t.members).idxOf y.1 := by
  have hnodup : (p.incoming c t).Nodup := Listing.nodup_sharing
  rw [wired, List.pairwise_flatMap]
  refine ⟨fun name _ => ?_, (pairwise_idxOf_eraseDups _).imp fun {a b} hab x hx y hy => ?_⟩
  · rw [List.pairwise_map]
    refine (hnodup.filter _).imp fun {r r'} hne => ⟨fun he => hne (Prod.mk.inj he).2, le_rfl⟩
  · obtain ⟨r, -, rfl⟩ := List.mem_map.mp hx
    obtain ⟨r', -, rfl⟩ := List.mem_map.mp hy
    exact ⟨fun he => by simp [(Prod.mk.inj he).1] at hab, hab.le⟩

/-- A type lists its handlers with the connections to each, if there are any. -/
theorem connectionFragment_eq (c : Generation.Config) (p : Project) (t : TypeSymbol) :
    connectionFragment ⟨Scan.classRecord t, p.incoming c t⟩ =
      if p.wired c t = [] then none else some (wiringFragment t (p.wired c t)) := by
  have hlisted : Fragment.listedOf (Scan.classRecord t) (p.incoming c t) =
      listedPairs t (p.wired c t) := by
    have hmethods : (Scan.classRecord t).methods = Scan.methods t.members := rfl
    rw [Fragment.listedOf, hmethods, Scan.methods_eq, listedPairs, wired, List.flatMap_map,
      List.map_flatMap]
    simp only [List.map_map, Function.comp_def]
  have hrender : Fragment.renderConnectionList (Scan.classRecord t) (p.incoming c t) =
      if p.wired c t = [] then none else some (wiringFragment t (p.wired c t)) := by
    have hempty : listedPairs t (p.wired c t) = [] ↔ p.wired c t = [] := List.map_eq_nil_iff
    simp only [Fragment.renderConnectionList_eq, hlisted, hempty]
    rfl
  simp only [connectionFragment, hrender, List.isEmpty_iff]
  split
  · rename_i hnone
    rw [if_pos]
    simp [wired, hnone]
  · rfl

namespace Holds
variable {given : Generator.Supplies} (h : p.Holds c given)
  (hnodup : (Table.keys given.symbols).Nodup) {key : String} {cls : ScannedClass}
  (ht : given.type key = some t) (hcls : given.scanned key = some cls)
  (hroot : cls.derivesFromRoot)
include h hnodup ht hcls hroot

theorem connectionFragments_item : (p.connectionFragments c).item key =
    if p.wired c t = [] then none else some (wiringFragment t (p.wired c t)) := by
  obtain ⟨t', ht', rfl⟩ := Generator.Supplies.exists_type_of_scanned hcls
  obtain rfl : t = t' := Option.some.inj (ht.symm.trans ht')
  have hrecord : (Scan.scannedAmong given.known t).classRecord = some (Scan.classRecord t) :=
    (Scan.scannedAmong_classRecord given.known t).mpr ⟨hroot, rfl⟩
  have hpair : (p.classConnections c).item key =
      (methodfulRecord (Scan.scannedAmong given.known t)).map fun r =>
        ⟨r, (p.connections c).sharing (scriptResPaths c r.sourcePaths) (·.scriptPath)⟩ := by
    show ((p.classRecords).item key).map _ = _
    rw [classRecords, Listing.item_map, h.scannedClasses_item hnodup, hcls]
    rfl
  rw [connectionFragments, Listing.item_map, hpair, methodfulRecord, hrecord,
    Option.filter_some]
  cases hmethods : (Scan.classRecord t).methods.isEmpty with
  | false => exact connectionFragment_eq c p t
  | true =>
    have hnames : (Scan.handlerNames t.members).eraseDups = [] := by
      have hmethods : Scan.methods t.members = [] := List.isEmpty_iff.mp hmethods
      rwa [Scan.methods_eq, List.map_eq_nil_iff] at hmethods
    have hnone : p.wired c t = [] := by
      rw [wired, hnames]
      rfl
    exact (if_pos hnone).symm

/-- A type that derives from the root type lists exactly the connections that reach it. -/
theorem wiring : Wiring c given t (p.wired c t) ((p.connectionFragments c).item key) where
  listed name r := h.mem_wired
  once := pairwise_wired.imp And.left
  ordered := pairwise_wired.imp And.right
  written hsome := by rw [h.connectionFragments_item hnodup ht hcls hroot, if_neg hsome]
  read huncut f hf := by
    rw [h.connectionFragments_item hnodup ht hcls hroot, Option.ite_none_left_eq_some] at hf
    obtain rfl := Option.some.inj hf.2
    exact Fragment.readListed_wiringLines huncut.nameSpace huncut.name huncut.listed
  absent := by
    have hnone : p.wired c t = [] ↔ ∀ name r, ¬ given.Reaches c t name r := by
      simp only [List.eq_nil_iff_forall_not_mem, Prod.forall, h.mem_wired]
    rw [h.connectionFragments_item hnodup ht hcls hroot, ← hnone]
    split
    · rename_i hempty
      exact iff_of_true rfl hempty
    · rename_i hsome
      exact iff_of_false (by simp) hsome

end Holds
end Project

namespace Generator

/-- After its run a generator answers with the connection fragments of the project that it was
given. -/
theorem run_connectionFragments (c : Generation.Config) (snapshots : List Snapshot)
    {symbols : SymbolTable} (hnodup : (Table.keys symbols).Nodup) :
    ∃ p, Project.Holds p c (.fed c snapshots symbols) ∧
      ((fed c snapshots symbols).run none).1 = .ok (p.result c) ∧
      ∀ key, (((fed c snapshots symbols).run none).2.ask
        (readNode (.connectionFragments (.item key)))).1 =
          .ok ((p.connectionFragments c).item key) := by
  obtain ⟨p, value, hp, hrun, hshows⟩ := run_fed c snapshots hnodup
  obtain ⟨inputs, hvalue⟩ := hshows.exists_inputs
  have hlists := p.connectionFragments_lists hvalue hshows.feeds rfl
  refine ⟨p, hp, hrun, fun key => ?_⟩
  have hitem : value (.connectionFragments (.item key)) = (p.connectionFragments c).item key :=
    (Program.ComesTo.get _).unique (hlists.item key)
  rw [← hitem]
  exact hshows.ask (.get _) (Program.safe_get (show 9 < depth by decide))

/-- After the run of a generator that was given scenes and types, every scanned class that derives
from the root type lists exactly the connections that reach it, in a fragment of the run unless
another fragment has its name. -/
theorem run_wires (c : Generation.Config) (snapshots : List Snapshot) (symbols : SymbolTable)
    (hnodup : (Table.keys symbols).Nodup) {key : String} {t : TypeSymbol} {cls : ScannedClass}
    (ht : (Supplies.fed c snapshots symbols).type key = some t)
    (hcls : (Supplies.fed c snapshots symbols).scanned key = some cls)
    (hroot : cls.derivesFromRoot) :
    ∃ result pairs fragment, ((fed c snapshots symbols).run none).1 = .ok result ∧
      (((fed c snapshots symbols).run none).2.ask
        (readNode (.connectionFragments (.item key)))).1 = .ok fragment ∧
      Wiring c (.fed c snapshots symbols) t pairs fragment ∧
      ∀ f, fragment = some f → f ∈ result.fragments ∨
        (∃ g ∈ result.fragments, g.hintName = f.hintName) ∧
          duplicateHintName f ∈ result.diagnostics := by
  obtain ⟨p, hp, hrun, hask⟩ := run_connectionFragments c snapshots hnodup
  refine ⟨p.result c, p.wired c t, (p.connectionFragments c).item key, hrun, hask key,
    hp.wiring hnodup ht hcls hroot, fun f hf => ?_⟩
  have hkey : key ∈ (p.connectionFragments c).keys := hp.mem_scannedClasses_keys hcls
  have hmem : f ∈ (p.connectionFragments c).items.map Prod.snd :=
    List.mem_map_of_mem (f := Prod.snd) (Listing.mem_items.mpr ⟨hkey, hf⟩)
  have hcandidate : f ∈ p.candidates c := List.mem_append_right _ hmem
  refine (mem_assemble_or_reported hcandidate).imp_right (And.imp_right fun hreported => ?_)
  exact (p.mem_diagnostics hp.manifests.diagnostics hp.scenes.diagnostics
    hp.types.diagnostics).mpr (.inr (.inr (.inr hreported)))

namespace Button

def config : Generation.Config := { projectRoot := "/game" }

def text : String :=
  "[ext_resource path=\"res://Menu.cs\" id=\"1\"]\n[node name=\"Menu\"]\n" ++
    "script = ExtResource(\"1\")\n[connection to=\".\" method=\"OnPressed\"]"

def scene : Snapshot := ⟨"/game/Menu.tscn", "res://Menu.tscn", "", text⟩

def menu : TypeSymbol :=
  { name := "Menu", baseType := some "Godot.GodotObject", sourcePaths := ["/game/Menu.cs"]
    members := [{ kind := .method, name := "OnPressed" }] }

def symbols : SymbolTable :=
  [("Godot.GodotObject", { name := "GodotObject", nameSpace := "Godot", assembly := "GodotSharp" }),
    ("Menu", menu)]

def given : Supplies := .fed config [scene] symbols

def pressed : Scene.Connection :=
  ⟨"res://Menu.tscn", ⟨.connection, "OnPressed", [("to", "."), ("method", "OnPressed"),
    (Scene.scriptPathKey, "res://Menu.cs")]⟩⟩

theorem scanned_menu : given.scanned "Menu" = some (Scan.scannedAmong given.known menu) := by
  have hinterest : Scan.isOfInterest given.known menu = true := by decide
  show (Scan.scanClass given.known menu).run = _
  rw [Scan.scanClass_run, if_pos hinterest]

theorem reaches_menu : given.Reaches config menu "OnPressed" pressed where
  retained := by
    have hlines : scene.lines = Scene.menu (Scene.headerLine "ext_resource"
        [.quoted "path" "res://Menu.cs", .quoted "id" "1"]) := by
      have htext : text = Text.join "\n" (Scene.menu (Scene.headerLine "ext_resource"
        [.quoted "path" "res://Menu.cs", .quoted "id" "1"])) := rfl
      rw [Snapshot.lines, scene, htext, Scene.lines_menu (by decide)]
    have htags := Scene.connectionTags_menu [.quoted "path" "res://Menu.cs", .quoted "id" "1"]
      rfl (by decide) rfl scene.resPath
    rw [← hlines, Option.map_eq_some_iff] at htags
    obtain ⟨asset, hasset, htags⟩ := htags
    have hconnections : asset.connections = [(0, pressed)] := by
      rw [Scene.Asset.connections, htags, Scene.path_of_parse hasset]
      rfl
    have hscene : given.scene config "/game/Menu.tscn" = some scene := by decide
    exact ⟨_, scene, asset, hscene, hasset, by simp [hconnections]⟩
  scriptPath := by decide
  method := rfl
  handler := by decide

end Button

theorem run_wires_button : (Table.keys Button.symbols).Nodup ∧
    Button.given.type "Menu" = some Button.menu ∧
    Button.given.scanned "Menu" = some (Scan.scannedAmong Button.given.known Button.menu) ∧
    (Scan.scannedAmong Button.given.known Button.menu).derivesFromRoot = true ∧
    Button.given.Reaches Button.config Button.menu "OnPressed" Button.pressed ∧
    ∃ result pairs fragment,
      ((fed Button.config [Button.scene] Button.symbols).run none).1 = .ok result ∧
      (((fed Button.config [Button.scene] Button.symbols).run none).2.ask
        (readNode (.connectionFragments (.item "Menu")))).1 = .ok fragment ∧
      Wiring Button.config Button.given Button.menu pairs fragment ∧
      ∀ f, fragment = some f → f ∈ result.fragments ∨
        (∃ g ∈ result.fragments, g.hintName = f.hintName) ∧
          duplicateHintName f ∈ result.diagnostics := by
  have hroot : (Scan.scannedAmong Button.given.known Button.menu).derivesFromRoot = true := by
    decide
  exact ⟨by decide, rfl, Button.scanned_menu, hroot, Button.reaches_menu,
    run_wires Button.config [Button.scene] Button.symbols (by decide) rfl Button.scanned_menu hroot⟩

end Generator
end SceneCodegen
