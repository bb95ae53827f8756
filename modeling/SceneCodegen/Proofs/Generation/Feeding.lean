import SceneCodegen.Proofs.Generation.Histories
import SceneCodegen.Proofs.Generation.Meaning

/-!
# Generators fed once

A new generator that is given assets and types holds the project they make, and its run comes to
what that project does, whatever can be told apart of the types.
-/
namespace SceneCodegen
open SceneCodegen.Graph Generation

/-- A listing of items that are held under their keys, in the order of these. -/
structure Graph.Listing.Holds {α : Type} (L : Listing String α) (held : String → Option α) :
    Prop where
  item : L.item = held
  keys : ∃ l, (∀ i, i ∈ l ↔ (held i).isSome) ∧ L.keys = sortedBy compare l
  diagnostics : L.diagnostics = []

namespace Graph.Listing.Holds
variable {α : Type} {L L' : Listing String α} {held held' : String → Option α}

theorem mem_keys (h : L.Holds held) {i : String} : i ∈ L.keys ↔ (L.item i).isSome := by
  obtain ⟨l, hl, hkeys⟩ := h.keys
  rw [hkeys, mem_sortedBy, hl, h.item]

theorem closed (h : L.Holds held) : L.Closed := fun _ => h.mem_keys.mpr

theorem nodup_keys (h : L.Holds held) : L.keys.Nodup := by
  obtain ⟨l, -, hkeys⟩ := h.keys
  rw [hkeys]
  exact nodup_sortedBy compare l

/-- Which keys there are makes their order. -/
theorem same_keys (h : L.Holds held) (h' : L'.Holds held')
    (hsome : ∀ i, (held i).isSome = (held' i).isSome) : L.keys = L'.keys := by
  obtain ⟨l, hl, hkeys⟩ := h.keys
  obtain ⟨l', hl', hkeys'⟩ := h'.keys
  have hcongr : ItemKey.sorted l = ItemKey.sorted l' :=
    Ranked.sorted_congr l l' fun i => by rw [hl, hl', hsome]
  rw [hkeys, hkeys']
  exact Except.ok.inj hcongr

theorem unique (h : L.Holds held) (h' : L'.Holds held) : L = L' := by
  rcases L with ⟨keys, item, ds⟩
  rcases L' with ⟨keys', item', ds'⟩
  obtain rfl : keys = keys' := h.same_keys h' fun _ => rfl
  obtain rfl : item = item' := h.item.trans h'.item.symm
  obtain rfl : ds = ds' := h.diagnostics.trans h'.diagnostics.symm
  rfl

end Graph.Listing.Holds

/-- The project that supplies make. -/
structure Project.Holds (p : Project) (c : Generation.Config) (given : Generator.Supplies) :
    Prop where
  manifests : p.manifests.Holds (given.manifest c)
  scenes : p.scenes.Holds (given.scene c)
  types : p.types.Holds given.type

/-- Supplies make one project. -/
theorem Project.Holds.unique {p p' : Project} {c : Generation.Config}
    {given given' : Generator.Supplies} (h : p.Holds c given) (h' : p'.Holds c given')
    (hmanifest : given.manifest c = given'.manifest c) (hscene : given.scene c = given'.scene c)
    (htype : given.type = given'.type) : p = p' := by
  rcases p with ⟨manifests, scenes, types⟩
  rcases p' with ⟨manifests', scenes', types'⟩
  obtain rfl : manifests = manifests' := h.manifests.unique (hmanifest ▸ h'.manifests)
  obtain rfl : scenes = scenes' := h.scenes.unique (hscene ▸ h'.scenes)
  obtain rfl : types = types' := h.types.unique (htype ▸ h'.types)
  rfl

namespace Generator

/-- The orders that give a generator a project at once. -/
def feeding (snapshots : List Snapshot) (symbols : SymbolTable) : List Order :=
  [.replaceAssets snapshots, .replaceSymbols symbols]

/-- A new generator that was given a project. -/
def fed (c : Generation.Config) (snapshots : List Snapshot) (symbols : SymbolTable) : Generator :=
  follow (feeding snapshots symbols) { config := c }

/-- What a generator was given that was fed once. -/
def Supplies.fed (c : Generation.Config) (snapshots : List Snapshot) (symbols : SymbolTable) :
    Supplies := ofOrders c (feeding snapshots symbols)

theorem Supplies.fed_manifest (c : Generation.Config) (snapshots : List Snapshot)
    (symbols : SymbolTable) (path : String) : (fed c snapshots symbols).manifest c path =
      if Snapshot.isManifest c.manifestName path then lastUnder snapshots path else none :=
  @manifest_assets c {} (lastUnder snapshots) path

theorem Supplies.fed_scene (c : Generation.Config) (snapshots : List Snapshot)
    (symbols : SymbolTable) (path : String) : (fed c snapshots symbols).scene c path =
      if !Snapshot.isManifest c.manifestName path && Snapshot.isScene c.sceneExtension path then
        lastUnder snapshots path
      else none :=
  @scene_assets c {} (lastUnder snapshots) path

/-- Nothing was computed yet. -/
structure Unrun (s : Store Generation.Node Value) : Prop where
  memos : ∀ k, s.memos.get? k = none
  active : s.active = []
  token : s.token = none

section
variable {α : Type} [BEq α] {f : Family Generation.Node Value (InputNode.Value String α)}
  {s : Store Generation.Node Value} {items : Table String (Option α)}

omit [BEq α] in
theorem Unrun.of_replaced (h : Unrun s) {s' : Store Generation.Node Value}
    (hs : f.Replaced .eq items s s') : Unrun s' := by
  obtain ⟨keys, hset, -⟩ := hs.exists_set
  refine ⟨fun k => ?_, hset.active.trans h.active, hset.token.trans h.token⟩
  rw [hset.memos]
  exact h.memos k

/-- A stream of inputs that held nothing holds exactly what it is given. -/
theorem replaceAll_empty (hf : f.Faithful) (h : f.Tallies .eq s fun _ => none)
    (hidle : s.active = []) (hnodup : (Table.keys items).Nodup)
    (hsome : ∀ i, Table.get? i items ≠ some none) :
    ∃ changed s', f.replaceAll items s = (.ok changed, s') ∧ f.Replaced .eq items s s' := by
  refine hf.replaceAll_tallies h ?_ hidle hnodup hsome
  refine ⟨fun _ => rfl, fun _ => rfl, fun _ _ _ => rfl, fun i a x ha hx hsame => ?_⟩
  obtain rfl : x = none := by
    have hvalue := congrArg (f.decode (.item i)) (show f.encode (.item i) x = _ from hx)
    rw [hf.encode, hf.encode] at hvalue
    exact Except.ok.inj hvalue
  cases a with
  | none => exact absurd ha (hsome i)
  | some a => cases hsame

/-- A stream of inputs that holds exactly what it was given. -/
theorem lists_of_tallies (hf : f.Faithful) {held : String → Option α} (h : f.Tallies .eq s held) :
    (Listing.mk (f.valueOf .keys s) (fun i => f.valueOf (.item i) s) []).Holds held where
  item := by
    funext i
    have hvalue := congrArg (f.decode (.item i)) (show f.encode (.item i) _ = _ from h.like i)
    rw [hf.encode, hf.encode] at hvalue
    exact Except.ok.inj hvalue
  keys := by
    obtain ⟨l, hl, hsorted⟩ := h.keys
    exact ⟨l, hl, (Except.ok.inj hsorted).symm⟩
  diagnostics := rfl

end

/-- A stream of inputs that held nothing holds exactly the snapshots of its kind. -/
theorem replaceAll_snapshots_empty
    {f : Family Generation.Node Value (InputNode.Value String Snapshot)}
    {s : Store Generation.Node Value} (hf : f.Faithful) (h : f.Tallies .eq s fun _ => none)
    (hs : Unrun s) (kept : String → Bool) (snapshots : List Snapshot) :
    ∃ changed s', f.replaceAll (snapshotTable (snapshots.filter fun s => kept s.path)) s =
        (.ok changed, s') ∧ Unrun s' ∧ (∀ k, (∀ n, f.key n ≠ k) → s'.input? k = s.input? k) ∧
      f.Tallies .eq s' fun p => if kept p then lastUnder snapshots p else none := by
  obtain ⟨changed, s', heq, hs'⟩ := replaceAll_empty hf h hs.active (Table.nodup_ofList _)
    fun i => get?_snapshotTable_ne kept i
  exact ⟨changed, s', heq, hs.of_replaced hs', fun _ hk => hs'.other hk, tallies_snapshots kept hs'⟩

/-- A generator that computed nothing yet and holds what it was given. -/
structure Loaded (c : Generation.Config) (given : Supplies) (g : Generator) : Prop where
  config : g.config = c
  emitters : g.emitters = .standard
  unrun : Unrun g.store
  manifests : manifestFilesFamily.Tallies .eq g.store (given.manifest c)
  scenes : sceneFilesFamily.Tallies .eq g.store (given.scene c)
  types : typeSymbolsFamily.Tallies .eq g.store given.type

theorem loaded_fed (c : Generation.Config) (snapshots : List Snapshot) {symbols : SymbolTable}
    (h : (Table.keys symbols).Nodup) :
    Loaded c (.fed c snapshots symbols) (fed c snapshots symbols) := by
  have hstart : Unrun ({} : Store Generation.Node Value) := ⟨fun _ => rfl, rfl, rfl⟩
  have hempty {f : Family Generation.Node Value (InputNode.Value String Snapshot)} :
      f.Tallies .eq {} fun _ => none := Family.tallies_empty fun _ => rfl
  obtain ⟨m, s₁, heq₁, hrun₁, hother₁, hmanifests⟩ := replaceAll_snapshots_empty
    manifestFilesFamily_faithful hempty hstart (Snapshot.isManifest c.manifestName) snapshots
  obtain ⟨n, s₂, heq₂, hrun₂, hother₂, hscenes⟩ := replaceAll_snapshots_empty
    sceneFilesFamily_faithful (s := s₁)
    (hempty.of_same fun n => hother₁ _ (by simp [manifestFilesFamily, sceneFilesFamily])) hrun₁
    (fun path => !Snapshot.isManifest c.manifestName path && Snapshot.isScene c.sceneExtension path)
    snapshots
  have htypes : typeSymbolsFamily.Tallies .eq s₂ fun _ => none := by
    have htypes : typeSymbolsFamily.Tallies .eq {} fun _ => none :=
      Family.tallies_empty fun _ => rfl
    refine htypes.of_same fun n => ?_
    exact (hother₂ _ (by simp [typeSymbolsFamily, sceneFilesFamily])).trans
      (hother₁ _ (by simp [typeSymbolsFamily, manifestFilesFamily]))
  obtain ⟨t, s₃, heq₃, hs₃⟩ := replaceAll_empty typeSymbolsFamily_faithful htypes hrun₂.active
    (nodup_symbols h) (get?_symbols_ne symbols)
  have hfed : fed c snapshots symbols = { config := c, store := s₃ } := by
    simp only [fed, feeding, follow, List.foldl_cons, List.foldl_nil, Order.apply, replaceAssets,
      replaceSymbols, sortAssets_eq, heq₁, heq₂, heq₃]
  rw [hfed]
  refine ⟨rfl, rfl, hrun₂.of_replaced hs₃, ?_, ?_, tallies_symbols hs₃⟩
  · rw [show (Supplies.fed c snapshots symbols).manifest c = _ from
      funext fun path => Supplies.fed_manifest c snapshots symbols path]
    exact hmanifests.of_same fun n =>
      (hs₃.other (by simp [typeSymbolsFamily, manifestFilesFamily])).trans
        (hother₂ _ (by simp [manifestFilesFamily, sceneFilesFamily]))
  · rw [show (Supplies.fed c snapshots symbols).scene c = _ from
      funext fun path => Supplies.fed_scene c snapshots symbols path]
    exact hscenes.of_same fun n => hs₃.other (by simp [typeSymbolsFamily, sceneFilesFamily])

/-- A generator between runs all of whose nodes are read as they are in a project. -/
structure Shows (c : Generation.Config) (p : Project)
    (value : (k : Generation.Node) → Value k) (g : Generator) : Prop where
  config : g.config = c
  emitters : g.emitters = .standard
  feeds : p.Feeds value
  exists_inputs : ∃ inputs, Valuation (Generation.rules c p.types.keys.length) inputs value
  current : Current (Generation.rules c p.types.keys.length) value g.store
  idle : g.store.active = []

namespace Shows
variable {c : Generation.Config} {p : Project} {value : (k : Generation.Node) → Value k}
  {g : Generator} (h : Shows c p value g)
include h

theorem rules_eq : g.rules = Generation.rules c p.types.keys.length := by
  have hkeys : (g.store.input? (.typeSymbols .keys)).getD [] = p.types.keys :=
    (h.current.input (.typeSymbols .keys) [] rfl).trans
      (Program.ComesTo.unique (Program.ComesTo.get _) h.feeds.types.keys)
  have hcount : g.typeCount = p.types.keys.length := by
    rw [Holding.typeCount_eq, ← hkeys]
    exact congrArg List.length (typeSymbolsFamily_faithful.valueOf_eq .keys g.store)
  rw [Generator.rules, hcount, h.config, h.emitters]

theorem ask {α : Type} {q : Query α} {a : α} (hq : q.ComesTo value a)
    (hsafe : q.Safe (Generation.level · < depth) (Unfailing Generation.Node)) :
    (g.ask q).1 = .ok a := by
  obtain ⟨inputs, hvalue⟩ := h.exists_inputs
  obtain ⟨s, hrun, -⟩ := hvalue.run (rules_leveled c _) hq hsafe h.current h.idle
  simp only [Generator.ask, h.rules_eq, hrun]

theorem run : (g.run none).1 = .ok (p.result c) ∧ Shows c p value (g.run none).2 := by
  obtain ⟨inputs, hvalue⟩ := h.exists_inputs
  obtain ⟨s, hrun, hcurrent, hidle⟩ := hvalue.runPass (rules_leveled c _)
    (p.resultProgram_comesTo hvalue h.feeds rfl) resultProgram_safe h.current h.idle
  simp only [Generator.run, h.rules_eq, hrun]
  exact ⟨trivial, h.config, h.emitters, h.feeds, ⟨inputs, hvalue⟩, hcurrent, hidle⟩

end Shows

theorem Loaded.exists_shows {c : Generation.Config} {given : Supplies} {g : Generator}
    (h : Loaded c given g) : ∃ p value, p.Holds c given ∧ Shows c p value g := by
  obtain ⟨value, hvalue⟩ :=
    (rules_leveled c (typeSymbolsFamily.valueOf .keys g.store).length).exists_valuation
      g.store.input?
  have hmanifest (n : InputNode String) :
      value (.manifestFiles n) = manifestFilesFamily.valueOf n g.store := by
    rw [hvalue.input (.manifestFiles n) n.absent rfl]
    exact (manifestFilesFamily_faithful.valueOf_eq n _).symm
  have hscene (n : InputNode String) :
      value (.sceneFiles n) = sceneFilesFamily.valueOf n g.store := by
    rw [hvalue.input (.sceneFiles n) n.absent rfl]
    exact (sceneFilesFamily_faithful.valueOf_eq n _).symm
  have htype (n : InputNode String) :
      value (.typeSymbols n) = typeSymbolsFamily.valueOf n g.store := by
    rw [hvalue.input (.typeSymbols n) n.absent rfl]
    exact (typeSymbolsFamily_faithful.valueOf_eq n _).symm
  refine ⟨⟨⟨_, _, []⟩, ⟨_, _, []⟩, ⟨_, _, []⟩⟩, value,
    ⟨lists_of_tallies manifestFilesFamily_faithful h.manifests,
      lists_of_tallies sceneFilesFamily_faithful h.scenes,
      lists_of_tallies typeSymbolsFamily_faithful h.types⟩,
    h.config, h.emitters, ⟨?_, ?_, ?_⟩, ⟨_, hvalue⟩,
    ⟨h.unrun.token, fun k absent hk => (hvalue.input k absent hk).symm, fun k _ m _ hm => ?_⟩,
    h.unrun.active⟩
  · simp only [← hmanifest]
    exact Family.lists_input (w := fun n => value (.manifestFiles n)) fun _ => rfl
  · simp only [← hscene]
    exact Family.lists_input (w := fun n => value (.sceneFiles n)) fun _ => rfl
  · simp only [← htype]
    exact Family.lists_input (w := fun n => value (.typeSymbols n)) fun _ => rfl
  · rw [h.unrun.memos k] at hm
    cases hm

/-- The run of a generator that was fed once comes to what the project does that it was given, and
so does whatever is read of it afterwards. -/
theorem run_fed (c : Generation.Config) (snapshots : List Snapshot) {symbols : SymbolTable}
    (h : (Table.keys symbols).Nodup) :
    ∃ p value, p.Holds c (.fed c snapshots symbols) ∧
      ((fed c snapshots symbols).run none).1 = .ok (p.result c) ∧
      Shows c p value ((fed c snapshots symbols).run none).2 := by
  obtain ⟨p, value, hp, hshows⟩ := (loaded_fed c snapshots h).exists_shows
  exact ⟨p, value, hp, hshows.run⟩

/-- Which snapshot comes last under each path is all that a run sees of its assets. -/
theorem run_fed_congr (c : Generation.Config) {snapshots snapshots' : List Snapshot}
    {symbols : SymbolTable} (h : (Table.keys symbols).Nodup)
    (hsame : ∀ path, lastUnder snapshots path = lastUnder snapshots' path) :
    ((fed c snapshots symbols).run none).1 = ((fed c snapshots' symbols).run none).1 := by
  obtain ⟨p, _, hp, hrun, -⟩ := run_fed c snapshots h
  obtain ⟨p', _, hp', hrun', -⟩ := run_fed c snapshots' h
  have hmanifest : (Supplies.fed c snapshots symbols).manifest c =
      (Supplies.fed c snapshots' symbols).manifest c := by
    funext path
    rw [Supplies.fed_manifest, Supplies.fed_manifest, hsame]
  have hscene : (Supplies.fed c snapshots symbols).scene c =
      (Supplies.fed c snapshots' symbols).scene c := by
    funext path
    rw [Supplies.fed_scene, Supplies.fed_scene, hsame]
  rw [hrun, hrun', hp.unique hp' hmanifest hscene rfl]

end Generator
end SceneCodegen
