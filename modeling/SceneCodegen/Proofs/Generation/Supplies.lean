import SceneCodegen.AssetFiles
import SceneCodegen.Generation.Generator
import SceneCodegen.Proofs.Generation.Orderly
import SceneCodegen.Proofs.Graph.Inputs

/-!
# What a generator is supplied with

Assets are replaced or updated and types replaced, with runs in between. What a generator holds
after such a history is what was supplied last: for each path its last snapshot unless the path was
taken out since, and the last table of types.
-/
namespace SceneCodegen
open SceneCodegen.Graph Generation

theorem nodup_sortedBy {ι : Type} [BEq ι] [LawfulBEq ι] (order : ι → ι → Ordering)
    (keys : List ι) : (sortedBy order keys).Nodup :=
  (List.mergeSort_perm _ _).nodup_iff.mpr (Table.nodup_eraseDups keys)

instance : Ranked String where
  exists_sorted l := ⟨sortedBy compare l, rfl, fun _ => mem_sortedBy⟩
  sorted_congr _ _ h := congrArg Except.ok (mergeSort_eraseDups_congr compare h)

theorem manifestFilesFamily_faithful : manifestFilesFamily.Faithful where
  injective n n' h := by
    cases h
    rfl
  decode n v := ⟨v, rfl, rfl⟩
  encode n w := rfl
  keys_beq l l' := rfl
  item_beq i a a' := rfl

theorem sceneFilesFamily_faithful : sceneFilesFamily.Faithful where
  injective n n' h := by
    cases h
    rfl
  decode n v := ⟨v, rfl, rfl⟩
  encode n w := rfl
  keys_beq l l' := rfl
  item_beq i a a' := rfl

theorem typeSymbolsFamily_faithful : typeSymbolsFamily.Faithful where
  injective n n' h := by
    cases h
    rfl
  decode n v := ⟨v, rfl, rfl⟩
  encode n w := rfl
  keys_beq l l' := rfl
  item_beq i a a' := rfl

namespace Generator

/-- What a generator is told from outside. -/
inductive Order
  | replaceAssets (snapshots : List Snapshot)
  | updateAssets (snapshots : List Snapshot) (removed : List String)
  | replaceSymbols (symbols : SymbolTable)
  | run (token : Option Token)

def Order.apply (g : Generator) : Order → Generator
  | .replaceAssets snapshots => (g.replaceAssets snapshots).2
  | .updateAssets snapshots removed => (g.updateAssets snapshots removed).2
  | .replaceSymbols symbols => (g.replaceSymbols symbols).2
  | .run token => (g.run token).2

def Order.snapshots : Order → List Snapshot
  | .replaceAssets snapshots => snapshots
  | .updateAssets snapshots _ => snapshots
  | _ => []

def follow (orders : List Order) (g : Generator) : Generator := orders.foldl Order.apply g

def lastUnder (snapshots : List Snapshot) (path : String) : Option Snapshot :=
  snapshots.reverse.find? (·.path == path)

/-- What was supplied so far: the snapshot of each asset that is there, and all types. -/
structure Supplies where
  asset : String → Option Snapshot := fun _ => none
  symbols : SymbolTable := []

namespace Supplies

/-- Puts assets in the place of those there are. -/
def assets (c : Config) (asset : String → Option Snapshot) (s : Supplies) : Supplies :=
  { s with
    asset := fun path =>
      if AssetFiles.isAsset c.manifestName c.sceneExtension path then asset path else none }

def after (c : Config) (s : Supplies) : Order → Supplies
  | .replaceAssets snapshots => s.assets c (lastUnder snapshots)
  | .updateAssets snapshots removed =>
    let kept (path : String) : Option Snapshot :=
      if (removed.map fun p => (Path.ofText p).text).contains path then none else s.asset path
    s.assets c fun path => (lastUnder snapshots path).or (kept path)
  | .replaceSymbols symbols => { s with symbols }
  | .run _ => s

def ofOrders (c : Config) (orders : List Order) : Supplies := orders.foldl (after c) {}

def manifest (c : Config) (s : Supplies) (path : String) : Option Snapshot :=
  if Snapshot.isManifest c.manifestName path then s.asset path else none

def scene (c : Config) (s : Supplies) (path : String) : Option Snapshot :=
  if !Snapshot.isManifest c.manifestName path && Snapshot.isScene c.sceneExtension path then
    s.asset path
  else none

def type (s : Supplies) (name : String) : Option TypeSymbol := Table.get? name s.symbols

end Supplies

theorem get?_snapshots (kept : String → Bool) (snapshots : List Snapshot) (path : String) :
    Table.get? path (((snapshots.filter fun s => kept s.path).map fun s =>
      (s.path, some s)).reverse) =
        if kept path then (lastUnder snapshots path).map some else none := by
  induction snapshots with
  | nil => simp [Table.get?, lastUnder]
  | cons s snapshots ih =>
    have hlast : lastUnder (s :: snapshots) path =
        (lastUnder snapshots path).or (if s.path == path then some s else none) := by
      rw [lastUnder, List.reverse_cons, List.find?_append, List.find?_singleton]
      rfl
    rw [hlast, List.filter_cons]
    by_cases hs : kept s.path
    · rw [if_pos hs, List.map_cons, List.reverse_cons, Table.get?_append, ih]
      by_cases hp : s.path = path
      · subst hp
        simp only [hs, if_true, Table.get?, beq_self_eq_true]
        cases lastUnder snapshots s.path <;> rfl
      · by_cases hk : kept path <;> simp [Table.get?, hp, hk]
    · rw [if_neg hs, ih]
      by_cases hp : s.path = path
      · subst hp
        simp [hs]
      · by_cases hk : kept path <;> simp [hp, hk]

theorem get?_snapshotTable (kept : String → Bool) (snapshots : List Snapshot) (path : String) :
    Table.get? path (snapshotTable (snapshots.filter fun s => kept s.path)) =
      if kept path then (lastUnder snapshots path).map some else none := by
  rw [snapshotTable, Table.get?_ofList, get?_snapshots]

theorem sortAssets_eq (c : Config) (snapshots : List Snapshot) : sortAssets c snapshots =
    (snapshots.filter fun s => Snapshot.isManifest c.manifestName s.path,
      snapshots.filter fun s => !Snapshot.isManifest c.manifestName s.path &&
        Snapshot.isScene c.sceneExtension s.path) := by
  simp only [sortAssets, List.partition_eq_filter_filter, List.filter_filter]
  simp [Bool.and_comm]

/-- Inputs that may be drawn from a set of values: each value counts as itself, and as any other
that is not told from it. -/
structure Accepts {α : Type} [BEq α] (M : Likeness Node Value) (U : α → Prop)
    (f : Family Node Value (InputNode.Value String α)) : Prop where
  faithful : f.Faithful
  keys : ∀ l, M.like (f.key .keys) (f.encode .keys l) (f.encode .keys l)
  absent : ∀ i, f.LikeItems M i none none
  self : ∀ i t, U t → f.LikeItems M i (some t) (some t)
  same : ∀ i x y t, (∀ s, y = some s → U s) → U t → f.LikeItems M i x y → (x == some t) = true →
    f.LikeItems M i x (some t)

theorem Accepts.admits {α : Type} [BEq α] {M : Likeness Node Value} {U : α → Prop}
    {f : Family Node Value (InputNode.Value String α)} (hf : Accepts M U f)
    {held : String → Option α} {items : Table String (Option α)}
    (hheld : ∀ i s, held i = some s → U s)
    (hitems : ∀ i a, Table.get? i items = some a → ∃ t, a = some t ∧ U t) :
    f.Admits M held items where
  keys := hf.keys
  absent := hf.absent
  self i a hi := by
    obtain ⟨t, rfl, ht⟩ := hitems i a hi
    exact hf.self i t ht
  same i a x hi hx hsame := by
    obtain ⟨t, rfl, ht⟩ := hitems i a hi
    exact hf.same i x _ t (hheld i) ht hx hsame

/-- Which computed values count as the same, which inputs do, and what may be supplied. -/
structure Standard where
  values : Likeness Node Value
  inputs : Likeness Node Value
  snapshot : Snapshot → Prop
  type : TypeSymbol → Prop
  orderly : ∀ registry c N, Orderly (rulesWith registry c N) values
  finer : ∀ k v, inputs.like k v v → values.like k v v
  manifests : Accepts inputs snapshot manifestFilesFamily
  scenes : Accepts inputs snapshot sceneFilesFamily
  types : Accepts inputs type typeSymbolsFamily

/-- Snapshots that the graph tells apart if they differ at all. -/
def Telling (U : Snapshot → Prop) : Prop := ∀ s t, U s → U t → (s == t) = true → s = t

theorem Telling.eq_of_same {U : Snapshot → Prop} (hU : Telling U) {x : Option Snapshot}
    {t : Snapshot} (hx : ∀ s, x = some s → U s) (ht : U t) (h : (x == some t) = true) :
    x = some t := by
  cases x with
  | none => cases h
  | some s => rw [hU s t (hx s rfl) ht h]

/-- Snapshots and plain types count as the same where they are computed with to the same effect. -/
def Standard.plain (U : Snapshot → Prop) (hU : Telling U) : Standard where
  values := likeness
  inputs := likeness
  snapshot := U
  type := Scan.PlainType
  orderly _ := rules_orderly
  finer _ _ h := h
  manifests :=
    { faithful := manifestFilesFamily_faithful, keys := fun _ => rfl, absent := fun _ => rfl
      self := fun _ _ _ => rfl
      same := fun i x y t hy ht hxy h => by
        obtain rfl : x = y := hxy
        exact hU.eq_of_same hy ht h }
  scenes :=
    { faithful := sceneFilesFamily_faithful, keys := fun _ => rfl, absent := fun _ => rfl
      self := fun _ _ _ => rfl
      same := fun i x y t hy ht hxy h => by
        obtain rfl : x = y := hxy
        exact hU.eq_of_same hy ht h }
  types :=
    { faithful := typeSymbolsFamily_faithful, keys := fun _ => rfl, absent := fun _ => .none
      self := fun _ _ ht => .some ht ht rfl
      same := fun i x y t _ ht hxy h => by
        cases x with
        | none => cases h
        | some s =>
          have hs : Scan.PlainType s := LikeTypes.plain hxy
          exact .some hs ht (Scan.seen_eq hs ht h) }

/-- A generator between runs that holds what was supplied, no more than `N` types among it. -/
structure Holding (S : Standard) (c : Config) (N : Nat) (given : Supplies) (g : Generator)
    (registry : Fragment.EmitterRegistry := .standard) : Prop where
  drawn : ∀ path s, given.asset path = some s → S.snapshot s
  known : ∀ name t, given.type name = some t → S.type t
  few : given.symbols.length ≤ N
  config : g.config = c
  emitters : g.emitters = registry
  rest : AtRest (rulesWith registry c N) S.values g.store
  token : g.store.token = none
  manifests : manifestFilesFamily.Tallies S.inputs g.store (given.manifest c)
  scenes : sceneFilesFamily.Tallies S.inputs g.store (given.scene c)
  types : typeSymbolsFamily.Tallies S.inputs g.store given.type

section
variable {f : Family Node Value (InputNode.Value String Snapshot)} {M : Likeness Node Value}
  {U : Snapshot → Prop} {held : String → Option Snapshot} {snapshots : List Snapshot}
  {s : Store Node Value} (hf : Accepts M U f) (kept : String → Bool)
  (hheld : ∀ i s, held i = some s → U s) (hnew : ∀ s ∈ snapshots, U s)

theorem mem_of_lastUnder {path : String} {s : Snapshot} (h : lastUnder snapshots path = some s) :
    s ∈ snapshots := List.mem_reverse.mp (List.mem_of_find?_eq_some h)

theorem get?_snapshotTable_ne (i : String) :
    Table.get? i (snapshotTable (snapshots.filter fun s => kept s.path)) ≠ some none := by
  rw [get?_snapshotTable]
  split
  · cases lastUnder snapshots i <;> simp
  · simp

/-- A stream that was made to hold some of the snapshots holds the last of these under each path. -/
theorem tallies_snapshots {s' : Store Node Value}
    (h : f.Replaced M (snapshotTable (snapshots.filter fun s => kept s.path)) s s') :
    f.Tallies M s' fun p => if kept p then lastUnder snapshots p else none := by
  have hitems : (fun i => (Table.get? i (snapshotTable
      (snapshots.filter fun s => kept s.path))).join) =
        fun p => if kept p then lastUnder snapshots p else none := by
    funext i
    rw [get?_snapshotTable]
    split
    · cases lastUnder snapshots i <;> rfl
    · rfl
  exact hitems ▸ h.tallies

include hf hheld hnew

theorem admits_snapshots :
    f.Admits M held (snapshotTable (snapshots.filter fun s => kept s.path)) := by
  refine hf.admits hheld fun i a hi => ?_
  rw [get?_snapshotTable] at hi
  split at hi
  · obtain ⟨t, ht, rfl⟩ := Option.map_eq_some_iff.mp hi
    exact ⟨t, rfl, hnew t (mem_of_lastUnder ht)⟩
  · cases hi

theorem replaceAll_snapshots (h : f.Tallies M s held) (hidle : s.active = []) :
    ∃ changed s', f.replaceAll (snapshotTable (snapshots.filter fun s => kept s.path)) s =
        (.ok changed, s') ∧
      f.Replaced M (snapshotTable (snapshots.filter fun s => kept s.path)) s s' ∧
      f.Tallies M s' fun p => if kept p then lastUnder snapshots p else none := by
  obtain ⟨changed, s', heq, hreplaced⟩ := hf.faithful.replaceAll_tallies h
    (admits_snapshots hf kept hheld hnew) hidle (Table.nodup_ofList _)
    (get?_snapshotTable_ne kept)
  exact ⟨changed, s', heq, hreplaced, tallies_snapshots kept hreplaced⟩

theorem update_snapshots (h : f.Tallies M s held) (hidle : s.active = [])
    (hkept : ∀ i, kept i = false → held i = none) (removed : List String) :
    ∃ changed s', f.update (snapshotTable (snapshots.filter fun s => kept s.path)) removed s =
        (.ok changed, s') ∧
      f.Replaced M (f.updating (snapshotTable (snapshots.filter fun s => kept s.path))
        removed s) s s' ∧
      f.Tallies M s' fun p =>
        if kept p then (lastUnder snapshots p).or (if removed.contains p then none else held p)
        else none := by
  obtain ⟨changed, s', heq, hreplaced, htallies⟩ := hf.faithful.update_tallies h
    (admits_snapshots hf kept hheld hnew) hidle (Table.nodup_ofList _)
    (get?_snapshotTable_ne kept) removed
  refine ⟨changed, s', heq, hreplaced, ?_⟩
  have hitems : updated held (snapshotTable (snapshots.filter fun s => kept s.path)) removed =
      fun p => if kept p then
        (lastUnder snapshots p).or (if removed.contains p then none else held p) else none := by
    funext i
    rw [updated, get?_snapshotTable]
    by_cases hk : kept i
    · rw [if_pos hk, if_pos hk]
      cases lastUnder snapshots i <;> rfl
    · have hnone := hkept i (by simpa using hk)
      rw [if_neg hk, if_neg hk, Option.getD_none, hnone, ite_self]
  exact hitems ▸ htallies

end

section
variable {S : Standard} {c : Config} {N : Nat} {given : Supplies} {g g' : Generator}

theorem holding_empty (S : Standard) (c : Config) (registry : Fragment.EmitterRegistry) (N : Nat) :
    Holding S c N {} { config := c, emitters := registry } registry where
  drawn path s h := by cases h
  known name t h := by cases h
  few := Nat.zero_le N
  config := rfl
  emitters := rfl
  rest := .empty
  token := rfl
  manifests := by
    have hnone : ({} : Supplies).manifest c = fun _ => none := by
      funext path
      rw [Supplies.manifest, ite_self]
    rw [hnone]
    exact Family.tallies_empty S.manifests.absent
  scenes := by
    have hnone : ({} : Supplies).scene c = fun _ => none := by
      funext path
      rw [Supplies.scene, ite_self]
    rw [hnone]
    exact Family.tallies_empty S.scenes.absent
  types := Family.tallies_empty S.types.absent

namespace Supplies

theorem manifest_assets (asset : String → Option Snapshot) (path : String) :
    (given.assets c asset).manifest c path =
      if Snapshot.isManifest c.manifestName path then asset path else none := by
  simp only [manifest, assets, AssetFiles.isAsset]
  split
  · rename_i h
    simp [h]
  · rfl

theorem scene_assets (asset : String → Option Snapshot) (path : String) :
    (given.assets c asset).scene c path =
      if !Snapshot.isManifest c.manifestName path && Snapshot.isScene c.sceneExtension path then
        asset path
      else none := by
  simp only [scene, assets, AssetFiles.isAsset]
  split
  · rename_i h
    simp [((Bool.and_eq_true _ _).mp h).2]
  · rfl

theorem asset_of_manifest {path : String} {s : Snapshot} (h : given.manifest c path = some s) :
    given.asset path = some s := by
  rw [manifest] at h
  split at h
  · exact h
  · cases h

theorem asset_of_scene {path : String} {s : Snapshot} (h : given.scene c path = some s) :
    given.asset path = some s := by
  rw [scene] at h
  split at h
  · exact h
  · cases h

end Supplies

/-- Assets were put in the place of others, manifests first. -/
structure Restocked (S : Standard) (c : Config) (given : Supplies) (g g' : Generator) : Prop where
  frame : g' = { g with store := g'.store }
  exists_replaced : ∃ s items items', manifestFilesFamily.Replaced S.inputs items g.store s ∧
    sceneFilesFamily.Replaced S.inputs items' s g'.store
  manifests : manifestFilesFamily.Tallies S.inputs g'.store (given.manifest c)
  scenes : sceneFilesFamily.Tallies S.inputs g'.store (given.scene c)

/-- Types were put in the place of others. -/
structure Redeclared (S : Standard) (symbols : SymbolTable) (g g' : Generator) : Prop where
  frame : g' = { g with store := g'.store }
  replaced : typeSymbolsFamily.Replaced S.inputs (symbols.map fun p => (p.1, some p.2)) g.store
    g'.store

theorem get?_symbols (symbols : SymbolTable) (name : String) :
    Table.get? name (symbols.map fun p => (p.1, some p.2)) =
      (Table.get? name symbols).map some := Table.get?_map name some symbols

theorem get?_symbols_ne (symbols : SymbolTable) (name : String) :
    Table.get? name (symbols.map fun p => (p.1, some p.2)) ≠ some none := by
  rw [get?_symbols]
  cases Table.get? name symbols <;> simp

theorem nodup_symbols {symbols : SymbolTable} (h : (Table.keys symbols).Nodup) :
    (Table.keys (symbols.map fun p => (p.1, some p.2))).Nodup := by
  simpa [Table.keys, Function.comp_def] using h

/-- What is held of types that were put in the place of others. -/
theorem tallies_symbols {M : Likeness Node Value} {symbols : SymbolTable} {s s' : Store Node Value}
    (h : typeSymbolsFamily.Replaced M (symbols.map fun p => (p.1, some p.2)) s s') :
    typeSymbolsFamily.Tallies M s' fun name => Table.get? name symbols := by
  convert h.tallies using 2 with name
  rw [get?_symbols]
  cases Table.get? name symbols <;> rfl

namespace Holding
variable {registry : Fragment.EmitterRegistry} (h : Holding S c N given g registry)
include h

omit h in
theorem drawn_after (hdrawn : ∀ path s, given.asset path = some s → S.snapshot s) {order : Order}
    (hnew : ∀ s ∈ order.snapshots, S.snapshot s) (path : String) (s : Snapshot)
    (hs : (given.after c order).asset path = some s) : S.snapshot s := by
  cases order with
  | replaceAssets snapshots =>
    simp only [Supplies.after, Supplies.assets] at hs
    split at hs
    · exact hnew s (mem_of_lastUnder hs)
    · cases hs
  | updateAssets snapshots removed =>
    simp only [Supplies.after, Supplies.assets] at hs
    split at hs
    · cases hlast : lastUnder snapshots path with
      | some t =>
        rw [hlast, Option.some_or] at hs
        cases hs
        exact hnew _ (mem_of_lastUnder hlast)
      | none =>
        rw [hlast, Option.none_or] at hs
        split at hs
        · cases hs
        · exact hdrawn path s hs
    · cases hs
  | replaceSymbols symbols => exact hdrawn path s hs
  | run token => exact hdrawn path s hs

/-- What is held once assets were put in the place of others. -/
theorem restocked {given' : Supplies} (hg : Restocked S c given' g g')
    (hdrawn : ∀ path s, given'.asset path = some s → S.snapshot s)
    (hsymbols : given'.symbols = given.symbols) : Holding S c N given' g' registry := by
  obtain ⟨s, items, items', hs, hs'⟩ := hg.exists_replaced
  have htypes : given'.type = given.type := by
    funext name
    rw [Supplies.type, Supplies.type, hsymbols]
  refine ⟨hdrawn, ?_, hsymbols ▸ h.few, ?_, ?_, hs'.rest _ _ S.finer (hs.rest _ _ S.finer h.rest),
    hs'.token.trans (hs.token.trans h.token), hg.manifests, hg.scenes, ?_⟩
  · rw [htypes]
    exact h.known
  · rw [hg.frame]
    exact h.config
  · rw [hg.frame]
    exact h.emitters
  · rw [htypes]
    refine h.types.of_same fun n => ?_
    have hscenes := hs'.other (k := .typeSymbols n) (by simp [sceneFilesFamily])
    exact hscenes.trans (hs.other (by simp [manifestFilesFamily]))

section
variable {snapshots : List Snapshot} (hnew : ∀ s ∈ snapshots, S.snapshot s)
include hnew

theorem replaceAssets_restocked :
    Restocked S c (given.after c (.replaceAssets snapshots)) g (g.replaceAssets snapshots).2 := by
  obtain ⟨changed, s, heq, hs, hmanifests⟩ := replaceAll_snapshots S.manifests
    (Snapshot.isManifest c.manifestName) (fun i s hi => h.drawn i s (Supplies.asset_of_manifest hi))
    hnew h.manifests h.rest.idle
  have hheld : sceneFilesFamily.Tallies S.inputs s (given.scene c) :=
    h.scenes.of_same fun n => hs.other (by simp [manifestFilesFamily, sceneFilesFamily])
  obtain ⟨changed', s', heq', hs', hscenes⟩ := replaceAll_snapshots S.scenes
    (fun path => !Snapshot.isManifest c.manifestName path &&
      Snapshot.isScene c.sceneExtension path)
    (fun i s hi => h.drawn i s (Supplies.asset_of_scene hi)) hnew hheld
    (hs.rest _ _ S.finer h.rest).idle
  have hstore : (g.replaceAssets snapshots).2 = { g with store := s' } := by
    rw [Generator.replaceAssets, h.config, sortAssets_eq]
    simp only [heq, heq']
  rw [hstore]
  refine ⟨rfl, ⟨s, _, _, hs, hs'⟩, ?_, ?_⟩
  · rw [show (given.after c (.replaceAssets snapshots)).manifest c = _ from
      funext fun path => Supplies.manifest_assets _ path]
    exact hmanifests.of_same fun n => hs'.other (by simp [manifestFilesFamily, sceneFilesFamily])
  · rw [show (given.after c (.replaceAssets snapshots)).scene c = _ from
      funext fun path => Supplies.scene_assets _ path]
    exact hscenes

theorem updateAssets_restocked (removed : List String) :
    Restocked S c (given.after c (.updateAssets snapshots removed)) g
      (g.updateAssets snapshots removed).2 := by
  have hmem {kept : String → Bool} {path : String} (hk : kept path) (removed : List String) :
      (removed.filter kept).contains path = removed.contains path := by
    rw [Bool.eq_iff_iff]
    simp [hk]
  obtain ⟨changed, s, heq, hs, hmanifests⟩ := update_snapshots S.manifests
    (Snapshot.isManifest c.manifestName) (fun i s hi => h.drawn i s (Supplies.asset_of_manifest hi))
    hnew h.manifests h.rest.idle (fun i hi => by simp [Supplies.manifest, hi])
    ((removed.map fun p => (Path.ofText p).text).filter (Snapshot.isManifest c.manifestName))
  have hheld : sceneFilesFamily.Tallies S.inputs s (given.scene c) :=
    h.scenes.of_same fun n => hs.other (by simp [manifestFilesFamily, sceneFilesFamily])
  obtain ⟨changed', s', heq', hs', hscenes⟩ := update_snapshots S.scenes
    (fun path => !Snapshot.isManifest c.manifestName path &&
      Snapshot.isScene c.sceneExtension path)
    (fun i s hi => h.drawn i s (Supplies.asset_of_scene hi)) hnew hheld
    (hs.rest _ _ S.finer h.rest).idle (fun i hi => by simp only [Supplies.scene, hi]; rfl)
    ((removed.map fun p => (Path.ofText p).text).filter (Snapshot.isScene c.sceneExtension))
  have hstore : (g.updateAssets snapshots removed).2 = { g with store := s' } := by
    rw [Generator.updateAssets, h.config, sortAssets_eq]
    simp only [heq, heq']
  rw [hstore]
  refine ⟨rfl, ⟨s, _, _, hs, hs'⟩, ?_, ?_⟩
  · rw [show (given.after c (.updateAssets snapshots removed)).manifest c = _ from
      funext fun path => Supplies.manifest_assets _ path]
    refine Family.Tallies.of_same ?_ fun n =>
      hs'.other (by simp [manifestFilesFamily, sceneFilesFamily])
    convert hmanifests using 2 with path
    split
    · rename_i hk
      rw [hmem hk, Supplies.manifest, if_pos hk]
    · rfl
  · rw [show (given.after c (.updateAssets snapshots removed)).scene c = _ from
      funext fun path => Supplies.scene_assets _ path]
    convert hscenes using 2 with path
    split
    · rename_i hk
      rw [hmem ((Bool.and_eq_true _ _).mp hk).2, Supplies.scene, if_pos hk]
    · rfl

end

section
variable {symbols : SymbolTable} (hnodup : (Table.keys symbols).Nodup)
  (hknown : ∀ name t, (name, t) ∈ symbols → S.type t)
include hnodup hknown

theorem replaceSymbols_redeclared : Redeclared S symbols g (g.replaceSymbols symbols).2 := by
  have hadmits : typeSymbolsFamily.Admits S.inputs given.type
      (symbols.map fun p => (p.1, some p.2)) := by
    refine S.types.admits h.known fun name a ha => ?_
    rw [get?_symbols] at ha
    obtain ⟨t, ht, rfl⟩ := Option.map_eq_some_iff.mp ha
    exact ⟨t, rfl, hknown name t (Table.mem_of_get? ht)⟩
  obtain ⟨changed, s, heq, hs⟩ :=
    typeSymbolsFamily_faithful.replaceAll_tallies h.types hadmits h.rest.idle (nodup_symbols hnodup)
      (get?_symbols_ne symbols)
  have hstore : (g.replaceSymbols symbols).2 = { g with store := s } := by
    rw [Generator.replaceSymbols]
    simp only [heq]
  rw [hstore]
  exact ⟨rfl, hs⟩

theorem replaceSymbols (hfew : symbols.length ≤ N) :
    Holding S c N (given.after c (.replaceSymbols symbols)) (g.replaceSymbols symbols).2
      registry := by
  obtain ⟨hframe, hs⟩ := h.replaceSymbols_redeclared hnodup hknown
  have hconfig : (g.replaceSymbols symbols).2.config = c := by
    rw [hframe]
    exact h.config
  have hemitters : (g.replaceSymbols symbols).2.emitters = registry := by
    rw [hframe]
    exact h.emitters
  refine ⟨h.drawn, fun name t ht => hknown name t (Table.mem_of_get? ht), hfew, hconfig,
    hemitters, hs.rest _ _ S.finer h.rest, hs.token.trans h.token,
    h.manifests.of_same fun n => hs.other (by simp [typeSymbolsFamily, manifestFilesFamily]),
    h.scenes.of_same fun n => hs.other (by simp [typeSymbolsFamily, sceneFilesFamily]),
    tallies_symbols hs⟩

end

end Holding

end
end Generator
end SceneCodegen
