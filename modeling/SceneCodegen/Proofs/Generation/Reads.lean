import SceneCodegen.Generation.Rules
import SceneCodegen.Proofs.Graph.Streams
import SceneCodegen.Proofs.Scan.Resolving

/-!
# Reads of a generation

Which nodes the query of each node may read while the keys of the files and of the types are of some
kinds, and that the keys of all streams are then of the kinds of those they were made from.
-/
namespace SceneCodegen.Generation
open SceneCodegen.Graph

theorem mem_sortedBy {ι : Type} [BEq ι] [LawfulBEq ι] {order : ι → ι → Ordering} {keys : List ι}
    {i : ι} : i ∈ sortedBy order keys ↔ i ∈ keys := by
  rw [sortedBy, List.mem_mergeSort, List.mem_eraseDups]

instance : Sortable EntryKey := ⟨fun _ => ⟨_, rfl, fun _ => mem_sortedBy.mp⟩⟩

instance : Sortable ConnectionKey := ⟨fun _ => ⟨_, rfl, fun _ => mem_sortedBy.mp⟩⟩

/-- Kinds of the keys of manifests, of scenes and of types. -/
structure Kinds where
  manifest : String → Prop
  scene : String → Prop
  type : String → Prop

abbrev Origins (ι : Type) := Sources Node ι

def manifestFilesOrigins : Origins String := .ofInputs .manifestFiles
def sceneFilesOrigins : Origins String := .ofInputs .sceneFiles
def typeSymbolsOrigins : Origins String := .ofInputs .typeSymbols
def manifestEntriesOrigins : Origins String := manifestFilesOrigins.map .manifestEntries
def entriesOrigins : Origins EntryKey := manifestEntriesOrigins.flat .manifestEntry
def singletonEntriesOrigins : Origins EntryKey := entriesOrigins.map .singletonEntries
def inputActionEntriesOrigins : Origins EntryKey := entriesOrigins.map .inputActionEntries
def sceneAssetsOrigins : Origins String := sceneFilesOrigins.map .sceneAssets
def connectionsOrigins : Origins ConnectionKey := sceneAssetsOrigins.flat .sceneConnections
def scannedClassesOrigins : Origins String := typeSymbolsOrigins.map .scannedClasses
def singletonClassesOrigins : Origins String := scannedClassesOrigins.map .singletonClasses
def classRecordsOrigins : Origins String := scannedClassesOrigins.map .classRecords

def singletonPairsOrigins : Origins EntryKey :=
  .join .singletonPairs singletonEntriesOrigins singletonClassesOrigins

def singletonSlotsOrigins : Origins EntryKey := singletonPairsOrigins.map .singletonSlots

def classConnectionsOrigins : Origins String :=
  .join .classConnections classRecordsOrigins connectionsOrigins

def singletonFragmentsOrigins : Origins EntryKey := singletonSlotsOrigins.map .singletonFragments
def helperFragmentsOrigins : Origins String := scannedClassesOrigins.map .helperFragments
def notifyFragmentsOrigins : Origins String := scannedClassesOrigins.map .notifyFragments
def connectionFragmentsOrigins : Origins String := classConnectionsOrigins.map .connectionFragments

def unregisteredSingletonsOrigins : Origins String :=
  scannedClassesOrigins.map .unregisteredSingletons

/-- The query of the first node may read the second. -/
def Reads (κ : Kinds) : Node → Node → Prop
  | .manifestFiles _ | .sceneFiles _ | .typeSymbols _ => NoNode
  | .manifestEntries n => mapReads .manifestEntries manifestFilesOrigins κ.manifest NoNode n
  | .manifestEntry n => flatReads .manifestEntry manifestEntriesOrigins κ.manifest n
  | .singletonEntries n =>
    mapReads .singletonEntries entriesOrigins (fun key => κ.manifest key.1) NoNode n
  | .inputActionEntries n =>
    mapReads .inputActionEntries entriesOrigins (fun key => κ.manifest key.1) NoNode n
  | .singletonEntryList => singletonEntriesOrigins.items fun key => κ.manifest key.1
  | .sceneAssets n => mapReads .sceneAssets sceneFilesOrigins κ.scene NoNode n
  | .sceneConnections n => flatReads .sceneConnections sceneAssetsOrigins κ.scene n
  | .scannedClasses n =>
    mapReads .scannedClasses typeSymbolsOrigins κ.type
      (fun d => ∃ name, d = .typeSymbols (.item name)) n
  | .singletonClasses n => mapReads .singletonClasses scannedClassesOrigins κ.type NoNode n
  | .classRecords n => mapReads .classRecords scannedClassesOrigins κ.type NoNode n
  | .singletonPairs n =>
    joinReads .singletonPairs singletonEntriesOrigins singletonClassesOrigins κ.type n
  | .singletonSlots n =>
    mapReads .singletonSlots singletonPairsOrigins (fun key => κ.manifest key.1) NoNode n
  | .classConnections n =>
    joinReads .classConnections classRecordsOrigins connectionsOrigins (fun key => κ.scene key.1) n
  | .singletonSlotList => singletonSlotsOrigins.items fun key => κ.manifest key.1
  | .singletonRegistry => (· = .singletonSlotList)
  | .inputActionList => inputActionEntriesOrigins.items fun key => κ.manifest key.1
  | .registryFragment => (· = .singletonRegistry)
  | .inputActionFragment => (· = .inputActionList)
  | .singletonFragments n =>
    mapReads .singletonFragments singletonSlotsOrigins (fun key => κ.manifest key.1) NoNode n
  | .helperFragments n => mapReads .helperFragments scannedClassesOrigins κ.type NoNode n
  | .notifyFragments n => mapReads .notifyFragments scannedClassesOrigins κ.type NoNode n
  | .connectionFragments n => mapReads .connectionFragments classConnectionsOrigins κ.type NoNode n
  | .unregisteredSingletons n =>
    mapReads .unregisteredSingletons scannedClassesOrigins κ.type (· = .singletonEntryList) n
  | .fragmentList .singleton => singletonFragmentsOrigins.items fun key => κ.manifest key.1
  | .fragmentList .helper => helperFragmentsOrigins.items κ.type
  | .fragmentList .notify => notifyFragmentsOrigins.items κ.type
  | .fragmentList .connection => connectionFragmentsOrigins.items κ.type
  | .generatedFragments => fun d =>
    d = .registryFragment ∨ d = .inputActionFragment ∨ ∃ kind, d = .fragmentList kind
  | .pipelineDiagnostics => fun d =>
    manifestEntriesOrigins.diagnostics d ∨ sceneAssetsOrigins.diagnostics d ∨
      scannedClassesOrigins.diagnostics d ∨ singletonSlotsOrigins.diagnostics d ∨
      unregisteredSingletonsOrigins.diagnostics d ∨ singletonFragmentsOrigins.diagnostics d ∨
      helperFragmentsOrigins.diagnostics d ∨ notifyFragmentsOrigins.diagnostics d ∨
      connectionFragmentsOrigins.diagnostics d ∨ d = .generatedFragments

/-- Values of nodes while all keys are of their kinds. -/
def Expected (κ : Kinds) : (k : Node) → Value k → Prop
  | .manifestFiles .keys => fun l => ∀ i ∈ l, κ.manifest i
  | .sceneFiles .keys => fun l => ∀ i ∈ l, κ.scene i
  | .typeSymbols .keys => fun l => ∀ i ∈ l, κ.type i
  | .manifestEntry n => n.Keyed κ.manifest
  | .sceneConnections n => n.Keyed κ.scene
  | _ => Anything

section
variable (κ : Kinds)

theorem manifestFiles_heeds :
    manifestFiles.Heeds manifestFilesOrigins (Expected κ) κ.manifest :=
  inputStream_heeds manifestFilesFamily (fun _ v => ⟨v, rfl⟩) fun _ _ hv hl => by cases hl; exact hv

theorem sceneFiles_heeds : sceneFiles.Heeds sceneFilesOrigins (Expected κ) κ.scene :=
  inputStream_heeds sceneFilesFamily (fun _ v => ⟨v, rfl⟩) fun _ _ hv hl => by cases hl; exact hv

theorem typeSymbols_heeds : typeSymbols.Heeds typeSymbolsOrigins (Expected κ) κ.type :=
  inputStream_heeds typeSymbolsFamily (fun _ v => ⟨v, rfl⟩) fun _ _ hv hl => by cases hl; exact hv

theorem manifestEntries_heeds :
    manifestEntries.Heeds manifestEntriesOrigins (Expected κ) κ.manifest :=
  mapStream_heeds manifestEntriesFamily (fun _ v => ⟨v, rfl⟩) (manifestFiles_heeds κ)

theorem entries_heeds :
    entries.Heeds entriesOrigins (Expected κ) fun key => κ.manifest key.1 :=
  flatStream_heeds manifestEntryFamily (fun _ v => ⟨v, rfl⟩) (manifestEntries_heeds κ)
    fun _ _ hv hl => by cases hl; exact hv

theorem singletonEntries_heeds :
    singletonEntries.Heeds singletonEntriesOrigins (Expected κ) fun key => κ.manifest key.1 :=
  mapStream_heeds singletonEntriesFamily (fun _ v => ⟨v, rfl⟩) (entries_heeds κ)

theorem inputActionEntries_heeds :
    inputActionEntries.Heeds inputActionEntriesOrigins (Expected κ) fun key => κ.manifest key.1 :=
  mapStream_heeds inputActionEntriesFamily (fun _ v => ⟨v, rfl⟩) (entries_heeds κ)

theorem sceneAssets_heeds : sceneAssets.Heeds sceneAssetsOrigins (Expected κ) κ.scene :=
  mapStream_heeds sceneAssetsFamily (fun _ v => ⟨v, rfl⟩) (sceneFiles_heeds κ)

theorem connections_heeds :
    connections.Heeds connectionsOrigins (Expected κ) fun key => κ.scene key.1 :=
  flatStream_heeds sceneConnectionsFamily (fun _ v => ⟨v, rfl⟩) (sceneAssets_heeds κ)
    fun _ _ hv hl => by cases hl; exact hv

theorem scannedClasses_heeds : scannedClasses.Heeds scannedClassesOrigins (Expected κ) κ.type :=
  mapStream_heeds scannedClassesFamily (fun _ v => ⟨v, rfl⟩) (typeSymbols_heeds κ)

theorem singletonClasses_heeds :
    singletonClasses.Heeds singletonClassesOrigins (Expected κ) κ.type :=
  mapStream_heeds singletonClassesFamily (fun _ v => ⟨v, rfl⟩) (scannedClasses_heeds κ)

theorem classRecords_heeds : classRecords.Heeds classRecordsOrigins (Expected κ) κ.type :=
  mapStream_heeds classRecordsFamily (fun _ v => ⟨v, rfl⟩) (scannedClasses_heeds κ)

theorem singletonPairs_heeds :
    singletonPairs.Heeds singletonPairsOrigins (Expected κ) fun key => κ.manifest key.1 :=
  joinStream_heeds singletonPairsFamily (fun _ v => ⟨v, rfl⟩) (singletonEntries_heeds κ)
    (singletonClasses_heeds κ)

theorem singletonSlots_heeds :
    singletonSlots.Heeds singletonSlotsOrigins (Expected κ) fun key => κ.manifest key.1 :=
  mapStream_heeds singletonSlotsFamily (fun _ v => ⟨v, rfl⟩) (singletonPairs_heeds κ)

theorem classConnections_heeds :
    classConnections.Heeds classConnectionsOrigins (Expected κ) κ.type :=
  joinStream_heeds classConnectionsFamily (fun _ v => ⟨v, rfl⟩) (classRecords_heeds κ)
    (connections_heeds κ)

theorem singletonFragments_heeds :
    singletonFragments.Heeds singletonFragmentsOrigins (Expected κ) fun key => κ.manifest key.1 :=
  mapStream_heeds singletonFragmentsFamily (fun _ v => ⟨v, rfl⟩) (singletonSlots_heeds κ)

theorem helperFragments_heeds : helperFragments.Heeds helperFragmentsOrigins (Expected κ) κ.type :=
  mapStream_heeds helperFragmentsFamily (fun _ v => ⟨v, rfl⟩) (scannedClasses_heeds κ)

theorem notifyFragments_heeds : notifyFragments.Heeds notifyFragmentsOrigins (Expected κ) κ.type :=
  mapStream_heeds notifyFragmentsFamily (fun _ v => ⟨v, rfl⟩) (scannedClasses_heeds κ)

theorem connectionFragments_heeds :
    connectionFragments.Heeds connectionFragmentsOrigins (Expected κ) κ.type :=
  mapStream_heeds connectionFragmentsFamily (fun _ v => ⟨v, rfl⟩) (classConnections_heeds κ)

theorem unregisteredSingletons_heeds :
    unregisteredSingletons.Heeds unregisteredSingletonsOrigins (Expected κ) κ.type :=
  mapStream_heeds unregisteredSingletonsFamily (fun _ v => ⟨v, rfl⟩) (scannedClasses_heeds κ)

theorem readNode_heeds (k : Node) {E : Failure Node → Prop} :
    (readNode k).Heeds (· = k) (Expected κ) E Anything :=
  (Program.heeds_get (T := (· = k)) rfl).mono (fun _ h => h) (fun _ h => h) fun _ _ => trivial

theorem quiet_heeds {β : Type} (b : Option β) {E : Failure Node → Prop} :
    (quiet b).Heeds NoNode (Expected κ) E Anything := .done trivial

theorem scan_heeds (size : Nat) (s : TypeSymbol) {E : Failure Node → Prop} :
    (do quiet (← Scan.scanClass (resolver size) s) : Query (Outcome ScannedClass)).Heeds
      (fun d => ∃ name, d = .typeSymbols (.item name)) (Expected κ) E Anything := by
  have hfind (name : String) : ((resolver size).find name).Heeds
      (fun d => ∃ name, d = .typeSymbols (.item name)) (Expected κ) E Anything :=
    ((typeSymbols_heeds κ).item (lookupNameOf name)).mono (fun d hd => ⟨_, hd⟩) nofun
      fun _ h => h
  have hscan := Scan.scanClass_heeds (TypeResolver.leads_any hfind _)
    (TypeResolver.leads_any hfind _) (s := s) trivial trivial
  exact hscan.bind fun _ _ => .done trivial

theorem renderHelpersProgram_heeds (registry : Fragment.EmitterRegistry) (s : ScannedClass) :
    (renderHelpersProgram registry s).Heeds NoNode
    (Expected κ) (fun e => ¬ IsCancellation e) Anything := by
  unfold renderHelpersProgram
  split
  · exact quiet_heeds κ _
  · exact .fail (by rintro ⟨g, hg⟩; cases hg)

theorem unregistered_heeds (c : Config) (s : ScannedClass) {E : Failure Node → Prop} :
    (do return checkRegistered c s (← readNode .singletonEntryList) : Query (Outcome Unit)).Heeds
      (· = .singletonEntryList) (Expected κ) E Anything :=
  (readNode_heeds κ .singletonEntryList).bind fun _ _ => .done trivial

theorem assembledProgram_heeds : assembledProgram.Heeds (Reads κ .generatedFragments) (Expected κ)
    (Unfailing Node) Anything := by
  have hread (k : Node) (hk : Reads κ .generatedFragments k) :
      (readNode k).Heeds (Reads κ .generatedFragments) (Expected κ) (Unfailing Node) Anything :=
    (readNode_heeds κ k).widen fun d hd => hd ▸ hk
  have hkind (kind : FragmentKind) : (fragmentsOf kind).Heeds (Reads κ .generatedFragments)
      (Expected κ) (Unfailing Node) Anything :=
    (hread _ (.inr (.inr ⟨kind, rfl⟩))).bind fun _ _ => .done trivial
  exact (hread .registryFragment (.inl rfl)).bind fun _ _ =>
    (hread .inputActionFragment (.inr (.inl rfl))).bind fun _ _ =>
    (hkind _).bind fun _ _ => (hkind _).bind fun _ _ => (hkind _).bind fun _ _ =>
    (hkind _).bind fun _ _ => .done trivial

theorem diagnosticsProgram_heeds : diagnosticsProgram.Heeds (Reads κ .pipelineDiagnostics)
    (Expected κ) (Unfailing Node) Anything := by
  refine ((manifestEntries_heeds κ).diagnostics.widen fun _ hd => ?_).bind fun _ _ =>
    ((sceneAssets_heeds κ).diagnostics.widen fun _ hd => ?_).bind fun _ _ =>
    ((scannedClasses_heeds κ).diagnostics.widen fun _ hd => ?_).bind fun _ _ =>
    ((singletonSlots_heeds κ).diagnostics.widen fun _ hd => ?_).bind fun _ _ =>
    ((unregisteredSingletons_heeds κ).diagnostics.widen fun _ hd => ?_).bind fun _ _ =>
    ((singletonFragments_heeds κ).diagnostics.widen fun _ hd => ?_).bind fun _ _ =>
    ((helperFragments_heeds κ).diagnostics.widen fun _ hd => ?_).bind fun _ _ =>
    ((notifyFragments_heeds κ).diagnostics.widen fun _ hd => ?_).bind fun _ _ =>
    ((connectionFragments_heeds κ).diagnostics.widen fun _ hd => ?_).bind fun _ _ =>
    ((readNode_heeds κ .generatedFragments).widen fun _ hd => ?_).bind fun _ _ => .done trivial
  all_goals simp [Reads, hd]

/-- Every query is safe, reads what its node may read and gives what is expected of it. -/
theorem rules_heeds {registry : Fragment.EmitterRegistry} (c : Config) (size : Nat) (k : Node)
    (p : Query (Value k)) (hk : rulesWith registry c size k = .query p) :
    p.Heeds (Reads κ k) (Expected κ) (Unfailing Node) (Expected κ k) := by
  cases k with
  | manifestFiles n | sceneFiles n | typeSymbols n => cases hk
  | manifestEntries n =>
    cases hk
    exact mapProgram_heeds manifestEntriesFamily (fun _ v => ⟨v, rfl⟩) (manifestFiles_heeds κ)
      (fun _ => quiet_heeds κ _) n
  | manifestEntry n =>
    cases hk
    exact flatProgram_heeds manifestEntryFamily (fun _ v => ⟨v, rfl⟩) (manifestEntries_heeds κ)
      (fun _ => .done trivial) n
  | singletonEntries n =>
    cases hk
    exact mapProgram_heeds singletonEntriesFamily (fun _ v => ⟨v, rfl⟩) (entries_heeds κ)
      (fun _ => quiet_heeds κ _) n
  | inputActionEntries n =>
    cases hk
    exact mapProgram_heeds inputActionEntriesFamily (fun _ v => ⟨v, rfl⟩) (entries_heeds κ)
      (fun _ => quiet_heeds κ _) n
  | singletonEntryList =>
    cases hk
    exact (singletonEntries_heeds κ).items
  | sceneAssets n =>
    cases hk
    exact mapProgram_heeds sceneAssetsFamily (fun _ v => ⟨v, rfl⟩) (sceneFiles_heeds κ)
      (fun _ => quiet_heeds κ _) n
  | sceneConnections n =>
    cases hk
    exact flatProgram_heeds sceneConnectionsFamily (fun _ v => ⟨v, rfl⟩) (sceneAssets_heeds κ)
      (fun _ => .done trivial) n
  | scannedClasses n =>
    cases hk
    exact mapProgram_heeds scannedClassesFamily (fun _ v => ⟨v, rfl⟩) (typeSymbols_heeds κ)
      (fun s => scan_heeds κ _ s) n
  | singletonClasses n =>
    cases hk
    exact mapProgram_heeds singletonClassesFamily (fun _ v => ⟨v, rfl⟩) (scannedClasses_heeds κ)
      (fun _ => quiet_heeds κ _) n
  | classRecords n =>
    cases hk
    exact mapProgram_heeds classRecordsFamily (fun _ v => ⟨v, rfl⟩) (scannedClasses_heeds κ)
      (fun _ => quiet_heeds κ _) n
  | singletonPairs n =>
    cases hk
    exact joinProgram_heeds singletonPairsFamily (fun _ v => ⟨v, rfl⟩) (singletonEntries_heeds κ)
      (singletonClasses_heeds κ) (fun _ => .done trivial) (fun _ => .done trivial) n
  | singletonSlots n =>
    cases hk
    exact mapProgram_heeds singletonSlotsFamily (fun _ v => ⟨v, rfl⟩) (singletonPairs_heeds κ)
      (fun _ => .done trivial) n
  | classConnections n =>
    cases hk
    exact joinProgram_heeds classConnectionsFamily (fun _ v => ⟨v, rfl⟩) (classRecords_heeds κ)
      (connections_heeds κ)
      (fun _ => .done trivial) (fun _ => .done trivial) n
  | singletonSlotList =>
    cases hk
    exact (singletonSlots_heeds κ).items
  | singletonRegistry =>
    cases hk
    exact (readNode_heeds κ .singletonSlotList).bind fun _ _ => .done trivial
  | inputActionList =>
    cases hk
    exact (inputActionEntries_heeds κ).items
  | registryFragment =>
    cases hk
    exact (readNode_heeds κ .singletonRegistry).bind fun _ _ => .done trivial
  | inputActionFragment =>
    cases hk
    exact (readNode_heeds κ .inputActionList).bind fun _ _ => .done trivial
  | singletonFragments n =>
    cases hk
    exact mapProgram_heeds singletonFragmentsFamily (fun _ v => ⟨v, rfl⟩) (singletonSlots_heeds κ)
      (fun _ => quiet_heeds κ _) n
  | helperFragments n =>
    cases hk
    exact mapProgram_heeds helperFragmentsFamily (fun _ v => ⟨v, rfl⟩) (scannedClasses_heeds κ)
      (renderHelpersProgram_heeds κ registry) n
  | notifyFragments n =>
    cases hk
    exact mapProgram_heeds notifyFragmentsFamily (fun _ v => ⟨v, rfl⟩) (scannedClasses_heeds κ)
      (fun _ => quiet_heeds κ _) n
  | connectionFragments n =>
    cases hk
    exact mapProgram_heeds connectionFragmentsFamily (fun _ v => ⟨v, rfl⟩)
      (classConnections_heeds κ)
      (fun _ => quiet_heeds κ _) n
  | unregisteredSingletons n =>
    cases hk
    exact mapProgram_heeds unregisteredSingletonsFamily (fun _ v => ⟨v, rfl⟩)
      (scannedClasses_heeds κ)
      (fun s => unregistered_heeds κ c s) n
  | fragmentList kind =>
    cases kind with
    | singleton =>
      cases hk
      exact (singletonFragments_heeds κ).items
    | helper =>
      cases hk
      exact (helperFragments_heeds κ).items
    | notify =>
      cases hk
      exact (notifyFragments_heeds κ).items
    | connection =>
      cases hk
      exact (connectionFragments_heeds κ).items
  | generatedFragments =>
    cases hk
    exact assembledProgram_heeds κ
  | pipelineDiagnostics =>
    cases hk
    exact diagnosticsProgram_heeds κ

end

end SceneCodegen.Generation
