import SceneCodegen.Proofs.Generation.Presence
import SceneCodegen.Proofs.Graph.Rerun

/-!
# What a run needs

The diagnostics of a run are read from the outcome of each file and of each type there is, so these
are valid wherever the diagnostics rest on valid nodes.
-/
namespace SceneCodegen
open SceneCodegen.Graph

section
variable {K : Type} {V : K → Type} {ι α β : Type} {Q : (k : K) → V k → Prop}

theorem Graph.Family.get_demands {N : Type} {W : N → Type} (f : Family K V W) (n : N) :
    (f.get n).Demands Q (f.key n) := (Program.demands_get _).bind _

/-- The diagnostics of a mapped stream are read from the outcomes of all keys that are sure to be
listed. -/
theorem Graph.mapDiagnostics_demands [Node K] [ItemKey ι] (self : Family K V (MapNode.Value ι β))
    (hself : self.Total) {source : Stream K V ι α} {handler : α → Program K V (Outcome β)}
    {T T' : K → Prop} {i : ι} (hinherited : source.diagnostics.Heeds T Q (Unfailing K) Anything)
    (hkeys : source.keys.Heeds T' Q (Unfailing K) (i ∈ ·)) :
    (mapProgram self source handler .diagnostics).Demands Q (self.key (.outcome i)) := by
  refine .after hinherited fun _ _ => .after hkeys fun keys hi => .bind ?_ _
  have hown (j : ι) : (do return (← self.get (.outcome j)).diagnostics :
      Program K V (List Diagnostic)).Heeds Anything Q (Unfailing K) Anything :=
    ((Family.heeds_any hself (.outcome j)).widen fun _ _ => trivial).bind fun _ _ => .done trivial
  exact .mapM (fun j _ => hown j) hi ((Family.get_demands self (.outcome i)).bind _)

end

namespace Generation

/-- Lists of keys hold all keys of the kinds. -/
def Covers (κ : Kinds) : (k : Node) → Value k → Prop
  | .manifestFiles .keys => fun l => ∀ i, κ.manifest i → i ∈ l
  | .sceneFiles .keys => fun l => ∀ i, κ.scene i → i ∈ l
  | .typeSymbols .keys => fun l => ∀ i, κ.type i → i ∈ l
  | _ => Anything

variable {κ : Kinds}

theorem manifestKeys_cover {i : String} (hi : κ.manifest i) : manifestFiles.keys.Heeds
    (· = .manifestFiles .keys) (Covers κ) (Unfailing Node) (i ∈ ·) :=
  Family.heeds_get (f := manifestFilesFamily) (n := .keys) (fun _ v => ⟨v, rfl⟩)
    fun v w hv hw => by cases hw; exact hv i hi

theorem sceneKeys_cover {i : String} (hi : κ.scene i) : sceneFiles.keys.Heeds
    (· = .sceneFiles .keys) (Covers κ) (Unfailing Node) (i ∈ ·) :=
  Family.heeds_get (f := sceneFilesFamily) (n := .keys) (fun _ v => ⟨v, rfl⟩)
    fun v w hv hw => by cases hw; exact hv i hi

theorem typeKeys_cover {i : String} (hi : κ.type i) : typeSymbols.keys.Heeds
    (· = .typeSymbols .keys) (Covers κ) (Unfailing Node) (i ∈ ·) :=
  Family.heeds_get (f := typeSymbolsFamily) (n := .keys) (fun _ v => ⟨v, rfl⟩)
    fun v w hv hw => by cases hw; exact hv i hi

/-- The keys that inputs give are all keys of the kinds. -/
structure Kinds.Listed (κ : Kinds) (inputs : Inputs Node Value) : Prop where
  manifest : ∀ i, κ.manifest i → i ∈ (inputs (.manifestFiles .keys)).getD []
  scene : ∀ i, κ.scene i → i ∈ (inputs (.sceneFiles .keys)).getD []
  type : ∀ i, κ.type i → i ∈ (inputs (.typeSymbols .keys)).getD []

theorem settles_covers {inputs : Inputs Node Value} (h : κ.Listed inputs) {c : Config} {size : Nat}
    (n : Nat) (k : Node) (v : Value k) (hv : settle (rules c size) inputs n k = .ok v) :
    Covers κ k v := by
  cases k with
  | manifestFiles m =>
    cases m with
    | keys =>
      rw [settle_input rfl] at hv
      cases hv
      exact h.manifest
    | item i => trivial
  | sceneFiles m =>
    cases m with
    | keys =>
      rw [settle_input rfl] at hv
      cases hv
      exact h.scene
    | item i => trivial
  | typeSymbols m =>
    cases m with
    | keys =>
      rw [settle_input rfl] at hv
      cases hv
      exact h.type
    | item i => trivial
  | _ => trivial

/-- The query of the first node reads the second, whatever else it reads. -/
inductive Needs (κ : Kinds) : Node → Node → Prop
  | manifestReports : Needs κ .pipelineDiagnostics (.manifestEntries .diagnostics)
  | sceneReports : Needs κ .pipelineDiagnostics (.sceneAssets .diagnostics)
  | scanReports : Needs κ .pipelineDiagnostics (.scannedClasses .diagnostics)
  | slotReports : Needs κ .pipelineDiagnostics (.singletonSlots .diagnostics)
  | helperReports : Needs κ .pipelineDiagnostics (.helperFragments .diagnostics)
  | notifyReports : Needs κ .pipelineDiagnostics (.notifyFragments .diagnostics)
  | connectionReports : Needs κ .pipelineDiagnostics (.connectionFragments .diagnostics)
  | singletonReports : Needs κ (.singletonSlots .diagnostics) (.singletonClasses .diagnostics)
  | recordReports : Needs κ (.connectionFragments .diagnostics) (.classRecords .diagnostics)
  | entries {i : String} (hi : κ.manifest i) :
    Needs κ (.manifestEntries .diagnostics) (.manifestEntries (.outcome i))
  | asset {i : String} (hi : κ.scene i) :
    Needs κ (.sceneAssets .diagnostics) (.sceneAssets (.outcome i))
  | scan {i : String} (hi : κ.type i) :
    Needs κ (.scannedClasses .diagnostics) (.scannedClasses (.outcome i))
  | singleton {i : String} (hi : κ.type i) :
    Needs κ (.singletonClasses .diagnostics) (.singletonClasses (.outcome i))
  | record {i : String} (hi : κ.type i) :
    Needs κ (.classRecords .diagnostics) (.classRecords (.outcome i))
  | helper {i : String} (hi : κ.type i) :
    Needs κ (.helperFragments .diagnostics) (.helperFragments (.outcome i))
  | notify {i : String} (hi : κ.type i) :
    Needs κ (.notifyFragments .diagnostics) (.notifyFragments (.outcome i))
  | manifestFile (i : String) : Needs κ (.manifestEntries (.outcome i)) (.manifestFiles (.item i))
  | sceneFile (i : String) : Needs κ (.sceneAssets (.outcome i)) (.sceneFiles (.item i))

section
variable {k d : Node} {c : Config} {N : Nat}

theorem diagnosticsProgram_demands (h : Needs κ .pipelineDiagnostics d) :
    diagnosticsProgram.Demands (Covers κ) d := by
  have hread {ι β : Type} (f : Family Node Value (MapNode.Value ι β)) (hf : f.Total) :
      (f.get .diagnostics).Heeds (· = f.key .diagnostics) (Covers κ) (Unfailing Node) Anything :=
    Family.heeds_any hf .diagnostics
  have hown {ι β : Type} (f : Family Node Value (MapNode.Value ι β)) (hd : f.key .diagnostics = d) :
      (f.get .diagnostics).Demands (Covers κ) d := hd ▸ f.get_demands .diagnostics
  -- The streams are read one after another, each whatever those before it report.
  cases h
  all_goals
    repeat first
      | exact (hown _ (by rfl)).bind _
      | refine .after (hread _ fun _ v => ⟨v, rfl⟩) fun _ _ => ?_

theorem Needs.demands (h : Needs κ k d) (c : Config) (N : Nat) :
    ∃ p, rules c N k = .query p ∧ p.Demands (Covers κ) d := by
  have hsilent : (.done [] : Query (List Diagnostic)).Heeds NoNode (Covers κ) (Unfailing Node)
      Anything := .done trivial
  have hscan : scannedClasses.diagnostics.Heeds (· = .scannedClasses .diagnostics) (Covers κ)
      (Unfailing Node) Anything :=
    Family.heeds_any (f := scannedClassesFamily) (fun _ v => ⟨v, rfl⟩) .diagnostics
  have hentries : singletonEntries.diagnostics.Heeds (· = .singletonEntries .diagnostics) (Covers κ)
      (Unfailing Node) Anything :=
    Family.heeds_any (f := singletonEntriesFamily) (fun _ v => ⟨v, rfl⟩) .diagnostics
  cases h with
  | manifestReports | sceneReports | scanReports | slotReports | helperReports | notifyReports
  | connectionReports => exact ⟨_, rfl, diagnosticsProgram_demands (by constructor)⟩
  | singletonReports =>
    refine ⟨_, rfl, .bind ?_ _⟩
    exact .after hentries fun _ _ => (singletonClassesFamily.get_demands .diagnostics).bind _
  | recordReports =>
    refine ⟨_, rfl, .bind ?_ _⟩
    exact (classRecordsFamily.get_demands .diagnostics).bind _
  | entries hi =>
    exact ⟨_, rfl, mapDiagnostics_demands manifestEntriesFamily (fun _ v => ⟨v, rfl⟩)
      hsilent (manifestKeys_cover hi)⟩
  | asset hi =>
    exact ⟨_, rfl, mapDiagnostics_demands sceneAssetsFamily (fun _ v => ⟨v, rfl⟩)
      hsilent (sceneKeys_cover hi)⟩
  | scan hi =>
    exact ⟨_, rfl, mapDiagnostics_demands scannedClassesFamily (fun _ v => ⟨v, rfl⟩)
      hsilent (typeKeys_cover hi)⟩
  | singleton hi =>
    exact ⟨_, rfl, mapDiagnostics_demands singletonClassesFamily (fun _ v => ⟨v, rfl⟩)
      hscan (typeKeys_cover hi)⟩
  | record hi =>
    exact ⟨_, rfl, mapDiagnostics_demands classRecordsFamily (fun _ v => ⟨v, rfl⟩)
      hscan (typeKeys_cover hi)⟩
  | helper hi =>
    exact ⟨_, rfl, mapDiagnostics_demands helperFragmentsFamily (fun _ v => ⟨v, rfl⟩)
      hscan (typeKeys_cover hi)⟩
  | notify hi =>
    exact ⟨_, rfl, mapDiagnostics_demands notifyFragmentsFamily (fun _ v => ⟨v, rfl⟩)
      hscan (typeKeys_cover hi)⟩
  | manifestFile i => exact ⟨_, rfl, (manifestFilesFamily.get_demands (.item i)).bind _⟩
  | sceneFile i => exact ⟨_, rfl, (sceneFilesFamily.get_demands (.item i)).bind _⟩

/-- What is needed for a node that rests on valid ones rests on valid ones. -/
theorem Needs.grounded {L : Likeness Node Value} {s : Store Node Value} (h : Needs κ k d)
    (hκ : κ.Listed s.input?) (hs : AtRest (rules c N) L s) (hk : Grounded (rules c N) s k) :
    Grounded (rules c N) s d := by
  obtain ⟨p, hp, hd⟩ := h.demands c N
  exact hs.demanded hk hp hd fun n k v => settles_covers hκ n k v

end

end Generation
end SceneCodegen
