import SceneCodegen.Proofs.Generation.Bounds
import SceneCodegen.Proofs.Generation.Supplies
import SceneCodegen.Proofs.Graph.Completion

/-!
# Histories of a generator

What a run comes to hangs on what a generator holds, and on nothing that it was told, computed or
broken off before. An incremental run comes to what a new generator comes to that is given the same
assets and types at once.
-/
namespace SceneCodegen
open SceneCodegen.Graph Generation

/-- What makes a snapshot: where its file is and what it says. -/
def Snapshot.content (s : Snapshot) : String × String × String := (s.path, s.resPath, s.text)

namespace Generator

namespace Holding
variable {S : Standard} {c : Config} {N : Nat} {given : Supplies} {g : Generator}
  {registry : Fragment.EmitterRegistry} (h : Holding S c N given g registry)
include h

theorem of_store {s : Store Node Value} (hrest : AtRest (rulesWith registry c N) S.values s)
    (htoken : s.token = none) (hinputs : s.input? = g.store.input?) :
    Holding S c N given { g with store := s } registry where
  drawn := h.drawn
  known := h.known
  few := h.few
  config := h.config
  emitters := h.emitters
  rest := hrest
  token := htoken
  manifests := h.manifests.of_same fun _ => congrFun hinputs _
  scenes := h.scenes.of_same fun _ => congrFun hinputs _
  types := h.types.of_same fun _ => congrFun hinputs _

omit h in
theorem typeCount_eq (g : Generator) :
    g.typeCount = (typeSymbolsFamily.valueOf .keys g.store).length := by
  have hkeys : typeSymbolsFamily.valueOf .keys g.store =
      (g.store.input? (.typeSymbols .keys)).getD [] := typeSymbolsFamily_faithful.valueOf_eq .keys _
  rw [hkeys, typeCount]
  cases g.store.input? (.typeSymbols .keys) <;> rfl

theorem typeCount_le : g.typeCount ≤ N := by
  have hnodup : (typeSymbolsFamily.valueOf .keys g.store).Nodup := by
    obtain ⟨l, -, hsorted⟩ := h.types.keys
    obtain hsorted : sortedBy compare l = _ := Except.ok.inj hsorted
    rw [← hsorted]
    exact nodup_sortedBy compare l
  have hsubset : typeSymbolsFamily.valueOf .keys g.store ⊆ Table.keys given.symbols := by
    intro name hname
    have hsome := (h.types.mem_keys name).mp hname
    obtain ⟨t, ht⟩ := Option.isSome_iff_exists.mp hsome
    exact List.mem_map_of_mem (f := Prod.fst) (Table.mem_of_get? ht)
  have hlength := hnodup.length_le_of_subset hsubset
  rw [Table.keys, List.length_map] at hlength
  have hfew := h.few
  rw [typeCount_eq]
  omega

/-- A run searches as far as it would if `N` types were known. -/
theorem sameRules : SameRules g.rules (rulesWith registry c N) g.store.input? := by
  have hcount := h.typeCount_le
  have hlength := List.length_filterMap_le (fun name =>
    (typeSymbolsFamily.valueOf (.item name) g.store).map (·.lookupName))
    (typeSymbolsFamily.valueOf .keys g.store)
  rw [← typeCount_eq] at hlength
  rw [Generator.rules, h.config, h.emitters]
  refine rules_sameRules c ?_ hlength (Nat.le_trans hlength hcount)
  intro name t ht
  have hvalue : typeSymbolsFamily.valueOf (.item name) g.store = some t :=
    typeSymbolsFamily_faithful.valueOf_of_input ht
  have hsome := h.types.isSome name
  rw [hvalue] at hsome
  refine List.mem_filterMap.mpr ⟨name, (h.types.mem_keys name).mpr hsome.symm, ?_⟩
  rw [hvalue]
  rfl

theorem run_eq (token : Option Token) : g.run token =
    ((resultProgram.runPass (rulesWith registry c N) depth token g.store).1,
      { g with store :=
          (resultProgram.runPass (rulesWith registry c N) depth token g.store).2 }) := by
  have hrun := h.sameRules.run depth resultProgram (s := g.store.beginPass token) rfl
  simp only [Generator.run, Program.runPass, hrun]

theorem run (token : Option Token) :
    Holding S c N (given.after c (.run token)) (g.run token).2 registry := by
  have hleveled : Leveled (rulesWith registry c N) Generation.level := rules_leveled c N
  have hsteady := hleveled.steady g.store.input?
  have hbegin := h.rest.beginPass token
  obtain ⟨hrest, hinputs⟩ := hbegin.run (S.orderly registry c N) hsteady
    resultProgram.within_univ depth
  rw [h.run_eq]
  exact h.of_store (hrest.endPass _) rfl hinputs

end Holding

theorem resultProgram_safe :
    resultProgram.Safe (Generation.level · < depth) (Unfailing Node) := by
  have hread (k : Node) (hk : Generation.level k < depth) :
      (readNode k).Safe (Generation.level · < depth) (Unfailing Node) := Program.safe_get hk
  refine (hread .generatedFragments (by decide)).bind fun assembled => ?_
  exact (hread .pipelineDiagnostics (by decide)).bind fun diagnostics => .done _

theorem resultProgram_alike : resultProgram.Alike likeness Eq Eq resultProgram := by
  have hread (k : Node) (hk : ∀ v w, likeness.like k v w → v = w) :
      (readNode k).Alike likeness Eq Eq (readNode k) := by
    refine .read fun v w hvw => ?_
    obtain rfl := hk v w hvw
    exact .done rfl
  refine (hread .generatedFragments fun _ _ h => h).bind fun a b hab => ?_
  refine (hread .pipelineDiagnostics fun _ _ h => h).bind fun d e hde => ?_
  rw [hab, hde]
  exact .done rfl

namespace Holding
variable {c : Config} {N : Nat} {given given' : Supplies} {g g' : Generator}
  {registry : Fragment.EmitterRegistry} {U U' : Snapshot → Prop} {hU : Telling U} {hU' : Telling U'}

theorem likeInputs (h : Holding (.plain U hU) c N given g registry)
    (h' : Holding (.plain U' hU') c N given' g' registry)
    (hassets : given.asset = given'.asset) (htypes : given.type = given'.type) :
    LikeInputs (rulesWith registry c N) likeness g.store.input? g'.store.input? := by
  have hmanifests : given'.manifest c = given.manifest c := by
    funext path
    rw [Supplies.manifest, Supplies.manifest, hassets]
  have hscenes : given'.scene c = given.scene c := by
    funext path
    rw [Supplies.scene, Supplies.scene, hassets]
  intro k absent hk
  cases k with
  | manifestFiles n =>
    cases hk
    exact manifestFilesFamily_faithful.like_of_tallies (fun _ => rfl) h.manifests
      (hmanifests ▸ h'.manifests) n
  | sceneFiles n =>
    cases hk
    exact sceneFilesFamily_faithful.like_of_tallies (fun _ => rfl) h.scenes
      (hscenes ▸ h'.scenes) n
  | typeSymbols n =>
    cases hk
    exact typeSymbolsFamily_faithful.like_of_tallies (fun _ => rfl) h.types (htypes ▸ h'.types) n
  | fragmentList kind => cases kind <;> cases hk
  | _ => cases hk

/-- Generators that hold the same come to the same. -/
theorem same_result (h : Holding (.plain U hU) c N given g registry)
    (h' : Holding (.plain U' hU') c N given' g' registry)
    (hassets : given.asset = given'.asset) (htypes : given.type = given'.type) :
    ∃ r, (g.run none).1 = .ok r ∧ (g'.run none).1 = .ok r := by
  rw [h.run_eq, h'.run_eq]
  have hin := h.likeInputs h' hassets htypes
  obtain ⟨r, r', hr, hr', rfl⟩ := (h.rest.beginPass none).run_alike (rules_orderly c N)
    (rules_leveled c N) (h'.rest.beginPass none) rfl rfl hin resultProgram_alike
    resultProgram_safe
  exact ⟨r, hr, hr'⟩

end Holding

/-- Orders that can be given: each snapshot has the digest of its text, no two texts have one
digest, and each table of types is plain and names each type once. -/
structure Fitting (orders : List Order) : Prop where
  digest : ∀ s ∈ orders.flatMap Order.snapshots, s.digest = Text.sha256 s.text
  text : ∀ s ∈ orders.flatMap Order.snapshots, ∀ t ∈ orders.flatMap Order.snapshots,
    Text.sha256 s.text = Text.sha256 t.text → s.text = t.text
  symbols : ∀ t, .replaceSymbols t ∈ orders → (Table.keys t).Nodup ∧ Scan.PlainTable t

theorem Fitting.telling {orders : List Order} (h : Fitting orders) :
    Telling (· ∈ orders.flatMap Order.snapshots) := by
  intro s t hs ht hsame
  have hsame : (s.path == t.path && s.resPath == t.resPath && s.digest == t.digest) = true := hsame
  simp only [Bool.and_eq_true, beq_iff_eq] at hsame
  obtain ⟨⟨hpath, hres⟩, hdigest⟩ := hsame
  have htext := h.text s hs t ht (by rw [← h.digest s hs, ← h.digest t ht, hdigest])
  cases s
  cases t
  simp_all

namespace Holding
variable {S : Standard} {c : Config} {N : Nat} {given : Supplies} {g : Generator}
  {registry : Fragment.EmitterRegistry}

theorem apply (h : Holding S c N given g registry) {order : Order}
    (hnew : ∀ s ∈ order.snapshots, S.snapshot s) (hsymbols : ∀ t, order = .replaceSymbols t →
      (Table.keys t).Nodup ∧ (∀ name x, (name, x) ∈ t → S.type x) ∧ t.length ≤ N) :
    Holding S c N (given.after c order) (order.apply g) registry := by
  have hdrawn := drawn_after h.drawn hnew (c := c)
  cases order with
  | replaceAssets snapshots => exact h.restocked (h.replaceAssets_restocked hnew) hdrawn rfl
  | updateAssets snapshots removed =>
    exact h.restocked (h.updateAssets_restocked hnew removed) hdrawn rfl
  | replaceSymbols symbols =>
    obtain ⟨hnodup, hknown, hfew⟩ := hsymbols symbols rfl
    exact h.replaceSymbols hnodup hknown hfew
  | run token => exact h.run token

theorem follow (h : Holding S c N given g registry) {orders : List Order}
    (hnew : ∀ s ∈ orders.flatMap Order.snapshots, S.snapshot s)
    (hsymbols : ∀ t, .replaceSymbols t ∈ orders →
      (Table.keys t).Nodup ∧ (∀ name x, (name, x) ∈ t → S.type x) ∧ t.length ≤ N) :
    Holding S c N (orders.foldl (Supplies.after c) given) (g.follow orders) registry := by
  induction orders generalizing given g with
  | nil => exact h
  | cons order orders ih =>
    have hfirst : Holding S c N (given.after c order) (order.apply g) registry := by
      refine h.apply (fun s hs => hnew s ?_) fun t ht => hsymbols t ?_
      · exact List.mem_flatMap.mpr ⟨order, List.mem_cons_self, hs⟩
      · exact ht ▸ List.mem_cons_self
    refine ih hfirst (fun s hs => hnew s ?_) fun t ht => hsymbols t ?_
    · obtain ⟨o, ho, hs⟩ := List.mem_flatMap.mp hs
      exact List.mem_flatMap.mpr ⟨o, List.mem_cons_of_mem order ho, hs⟩
    · exact List.mem_cons_of_mem order ht

end Holding

theorem exists_bound (orders : List Order) :
    ∃ N, ∀ t, .replaceSymbols t ∈ orders → t.length ≤ N := by
  induction orders with
  | nil => exact ⟨0, nofun⟩
  | cons order orders ih =>
    obtain ⟨N, hN⟩ := ih
    cases order with
    | replaceSymbols symbols =>
      refine ⟨max N symbols.length, fun t ht => ?_⟩
      rcases List.mem_cons.mp ht with he | ht
      · cases he
        omega
      · have hle := hN t ht
        omega
    | _ => exact ⟨N, fun t ht => hN t (by simpa using ht)⟩

/-- What a new generator holds after orders that fit, whatever bound there is on its types. -/
theorem Fitting.holding {orders : List Order} (h : Fitting orders) (c : Config)
    (registry : Fragment.EmitterRegistry := .standard) :
    ∃ n, ∀ N, n ≤ N → Holding (.plain (· ∈ orders.flatMap Order.snapshots) h.telling) c N
      (Supplies.ofOrders c orders)
      (Generator.follow orders { config := c, emitters := registry }) registry := by
  obtain ⟨n, hn⟩ := exists_bound orders
  refine ⟨n, fun N hle => (holding_empty _ c registry N).follow (fun _ hs => hs) ?_⟩
  intro t ht
  obtain ⟨hnodup, hplain⟩ := h.symbols t ht
  exact ⟨hnodup, hplain, Nat.le_trans (hn t ht) hle⟩

theorem Fitting.eq_of_content {orders orders' : List Order} (h : Fitting orders)
    (h' : Fitting orders') {c : Config} {path : String}
    (hcontent : ((Supplies.ofOrders c orders).asset path).map Snapshot.content =
      ((Supplies.ofOrders c orders').asset path).map Snapshot.content) :
    (Supplies.ofOrders c orders).asset path = (Supplies.ofOrders c orders').asset path := by
  obtain ⟨n, hn⟩ := h.holding c
  obtain ⟨n', hn'⟩ := h'.holding c
  have hdrawn := (hn n (Nat.le_refl n)).drawn path
  have hdrawn' := (hn' n' (Nat.le_refl n')).drawn path
  generalize (Supplies.ofOrders c orders).asset path = s at hcontent hdrawn
  generalize (Supplies.ofOrders c orders').asset path = s' at hcontent hdrawn'
  cases s with
  | none =>
    cases s' with
    | none => rfl
    | some s' => cases hcontent
  | some s =>
    cases s' with
    | none => cases hcontent
    | some s' =>
      have hdigest := h.digest s (hdrawn s rfl)
      have hdigest' := h'.digest s' (hdrawn' s' rfl)
      simp only [Option.map_some, Option.some.injEq, Snapshot.content, Prod.mk.injEq] at hcontent
      obtain ⟨hpath, hres, htext⟩ := hcontent
      cases s
      cases s'
      simp_all

/-- What a run comes to hangs on what was supplied last: for each path the place and the text of its
asset, and for each name its type. -/
theorem run_eq_of_same_supplies (c : Config) (registry : Fragment.EmitterRegistry)
    (orders orders' : List Order) (h : Fitting orders) (h' : Fitting orders')
    (hassets : ∀ path, ((Supplies.ofOrders c orders).asset path).map Snapshot.content =
      ((Supplies.ofOrders c orders').asset path).map Snapshot.content)
    (htypes : ∀ name, (Supplies.ofOrders c orders).type name =
      (Supplies.ofOrders c orders').type name) :
    ∃ r, ((Generator.follow orders { config := c, emitters := registry }).run none).1 = .ok r ∧
      ((Generator.follow orders' { config := c, emitters := registry }).run none).1 = .ok r := by
  obtain ⟨n, hn⟩ := h.holding c registry
  obtain ⟨n', hn'⟩ := h'.holding c registry
  have hheld := hn (max n n') (Nat.le_max_left n n')
  have hheld' := hn' (max n n') (Nat.le_max_right n n')
  refine hheld.same_result hheld' ?_ (funext htypes)
  funext path
  exact h.eq_of_content h' (hassets path)

namespace Score

def config : Config := { projectRoot := "/game" }

def snapshot (path text : String) : Snapshot := .ofText config.directory "/game" path text

def manifest : Snapshot :=
  snapshot "/game/project.godot" "[autoload]\nScore=\"*res://Score.cs\"\n"

def score : TypeSymbol :=
  { name := "Score", baseType := some "Godot.GodotObject"
    markers := [⟨Scan.singletonMarker, [], []⟩]
    members := [
      { kind := .field, name := "points", type := "int", markers := [⟨Scan.notifyMarker, [], []⟩] },
      { kind := .field, name := "label", type := "Label"
        markers := [⟨Scan.accessorMarker, [.text "Board/Points"], []⟩] }] }

def symbols : SymbolTable :=
  [("Godot.GodotObject", { name := "GodotObject", nameSpace := "Godot", assembly := "GodotSharp" }),
    ("Score", score)]

/-- The class can be registered, and as it derives from the root type, its accessor is seen too. -/
theorem scanned_score : ((Scan.scanClass (.ofTable symbols) score).run.map fun cls =>
      cls.members.map fun m => (m.name, m.kind)) =
    some [("Score", .singletonClass), ("points", .notifyField), ("label", .accessor)] := by decide

/-- Assets come and go between runs, one of which is broken off at its third query. -/
def incremental : List Order :=
  [.replaceAssets [snapshot "/game/project.godot" "", snapshot "/game/Old.tscn" ""],
    .replaceSymbols [], .run none, .updateAssets [manifest] ["/game//Old.tscn"],
    .run (some ⟨1, false, some 2⟩), .replaceSymbols symbols]

def fresh : List Order := [.replaceSymbols symbols, .replaceAssets [manifest]]

theorem symbols_fitting : (Table.keys symbols).Nodup ∧ Scan.PlainTable symbols := by
  refine ⟨by decide, fun name t ht m hm marker hmarker haccessor => ?_⟩
  rcases List.mem_pair.mp ht with h | h <;> obtain ⟨rfl, rfl⟩ := Prod.mk.inj h
  · cases hm
  · rcases List.mem_pair.mp hm with rfl | rfl <;> obtain rfl := List.mem_singleton.mp hmarker
    · exact absurd haccessor (by decide)
    · exact trivial

theorem digest_snapshot (path text : String) :
    (snapshot path text).digest = Text.sha256 (snapshot path text).text := rfl

theorem incremental_snapshots {s : Snapshot} (h : s ∈ incremental.flatMap Order.snapshots) :
    s = snapshot "/game/project.godot" "" ∨ s = snapshot "/game/Old.tscn" "" ∨ s = manifest := by
  simpa only [incremental, List.flatMap_cons, List.flatMap_nil, Order.snapshots, List.cons_append,
    List.nil_append, List.append_nil, List.mem_cons, List.not_mem_nil, or_false] using h

theorem incremental_text {s : Snapshot} (h : s ∈ incremental.flatMap Order.snapshots) :
    s.text = "" ∨ s.text = "[autoload]\nScore=\"*res://Score.cs\"\n" := by
  rcases incremental_snapshots h with rfl | rfl | rfl
  · exact .inl rfl
  · exact .inl rfl
  · exact .inr rfl

theorem fresh_snapshots {s : Snapshot} (h : s ∈ fresh.flatMap Order.snapshots) : s = manifest := by
  simpa only [fresh, List.flatMap_cons, List.flatMap_nil, Order.snapshots, List.nil_append,
    List.append_nil, List.mem_cons, List.not_mem_nil, or_false] using h

theorem sha256_ne : Text.sha256 "" ≠ Text.sha256 "[autoload]\nScore=\"*res://Score.cs\"\n" := by
  decide +kernel

theorem incremental_fitting : Fitting incremental where
  digest s hs := by
    rcases incremental_snapshots hs with rfl | rfl | rfl <;> exact digest_snapshot _ _
  text s hs t ht hsame := by
    rcases incremental_text hs with h | h <;> rcases incremental_text ht with h' | h' <;>
      rw [h, h'] at hsame ⊢
    · exact absurd hsame sha256_ne
    · exact absurd hsame.symm sha256_ne
  symbols t ht := by
    simp only [incremental, List.mem_cons, reduceCtorEq, Order.replaceSymbols.injEq, false_or,
      List.not_mem_nil, or_false] at ht
    rcases ht with rfl | rfl
    · exact ⟨by decide, fun _ _ h => by cases h⟩
    · exact symbols_fitting

theorem fresh_fitting : Fitting fresh where
  digest s hs := by
    obtain rfl := fresh_snapshots hs
    exact digest_snapshot _ _
  text s hs t ht _ := by
    rw [fresh_snapshots hs, fresh_snapshots ht]
  symbols t ht := by
    simp only [fresh, List.mem_cons, reduceCtorEq, Order.replaceSymbols.injEq, List.not_mem_nil,
      or_false] at ht
    exact ht ▸ symbols_fitting

/-- The scene was taken out, and the manifest replaced. -/
theorem same_assets (path : String) : (Supplies.ofOrders config incremental).asset path =
    (Supplies.ofOrders config fresh).asset path := by
  have hremoved : (Path.ofText "/game//Old.tscn").text = "/game/Old.tscn" := by decide
  have hmanifest : manifest.path = "/game/project.godot" := by decide
  have hempty : (snapshot "/game/project.godot" "").path = "/game/project.godot" := by
    decide
  have hold : (snapshot "/game/Old.tscn" "").path = "/game/Old.tscn" := by decide
  simp only [Supplies.ofOrders, incremental, fresh, List.foldl_cons, List.foldl_nil,
    Supplies.after, Supplies.assets, List.map_cons, List.map_nil, hremoved]
  by_cases ha : AssetFiles.isAsset config.manifestName config.sceneExtension path
  · rw [if_pos ha, if_pos ha, if_pos ha]
    by_cases hm : path = "/game/project.godot"
    · subst hm
      simp [lastUnder, hmanifest]
    · have hne : ("/game/project.godot" == path) = false := by simpa using Ne.symm hm
      by_cases ho : path = "/game/Old.tscn"
      · subst ho
        simp [lastUnder, hmanifest]
      · have hne' : ("/game/Old.tscn" == path) = false := by simpa using Ne.symm ho
        simp [lastUnder, hmanifest, hempty, hold, hne, hne']
  · rw [if_neg ha, if_neg ha]

theorem same_types (name : String) : (Supplies.ofOrders config incremental).type name =
    (Supplies.ofOrders config fresh).type name := by
  simp only [Supplies.ofOrders, incremental, fresh, List.foldl_cons, List.foldl_nil,
    Supplies.after, Supplies.assets, Supplies.type]

end Score

theorem run_eq_of_same_supplies_score :
    ((Scan.scanClass (.ofTable Score.symbols) Score.score).run.map fun cls =>
        cls.members.map fun m => (m.name, m.kind)) =
      some [("Score", .singletonClass), ("points", .notifyField), ("label", .accessor)] ∧
    Fitting Score.incremental ∧ Fitting Score.fresh ∧
    (∀ path, ((Supplies.ofOrders Score.config Score.incremental).asset path).map Snapshot.content =
      ((Supplies.ofOrders Score.config Score.fresh).asset path).map Snapshot.content) ∧
    (∀ name, (Supplies.ofOrders Score.config Score.incremental).type name =
      (Supplies.ofOrders Score.config Score.fresh).type name) ∧
    ∃ r, ((Generator.follow Score.incremental { config := Score.config }).run none).1 = .ok r ∧
      ((Generator.follow Score.fresh { config := Score.config }).run none).1 = .ok r := by
  have hassets (path : String) :
      ((Supplies.ofOrders Score.config Score.incremental).asset path).map Snapshot.content =
        ((Supplies.ofOrders Score.config Score.fresh).asset path).map Snapshot.content := by
    rw [Score.same_assets]
  exact ⟨Score.scanned_score, Score.incremental_fitting, Score.fresh_fitting, hassets,
    Score.same_types,
    run_eq_of_same_supplies Score.config .standard Score.incremental Score.fresh
      Score.incremental_fitting Score.fresh_fitting hassets Score.same_types⟩

end Generator
end SceneCodegen
