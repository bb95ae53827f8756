import SceneCodegen.CommandLine.Run
import SceneCodegen.Proofs.Generation.Fillers
import SceneCodegen.Proofs.OutputDirectory.Syncing
import SceneCodegen.Proofs.Watch.Steps
import SceneCodegen.Proofs.Workplace

/-!
# Checking what was generated

A generation that comes to an end leaves the output directory in line with its fragments. Checking
afterwards runs the generator once more, on the same inputs if no generated file is one of them, and
finds out of date only the fragments that no file is read back as.
-/
namespace SceneCodegen.CommandLine
open FileTree OutputDirectory

variable {c : Command} {s : Settings} {w w' w₁ : Workplace} {result : GenerationResult}

/-- The root below which a generation looks for assets. -/
def assetRoot (s : Settings) (w : Workplace) : Path := .ofText (w.newGenerator s).config.projectRoot

/-- What a generation reads at a place. -/
def Reads (s : Settings) (w : Workplace) (place : Place) : Prop :=
  w.files.locate (s.resolvedSymbolsPath w.origin) = .ok place ∨
    ∃ rest, place = (assetRoot s w).parts ++ rest ∧
      AssetFiles.IsInput s.manifestName s.sceneExtension (assetRoot s w) rest

/-- No generated file of a directory is read by a generation. -/
def Apart (s : Settings) (w : Workplace) (directory : Place) : Prop :=
  ∀ name, Text.hasSuffix generatedSuffix name = true → ¬Reads s w (directory ++ [name])

/-- A generation that came to a result had loaded its types and run its generator. -/
theorem exists_of_generateOnce (h : generateOnce s w = (.ok result, w₁)) :
    ∃ symbols, w.loadSymbols (s.resolvedSymbolsPath w.origin) = .ok symbols ∧
      ((Generator.fed (w.newGenerator s).config (w.assetsOf (w.newGenerator s).config)
        symbols).run none).1 = .ok result ∧ w₁ = w.reportAll result.diagnostics := by
  unfold generateOnce at h
  cases hload : w.loadSymbols (s.resolvedSymbolsPath w.origin) with
  | error fault =>
    have hfirst := Workplace.load_new_error s hload
    split at h
    · cases h
    · next hok =>
      rw [hok] at hfirst
      cases hfirst
  | ok symbols =>
    rw [Workplace.load_new s hload] at h
    dsimp only at h
    split at h
    · cases h
    · next r hrun =>
      obtain ⟨hr, hw⟩ := Prod.mk.inj h
      obtain rfl := Except.ok.inj hr
      exact ⟨symbols, rfl, hrun, hw.symm⟩

theorem generateOnce_of_run {symbols : SymbolTable}
    (hload : w.loadSymbols (s.resolvedSymbolsPath w.origin) = .ok symbols)
    (hrun : ((Generator.fed (w.newGenerator s).config (w.assetsOf (w.newGenerator s).config)
      symbols).run none).1 = .ok result) :
    generateOnce s w = (.ok result, w.reportAll result.diagnostics) := by
  rw [generateOnce, Workplace.load_new s hload]
  dsimp only
  rw [hrun]

theorem hasSuffix_of_mem_candidates {p : Project} {config : Generation.Config}
    {given : Generator.Supplies} (h : p.Holds config given)
    (hnodup : (Table.keys given.symbols).Nodup) {f : GeneratedFragment}
    (hf : f ∈ p.candidates config) : Text.hasSuffix generatedSuffix f.hintName = true := by
  have hends : ∀ group ∈ p.groups config, Text.hasSuffix generatedSuffix group.1 = true := by
    simp only [Project.groups, List.forall_mem_cons, List.not_mem_nil, false_implies, implies_true]
    decide
  rw [Project.candidates_eq, List.mem_flatMap] at hf
  obtain ⟨group, hgroup, hf⟩ := hf
  obtain ⟨base, hbase⟩ := h.exists_groupEnd hnodup hgroup hf
  rw [hbase]
  exact Generation.hasSuffix_append (hends group hgroup)

/-- The fragments of a result are well named. -/
theorem wellNamed_of_run_fed {config : Generation.Config} {snapshots : List Snapshot}
    {symbols : SymbolTable} (hnodup : (Table.keys symbols).Nodup)
    (hrun : ((Generator.fed config snapshots symbols).run none).1 = .ok result) :
    WellNamed result.fragments := by
  obtain ⟨p, value, hp, hresult, -⟩ := Generator.run_fed config snapshots hnodup
  obtain rfl : p.result _ = result := Except.ok.inj (hresult.symm.trans hrun)
  refine ⟨Generation.nodup_assemble _, fun f hf => ?_⟩
  exact hasSuffix_of_mem_candidates hp hnodup (Generation.mem_of_mem_assemble hf)

theorem wellNamed_of_generateOnce (h : generateOnce s w = (.ok result, w₁)) :
    WellNamed result.fragments := by
  obtain ⟨symbols, hload, hrun, -⟩ := exists_of_generateOnce h
  exact wellNamed_of_run_fed (Workplace.keyed_loadSymbols hload).nodup hrun

/-- What a generation comes to hangs on the files that it reads. -/
theorem generateOnce_keep (h : generateOnce s w = (.ok result, w₁))
    (hplace : w.SamePlace w') (hsound : w.files.Sound) (hsound' : w'.files.Sound)
    (hkeeps : w.files.Keeps w'.files)
    (hsame : ∀ place bytes, Reads s w place →
      (w'.files.at? place = some (.file bytes) ↔ w.files.at? place = some (.file bytes))) :
    generateOnce s w' = (.ok result, w'.reportAll result.diagnostics) := by
  obtain ⟨symbols, hload, hrun, -⟩ := exists_of_generateOnce h
  have hload' : w'.loadSymbols (s.resolvedSymbolsPath w'.origin) = .ok symbols := by
    rw [hplace.origin_eq]
    exact Workplace.loadSymbols_keep hload hplace.libraries hkeeps fun place bytes hlocate hat =>
      (hsame place bytes (.inl hlocate)).mpr hat
  refine generateOnce_of_run hload' ?_
  rw [hplace.newGenerator_eq, ← hrun]
  refine Generator.run_fed_congr _ (Workplace.keyed_loadSymbols hload).nodup fun path => ?_
  rw [Workplace.assetsOf, Workplace.assetsOf, hplace.directory]
  refine AssetFiles.lastUnder_read_congr hsound' hsound (Path.isPlain_ofText _)
    (fun rest bytes hinput => hsame _ bytes (.inr ⟨rest, rfl, hinput⟩)) _ path

/-- A generation that comes to a result brings the output directory in line. -/
theorem generate_synced (hgenerate : generateOnce s w = (.ok result, w₁))
    (hcheck : c.check = false)
    (hwritable : Writable result.fragments (s.resolvedOutputDirectory w.origin) w.files)
    (hreadable : Readable result.fragments (s.resolvedOutputDirectory w.origin) w.files) :
    ∃ w' changes place, generate c s w = (.ok { exitCode := codeOf result }, w') ∧
      w.SamePlace w' ∧
      Synced result.fragments (s.resolvedOutputDirectory w.origin) place w.files changes
        w'.files := by
  have hready : Ready result.fragments (s.resolvedOutputDirectory w.origin) w.files :=
    ⟨hwritable, wellNamed_of_generateOnce hgenerate⟩
  obtain ⟨changes, t', place, hsync, hsynced⟩ := hready.exists_synced hreadable
  obtain ⟨-, -, -, hw₁⟩ := exists_of_generateOnce hgenerate
  obtain ⟨hplace, hfiles⟩ := Workplace.sameFiles_reportAll result.diagnostics w
  have hwrite : w₁.writeFragments result.fragments (s.resolvedOutputDirectory w.origin) =
      (.ok (), { w₁ with files := t' }.sayAll
        (Workplace.summary result.fragments.length changes)) := by
    rw [Workplace.writeFragments, hw₁, hfiles, hsync]
  have hgenerated : generate c s w = (.ok { exitCode := codeOf result },
      { w₁ with files := t' }.sayAll (Workplace.summary result.fragments.length changes)) := by
    simp only [generate, hgenerate, hcheck, hwrite]
    rfl
  refine ⟨_, changes, place, hgenerated, ?_, ?_⟩
  · refine Workplace.SamePlace.trans ?_ (Workplace.sameFiles_sayAll _ _).toSamePlace
    exact ⟨hw₁ ▸ hplace.libraries, hw₁ ▸ hplace.directory, hw₁ ▸ hplace.environment⟩
  · rw [(Workplace.sameFiles_sayAll _ _).files]
    exact hsynced

/-- The exit code of a check right after the files of a result were written. -/
def recheckCode (result : GenerationResult) : Nat :=
  if returning result.fragments = [] then codeOf result else 1

/-- A check right afterwards finds the fragments out of date that no file is read back as. -/
theorem check_synced {t : FileTree} {directory : Path} {place : Place} {changes : Changes}
    (h : Synced result.fragments directory place t changes w.files) :
    ∃ w', check directory result w = (.ok { exitCode := recheckCode result }, w') ∧
      w'.files = w.files := by
  simp only [check, h.isOutdated, h.isStale, recheckCode, bind, Except.bind, pure, Except.pure]
  cases hreturning : returning result.fragments with
  | nil => exact ⟨_, rfl, rfl⟩
  | cons name names =>
    exact ⟨_, rfl, (Workplace.sameFiles_complainAll _ w).files⟩

/-- Generating and then checking ends as the check of the fragments does. -/
theorem generate_check (hgenerate : generateOnce s w = (.ok result, w₁))
    (hsound : w.files.Sound) {place : Place} {changes : Changes} (hplace : w.SamePlace w')
    (hsynced : Synced result.fragments (s.resolvedOutputDirectory w.origin) place w.files changes
      w'.files)
    (hapart : Apart s w place) (hcheck : c.check = true) :
    ∃ w'', generate c s w' = (.ok { exitCode := recheckCode result }, w'') ∧
        w''.files = w'.files := by
  have hagain : generateOnce s w' = (.ok result, w'.reportAll result.diagnostics) := by
    refine generateOnce_keep hgenerate hplace hsound hsynced.sound hsynced.keeps
      fun q bytes hreads => hsynced.others q bytes fun name hname => ?_
    rintro rfl
    exact hapart name (hsynced.suffixed name hname) hreads
  have hfiles := (Workplace.sameFiles_reportAll result.diagnostics w').files
  rw [← hfiles] at hsynced
  obtain ⟨w'', hcheck', hfiles'⟩ := check_synced hsynced
  refine ⟨w'', ?_, hfiles'.trans hfiles⟩
  simp only [generate, hagain, hcheck, hplace.origin_eq, if_true]
  exact hcheck'

/-- Well-named fragments that can be written are brought in line with their directory unless a file
in place of one is no text, which stops everything; and the check after a generation ends as if only
the fragments were out of date in whose text a carriage return stands. -/
theorem output_brought_in_line (fragments : List GeneratedFragment) (directory : Path)
    (t : FileTree) (c : Command) (s : Settings) (w w₁ : Workplace) (result : GenerationResult) :
    (Ready fragments directory t →
      (Readable fragments directory t → ∃ changes t' place,
        sync fragments directory t = (.ok changes, t') ∧
          Synced fragments directory place t changes t') ∧
      (¬Readable fragments directory t → ∃ e t',
        sync fragments directory t = (.error (.undecodable e), t') ∧ Grown t t')) ∧
    (c.check = false → generateOnce s w = (.ok result, w₁) →
      Writable result.fragments (s.resolvedOutputDirectory w.origin) w.files →
      Readable result.fragments (s.resolvedOutputDirectory w.origin) w.files →
      ∃ w' changes place, generate c s w = (.ok { exitCode := codeOf result }, w') ∧
        Synced result.fragments (s.resolvedOutputDirectory w.origin) place w.files changes
          w'.files ∧
        (Apart s w place → ∃ w'', generate { c with check := true } s w' =
          (.ok { exitCode := recheckCode result }, w'') ∧ w''.files = w'.files)) := by
  refine ⟨fun hready => ⟨hready.exists_synced, hready.exists_undecodable⟩,
    fun hcheck hgenerate hwritable hreadable => ?_⟩
  obtain ⟨w', changes, place, hgenerated, hplace, hsynced⟩ :=
    generate_synced hgenerate hcheck hwritable hreadable
  exact ⟨w', changes, place, hgenerated, hsynced, fun hapart =>
    generate_check hgenerate hwritable.sound hplace hsynced hapart rfl⟩

namespace Arcade

def tree : FileTree := ⟨[(["game"], .directory),
  (["game", "project.godot"], .file (Text.Utf8.encode "[input]\njump=\n")),
  (["game", "symbols.json"], .file (Text.Utf8.encode "\x7b\x7d")), (["game", ".godot"], .directory),
  (["game", ".godot", "godot_helper"], .directory),
  (["game", ".godot", "godot_helper", "Old.g.cs"], .file (Text.Utf8.encode "old"))]⟩

def output : Path := .ofText "/game/.godot/godot_helper"

def outputPlace : Place := ["game", ".godot", "godot_helper"]

def place : Workplace := { directory := .ofText "/game", files := tree }

def settings : Settings := { projectRoot := .ofText "/game" }

/-- No file is read back as the second of these. -/
def fragments : List GeneratedFragment :=
  [⟨"Jump.g.cs", "class Jump"⟩, ⟨"Score.g.cs", "class\rScore"⟩]

theorem sound_tree : tree.Sound := by decide

theorem opens_output : Opens output tree outputPlace := by
  have hparts : output.parts = outputPlace := by decide
  refine ⟨locate_of_walk ?_ (by decide) rfl, by decide⟩
  simp [Path.hasNull, hparts, outputPlace]

theorem locate_symbols :
    tree.locate (settings.resolvedSymbolsPath place.origin) = .ok ["game", "symbols.json"] := by
  have hparts : (settings.resolvedSymbolsPath place.origin).parts = ["game", "symbols.json"] := by
    decide
  refine locate_of_walk ?_ (by decide) rfl
  simp [Path.hasNull, hparts]

theorem fileNames_output : tree.fileNames output = ["Old.g.cs"] := by
  rw [fileNames, opens_output.locate]
  rfl

theorem writable {fragments : List GeneratedFragment}
    (hnames : ∀ f ∈ fragments, Reaches output f.hintName)
    (hfree : ∀ f ∈ fragments, tree.at? (outputPlace ++ [f.hintName]) ≠ some .directory) :
    Writable fragments output tree := by
  refine writable_of_opens sound_tree (Path.isPlain_ofText _) opens_output hnames hfree ?_
  rw [fileNames_output]
  decide

theorem readable {fragments : List GeneratedFragment}
    (hnames : ∀ f ∈ fragments, Reaches output f.hintName)
    (hnone : ∀ f ∈ fragments, tree.at? (outputPlace ++ [f.hintName]) = none) :
    Readable fragments output tree := by
  intro f hf bytes hbytes
  rw [readBytes_target opens_output (hnames f hf)] at hbytes
  exact absurd ((hnone f hf).symm.trans hbytes) (by simp)

theorem loads : place.loadSymbols (settings.resolvedSymbolsPath place.origin) = .ok [] := by
  have hentry : place.files.entry (settings.resolvedSymbolsPath place.origin) =
      .ok (.file (Text.Utf8.encode "\x7b\x7d")) :=
    entry_eq_file_iff.mpr ⟨_, locate_symbols, by decide⟩
  rw [Workplace.loadSymbols_of_entry hentry, Workplace.symbolsOf, textOf_encode]
  rfl

/-- Without types nothing but the input actions has a fragment. -/
theorem hintName_of_mem {p : Project} {config : Generation.Config} {snapshots : List Snapshot}
    (h : p.Holds config (.fed config snapshots [])) {f : GeneratedFragment}
    (hf : f ∈ p.candidates config) : f.hintName = Fragment.inputActionHintName := by
  have hnodup : (Table.keys (Generator.Supplies.fed config snapshots []).symbols).Nodup :=
    List.nodup_nil
  have hclass (key : String) (cls : ScannedClass) : (key, cls) ∉ p.scannedClasses.items := by
    intro hmem
    obtain ⟨-, hitem⟩ := Graph.Listing.mem_items.mp hmem
    rw [h.scannedClasses_item hnodup] at hitem
    obtain ⟨t, ht, -⟩ := Generator.Supplies.exists_type_of_scanned hitem
    cases ht
  have hcandidate {name : String} {r : SingletonRecord}
      (hr : (Generator.Supplies.fed config snapshots []).Candidate name r) : False := by
    obtain ⟨key, cls, hcls, -⟩ := hr
    obtain ⟨t, ht, -⟩ := Generator.Supplies.exists_type_of_scanned hcls
    cases ht
  simp only [Project.candidates, List.mem_append, Option.mem_toList,
    h.mem_singletonFragments hnodup, or_assoc] at hf
  rcases hf with hf | hf | hf | hf | hf | hf
  · obtain ⟨⟨slot, hslot, r, hr⟩, -⟩ := Fragment.renderRegistry_eq_some.mp hf
    rw [Project.eq_slot_of_mem_registry hslot] at hr
    exact (hcandidate ((h.slot_record hnodup).mp hr).1).elim
  · simp only [Project.inputActionFragment, Fragment.renderInputActions,
      Option.ite_none_left_eq_some, Option.some.injEq] at hf
    rw [← hf.2]
    rfl
  · obtain ⟨name, r, -, hsole, -⟩ := hf
    exact (hcandidate hsole.1).elim
  · obtain ⟨⟨key, g⟩, hmem, -⟩ := List.mem_map.mp hf
    obtain ⟨cls, hcls, -⟩ := Graph.Listing.mem_items_map.mp hmem
    exact absurd hcls (hclass key cls)
  · obtain ⟨⟨key, g⟩, hmem, -⟩ := List.mem_map.mp hf
    obtain ⟨cls, hcls, -⟩ := Graph.Listing.mem_items_map.mp hmem
    exact absurd hcls (hclass key cls)
  · obtain ⟨⟨key, g⟩, hmem, -⟩ := List.mem_map.mp hf
    obtain ⟨pair, hpair, -⟩ := Graph.Listing.mem_items_map.mp hmem
    obtain ⟨record, hrecord, -⟩ := Graph.Listing.mem_items_join.mp hpair
    obtain ⟨cls, hcls, -⟩ := Graph.Listing.mem_items_map.mp hrecord
    exact absurd hcls (hclass key cls)

/-- The generation comes to a result, all of whose fragments can be written. -/
theorem exists_result : ∃ result w₁, generateOnce settings place = (.ok result, w₁) ∧
    ∀ f ∈ result.fragments, f.hintName = Fragment.inputActionHintName := by
  have hkeys : (Table.keys ([] : SymbolTable)).Nodup := List.nodup_nil
  obtain ⟨p, value, hp, hrun, -⟩ := Generator.run_fed (place.newGenerator settings).config
    (place.assetsOf (place.newGenerator settings).config) hkeys
  exact ⟨_, _, generateOnce_of_run loads hrun, fun f hf =>
    hintName_of_mem hp (Generation.mem_of_mem_assemble hf)⟩

/-- No assets are looked for where the output goes. -/
theorem apart : Apart settings place outputPlace := by
  rintro name - (hlocate | ⟨rest, hplace, hinput⟩)
  · exact absurd (Except.ok.inj (locate_symbols.symm.trans hlocate)) (by simp [outputPlace])
  · obtain rfl : rest = [".godot", "godot_helper", name] := by
      have hroot : (assetRoot settings place).parts = ["game"] := by decide
      rw [hroot] at hplace
      simpa [outputPlace] using hplace.symm
    have hignored : AssetFiles.isIgnored [".godot", "godot_helper", name] = true := rfl
    exact absurd hinput.searched (by simp [hignored])

theorem ready : Ready fragments output tree where
  toWritable := writable (by decide) (by decide)
  toWellNamed := ⟨by decide, by decide⟩

end Arcade

theorem output_brought_in_line_arcade :
    (Ready Arcade.fragments Arcade.output Arcade.tree ∧
      Readable Arcade.fragments Arcade.output Arcade.tree ∧
      ∃ changes t' directory, sync Arcade.fragments Arcade.output Arcade.tree = (.ok changes, t') ∧
        Synced Arcade.fragments Arcade.output directory Arcade.tree changes t') ∧
    ∃ result w₁, generateOnce Arcade.settings Arcade.place = (.ok result, w₁) ∧
      Writable result.fragments Arcade.output Arcade.tree ∧
      Readable result.fragments Arcade.output Arcade.tree ∧
      ∃ w' changes directory,
        generate { name := .generate } Arcade.settings Arcade.place =
          (.ok { exitCode := codeOf result }, w') ∧
        Synced result.fragments Arcade.output directory Arcade.tree changes w'.files ∧
        ∃ w'', generate { name := .generate, check := true } Arcade.settings w' =
          (.ok { exitCode := recheckCode result }, w'') ∧ w''.files = w'.files := by
  have hreadable : Readable Arcade.fragments Arcade.output Arcade.tree :=
    Arcade.readable Arcade.ready.reaches (by decide)
  obtain ⟨result, w₁, hgenerate, hnames⟩ := Arcade.exists_result
  have hline := output_brought_in_line Arcade.fragments Arcade.output Arcade.tree
    { name := .generate } Arcade.settings Arcade.place w₁ result
  refine ⟨⟨Arcade.ready, hreadable, (hline.1 Arcade.ready).1 hreadable⟩, ?_⟩
  have hreach : ∀ f ∈ result.fragments, Reaches Arcade.output f.hintName := by
    intro f hf
    rw [hnames f hf]
    decide
  have hnone : ∀ f ∈ result.fragments, Arcade.tree.at? (Arcade.outputPlace ++ [f.hintName]) =
      none := by
    intro f hf
    rw [hnames f hf]
    decide
  have houtput : Arcade.settings.resolvedOutputDirectory Arcade.place.origin = Arcade.output := by
    decide
  have hwritable : Writable result.fragments Arcade.output Arcade.tree :=
    Arcade.writable hreach fun f hf => by simp [hnone f hf]
  have hreadable' := Arcade.readable hreach hnone
  refine ⟨result, w₁, hgenerate, hwritable, hreadable', ?_⟩
  obtain ⟨w', changes, directory, hgenerated, hsynced, hrecheck⟩ :=
    hline.2 rfl hgenerate (houtput ▸ hwritable) (houtput ▸ hreadable')
  rw [houtput] at hsynced
  refine ⟨w', changes, directory, hgenerated, hsynced, hrecheck ?_⟩
  obtain rfl : directory = Arcade.outputPlace := Except.ok.inj
    (hsynced.opens.locate.symm.trans (hsynced.keeps.locate Arcade.opens_output.locate))
  exact Arcade.apart

/-- A fragment with a carriage return is outdated right after it was written. -/
theorem return_stays_outdated : ∃ changes t', sync Arcade.fragments Arcade.output Arcade.tree =
    (.ok changes, t') ∧ outdated Arcade.fragments Arcade.output t' = .ok ["Score.g.cs"] := by
  obtain ⟨changes, t', _, hsync, hsynced⟩ :=
    Arcade.ready.exists_synced (Arcade.readable Arcade.ready.reaches (by decide))
  exact ⟨changes, t', hsync, hsynced.isOutdated⟩

end SceneCodegen.CommandLine
