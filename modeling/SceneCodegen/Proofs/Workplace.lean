import SceneCodegen.Proofs.AssetFiles
import SceneCodegen.Proofs.Symbol.Merging
import SceneCodegen.Workplace

/-!
# Loading projects

What is loaded of a project hangs on its assets and on the symbol document alone: where these are
the same, a new generator runs alike.
-/
namespace SceneCodegen

namespace FileTree
variable {t t' : FileTree} {p : Path} {bytes : List UInt8}

/-- A path that leads to a file, with the place of the file. -/
theorem entry_eq_file_iff : t.entry p = .ok (.file bytes) ↔
    ∃ place, t.locate p = .ok place ∧ t.at? place = some (.file bytes) := by
  unfold entry
  cases hlocate : t.locate p with
  | error cause => simp [bind, Except.bind]
  | ok place =>
    simp only [bind, Except.bind, Except.ok.injEq, exists_eq_left']
    cases t.at? place <;> simp

theorem isFile_of_entry (h : t.entry p = .ok (.file bytes)) : t.isFile p = .ok true := by
  rw [isFile, probe, h]

theorem exists_of_isFile {directory : Path} (h : t.isFile p directory = .ok true) :
    ∃ bytes, t.entry p directory = .ok (.file bytes) := by
  unfold isFile probe at h
  split at h
  · next e he =>
    cases e with
    | file bytes => exact ⟨bytes, he⟩
    | directory => cases h
  · cases h
  · cases h

theorem readText_of_entry (h : t.entry p = .ok (.file bytes)) : t.readText p = textOf bytes := by
  rw [readText, readBytes, h]
  rfl

end FileTree

namespace Workplace
variable {w w' : Workplace} {path : Path} {symbols : SymbolTable}

/-- The types of a document's bytes. -/
def symbolsOf (read : SymbolTable.Reader) (path : Path) (bytes : List UInt8) :
    Except Fault SymbolTable := do
  let text ← (FileTree.textOf bytes).mapError .file
  (SymbolTable.ofText read path.text text).mapError .symbols

theorem loadSymbols_of_entry {bytes : List UInt8} (h : w.files.entry path = .ok (.file bytes)) :
    w.loadSymbols path = symbolsOf w.libraries.symbols path bytes := by
  rw [loadSymbols, FileTree.isFile_of_entry h, FileTree.readText_of_entry h]
  rfl

theorem exists_of_loadSymbols (h : w.loadSymbols path = .ok symbols) :
    ∃ bytes, w.files.entry path = .ok (.file bytes) ∧
      symbolsOf w.libraries.symbols path bytes = .ok symbols := by
  cases hfile : w.files.isFile path with
  | error fault =>
    rw [loadSymbols, hfile] at h
    cases h
  | ok found =>
    cases found with
    | false =>
      rw [loadSymbols, hfile] at h
      cases h
    | true =>
      obtain ⟨bytes, hentry⟩ := FileTree.exists_of_isFile hfile
      exact ⟨bytes, hentry, loadSymbols_of_entry hentry ▸ h⟩

theorem keyed_symbolsOf {read : SymbolTable.Reader} {bytes : List UInt8}
    (h : symbolsOf read path bytes = .ok symbols) : symbols.Keyed := by
  unfold symbolsOf at h
  cases htext : FileTree.textOf bytes with
  | error fault => simp [htext, Except.mapError, bind, Except.bind] at h
  | ok text =>
    simp only [htext, Except.mapError, bind, Except.bind] at h
    cases htable : SymbolTable.ofText read path.text text with
    | error e => simp [htable] at h
    | ok table =>
      simp only [htable, Except.ok.injEq] at h
      subst h
      unfold SymbolTable.ofText at htable
      cases hparse : Json.parse text with
      | error e => simp [hparse, Except.mapError, bind, Except.bind] at htable
      | ok document =>
        simp only [hparse, Except.mapError, bind, Except.bind] at htable
        exact SymbolTable.keyed_ofDocument htable

theorem keyed_loadSymbols (h : w.loadSymbols path = .ok symbols) : symbols.Keyed := by
  obtain ⟨bytes, -, hsymbols⟩ := exists_of_loadSymbols h
  exact keyed_symbolsOf hsymbols

/-- Where the directories stand and the document is the same, so are its types. -/
theorem loadSymbols_keep (h : w.loadSymbols path = .ok symbols)
    (hlibraries : w'.libraries = w.libraries) (hkeeps : w.files.Keeps w'.files)
    (hsame : ∀ place bytes, w.files.locate path = .ok place →
      w.files.at? place = some (.file bytes) → w'.files.at? place = some (.file bytes)) :
    w'.loadSymbols path = .ok symbols := by
  obtain ⟨bytes, hentry, hsymbols⟩ := exists_of_loadSymbols h
  obtain ⟨place, hlocate, hat⟩ := FileTree.entry_eq_file_iff.mp hentry
  have hentry' : w'.files.entry path = .ok (.file bytes) :=
    FileTree.entry_eq_file_iff.mpr ⟨place, hkeeps.locate hlocate, hsame place bytes hlocate hat⟩
  rw [loadSymbols_of_entry hentry', hlibraries, hsymbols]

/-- The assets that a workplace holds for a generation. -/
def assetsOf (c : Generation.Config) (w : Workplace) : List Snapshot :=
  AssetFiles.read c.manifestName c.sceneExtension w.directory (.ofText c.projectRoot) w.files

/-- A new generator is fed with what it loads. -/
theorem load_new (s : Settings) (h : w.loadSymbols path = .ok symbols) :
    w.load path (w.newGenerator s) = (.ok (), Generator.fed (w.newGenerator s).config
      (w.assetsOf (w.newGenerator s).config) symbols) := by
  rw [load, h]
  rfl

theorem load_new_error (s : Settings) {fault : Fault} (h : w.loadSymbols path = .error fault) :
    (w.load path (w.newGenerator s)).1 = .error fault := by
  rw [load, h]

end Workplace
end SceneCodegen
