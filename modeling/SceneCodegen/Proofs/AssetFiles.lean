import SceneCodegen.AssetFiles
import SceneCodegen.Proofs.FileTree.Making
import SceneCodegen.Proofs.Generation.Feeding

/-!
# What is read of a project

The assets of a project are the files below its root, outside the ignored directories, that are
manifests or scenes by name. Each is read under its own path, so trees that agree on these files
read alike, and a generator fed with either runs alike.
-/
namespace SceneCodegen.AssetFiles
open FileTree

variable {m e : String} {root : Path} {t t' : FileTree}

def pathOf (root : Path) (rest : Place) : Path := root.join ⟨.relative, rest⟩

/-- A file below the root whose place makes it an asset. -/
structure IsInput (m e : String) (root : Path) (rest : Place) : Prop where
  below : rest ≠ []
  searched : isIgnored rest = false
  asset : isAsset m e (pathOf root rest).text = true

theorem mem_find_iff (ht : t.Sound) {path : Path} {bytes : List UInt8} :
    (path, bytes) ∈ find m e root t ↔ ∃ rest, IsInput m e root rest ∧ path = pathOf root rest ∧
      t.at? (root.parts ++ rest) = some (.file bytes) := by
  simp only [find, List.mem_filter, List.mem_map, List.mem_mergeSort, Prod.exists, Prod.mk.injEq,
    Bool.not_eq_true', mem_filesBelow_iff ht]
  constructor
  · rintro ⟨⟨rest, bytes', ⟨⟨hne, hat⟩, hsearched⟩, rfl, rfl⟩, hasset⟩
    exact ⟨rest, ⟨hne, hsearched, hasset⟩, rfl, hat⟩
  · rintro ⟨rest, h, rfl, hat⟩
    exact ⟨⟨rest, bytes, ⟨⟨h.below, hat⟩, h.searched⟩, rfl, rfl⟩, h.asset⟩

theorem pathOf_isPlain (hroot : root.IsPlain) {rest : Place} (hrest : ∀ name ∈ rest, IsName name) :
    (pathOf root rest).IsPlain := by
  intro part hpart
  obtain hpart | hpart := List.mem_append.mp hpart
  · exact hroot part hpart
  · exact (hrest part hpart).toIsPart

/-- A snapshot goes under the path of its file. -/
theorem path_snapshot {directory path : Path} (h : path.IsPlain) (bytes : List UInt8) :
    (snapshot directory root path bytes).path = path.text := by
  show (Path.ofText path.text).text = path.text
  rw [Path.ofText_text h]

theorem isName_of_at? (ht : t.Sound) {base rest : Place} {bytes : List UInt8}
    (h : t.at? (base ++ rest) = some (.file bytes)) : ∀ name ∈ rest, IsName name :=
  fun _ hname => ht.isName h (List.mem_append_right base hname)

/-- The snapshot of each asset, under its path. -/
theorem mem_read_iff (ht : t.Sound) {directory : Path} {s : Snapshot} :
    s ∈ read m e directory root t ↔ ∃ rest bytes, IsInput m e root rest ∧
      t.at? (root.parts ++ rest) = some (.file bytes) ∧
        s = snapshot directory root (pathOf root rest) bytes := by
  simp only [read, List.mem_map, Prod.exists, mem_find_iff ht]
  constructor
  · rintro ⟨_, bytes, ⟨rest, h, rfl, hat⟩, rfl⟩
    exact ⟨rest, bytes, h, hat, rfl⟩
  · rintro ⟨rest, bytes, h, hat, rfl⟩
    exact ⟨_, bytes, ⟨rest, h, rfl, hat⟩, rfl⟩

/-- One snapshot for each path. -/
theorem read_unique (ht : t.Sound) (hroot : root.IsPlain) {directory : Path} {s s' : Snapshot}
    (h : s ∈ read m e directory root t) (h' : s' ∈ read m e directory root t)
    (hpath : s.path = s'.path) : s = s' := by
  obtain ⟨rest, bytes, -, hat, rfl⟩ := (mem_read_iff ht).mp h
  obtain ⟨rest', bytes', -, hat', rfl⟩ := (mem_read_iff ht).mp h'
  have hplain := pathOf_isPlain hroot (isName_of_at? ht hat)
  have hplain' := pathOf_isPlain hroot (isName_of_at? ht hat')
  rw [path_snapshot hplain, path_snapshot hplain'] at hpath
  obtain rfl : rest = rest' := by
    have hparts := congrArg Path.parts (Path.text_injective hplain hplain' hpath)
    exact List.append_cancel_left hparts
  rw [hat] at hat'
  cases hat'
  rfl

end SceneCodegen.AssetFiles

namespace SceneCodegen.Generator
variable {snapshots snapshots' : List Snapshot}

theorem mem_of_lastUnder_eq {path : String} {s : Snapshot}
    (h : lastUnder snapshots path = some s) : s ∈ snapshots ∧ s.path = path :=
  ⟨mem_of_lastUnder h, by simpa using List.find?_some h⟩

/-- Where each path has one snapshot, that is the last one. -/
theorem lastUnder_eq_some_iff
    (hunique : ∀ s ∈ snapshots, ∀ s' ∈ snapshots, s.path = s'.path → s = s') {path : String}
    {s : Snapshot} : lastUnder snapshots path = some s ↔ s ∈ snapshots ∧ s.path = path := by
  refine ⟨mem_of_lastUnder_eq, fun ⟨hs, hpath⟩ => ?_⟩
  cases hlast : lastUnder snapshots path with
  | none =>
    have hnot := List.find?_eq_none.mp hlast s (List.mem_reverse.mpr hs)
    simp [hpath] at hnot
  | some s' =>
    obtain ⟨hs', hpath'⟩ := mem_of_lastUnder_eq hlast
    rw [hunique s' hs' s hs (hpath'.trans hpath.symm)]

end SceneCodegen.Generator

namespace SceneCodegen.AssetFiles
open Generator
variable {m e : String} {root : Path} {t t' : FileTree}

/-- What is supplied of a project under a path. -/
theorem lastUnder_read (ht : t.Sound) (hroot : root.IsPlain) {directory : Path} {path : String}
    {s : Snapshot} : lastUnder (read m e directory root t) path = some s ↔
      s ∈ read m e directory root t ∧ s.path = path :=
  lastUnder_eq_some_iff fun _ h _ h' => read_unique ht hroot h h'

/-- Trees with the same assets supply the same. -/
theorem lastUnder_read_congr (ht : t.Sound) (ht' : t'.Sound) (hroot : root.IsPlain)
    (hsame : ∀ rest bytes, IsInput m e root rest →
      (t.at? (root.parts ++ rest) = some (.file bytes) ↔
        t'.at? (root.parts ++ rest) = some (.file bytes)))
    (directory : Path) (path : String) :
    lastUnder (read m e directory root t) path = lastUnder (read m e directory root t') path := by
  refine Option.ext fun s => ?_
  rw [lastUnder_read ht hroot, lastUnder_read ht' hroot,
    mem_read_iff ht, mem_read_iff ht']
  refine and_congr_left' (exists_congr fun rest => exists_congr fun bytes => ?_)
  exact and_congr_right fun h => and_congr_left' (hsame rest bytes h)

end SceneCodegen.AssetFiles
