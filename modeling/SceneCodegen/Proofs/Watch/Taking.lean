import SceneCodegen.Proofs.AssetFiles
import SceneCodegen.Proofs.Watch.Courses

/-!
# Changes that are taken in

A change says that a file is gone, or brings in what the file now says. Changes that report whatever
is new of a project's sources since these were last looked at, and bring in nothing else, make a
generator hold the sources as they are now.
-/
namespace SceneCodegen
open Graph

namespace FileTree
variable {t : FileTree} {place : Place} {bytes : List UInt8}

theorem Sound.walk_eq (ht : t.Sound) {e : FileEntry} (h : t.at? place = some e) :
    t.walk [] place = .ok place := by
  induction place using List.reverseRecOn generalizing e with
  | nil => rfl
  | append_singleton place name ih =>
    have hparent : t.at? place = some .directory := by simpa using ht.parent h
    have hname : IsName name := ht.isName h (by simp)
    have hstep : (name == "..") = false := by simpa using hname.notParent
    rw [walk_append, ih hparent]
    simp [Except.bind, walk, hparent, hstep, hname.short]

theorem locate_of_isAbsolute {p : Path} (hp : p.isAbsolute = true) (t : FileTree)
    (directory : Path) : t.locate p directory = t.locate p := by
  rw [locate, locate, Path.join, Path.join, if_pos hp, if_pos hp]

theorem entry_of_isAbsolute {p : Path} (hp : p.isAbsolute = true) (t : FileTree)
    (directory : Path) : t.entry p directory = t.entry p := by
  rw [entry, entry, locate_of_isAbsolute hp]

/-- A path without parent steps leads to the place that it names. -/
theorem at?_of_entry {p : Path} (hp : ".." ∉ p.parts)
    (h : t.entry p = .ok (.file bytes)) : t.at? p.parts = some (.file bytes) := by
  obtain ⟨place, hlocate, hat⟩ := entry_eq_file_iff.mp h
  obtain ⟨-, -, hwalk⟩ := locate_eq hlocate
  obtain rfl : place = [] ++ p.parts := eq_append_of_walk hp hwalk
  exact hat

/-- A file that is there is found, unless its path is too long to be looked at. -/
theorem isFile_ne_false (ht : t.Sound) {p : Path} (hp : p.isAbsolute = true)
    (h : t.at? p.parts = some (.file bytes)) (directory : Path) :
    t.isFile p directory ≠ .ok false := by
  have hnull : p.hasNull = false := by
    rw [Path.hasNull, List.any_eq_false]
    intro part hpart
    simpa using (ht.isName h hpart).notNull
  rw [isFile, probe, entry_of_isAbsolute hp]
  by_cases hlong : isPathTooLong p = true
  · have hentry : t.entry p = .error .nameTooLong := by
      rw [entry, locate, hnull, hlong]
      rfl
    simp [hentry]
  · have hlocate : t.locate p = .ok p.parts :=
      locate_of_walk hnull (by simpa using hlong) (ht.walk_eq h)
    rw [entry_eq_file_iff.mpr ⟨p.parts, hlocate, h⟩]
    simp

end FileTree

namespace WatchSession
open Workplace FileTree AssetFiles

variable {s : WatchSession} {w : Workplace} {c : Change} {e e' : Effects} {changes : List Change}
  {seen : FileTree}

/-- The change says of a file that it is gone, or the file is. -/
structure TakesOut (s : WatchSession) (w : Workplace) (c : Change) : Prop where
  notSymbols : s.changesSymbols c = false
  gone : c.kind = .deleted ∨ w.files.isFile (.ofText c.path) w.directory = .ok false

/-- The change brings in a file. -/
structure BringsIn (s : WatchSession) (w : Workplace) (c : Change) (bytes : List UInt8) : Prop where
  notSymbols : s.changesSymbols c = false
  kind : c.kind ≠ .deleted
  entry : w.files.entry (.ofText c.path) w.directory = .ok (.file bytes)

def snapshotOf (s : WatchSession) (w : Workplace) (c : Change) (bytes : List UInt8) : Snapshot :=
  AssetFiles.snapshot w.directory s.projectRoot (.ofText c.path) bytes

/-- What a change adds to the effects of those before it. -/
inductive Adds (s : WatchSession) (w : Workplace) (e : Effects) (c : Change) : Effects → Prop
  | symbols (h : s.changesSymbols c = true) : Adds s w e c { e with reloadsSymbols := true }
  | removed (h : TakesOut s w c) :
      Adds s w e c { e with removed := e.removed ++ [(Path.ofText c.path).text] }
  | snapshot {bytes : List UInt8} (h : BringsIn s w c bytes) :
      Adds s w e c { e with snapshots := e.snapshots ++ [s.snapshotOf w c bytes] }

theorem adds_of_addChange (h : s.addChange w e c = .ok e') : Adds s w e c e' := by
  unfold addChange at h
  dsimp only at h
  split at h
  · next hsymbols =>
    obtain rfl := Except.ok.inj h
    exact .symbols hsymbols
  · next hsymbols =>
    have hnot : s.changesSymbols c = false := by
      rw [changesSymbols]
      simpa using hsymbols
    split at h
    · next hkind =>
      obtain rfl := Except.ok.inj h
      exact .removed ⟨hnot, .inl (by simpa using hkind)⟩
    · next hkind =>
      cases hfile : w.files.isFile (Path.ofText c.path) w.directory with
      | error fault => simp [hfile, Except.mapError, bind, Except.bind] at h
      | ok found =>
        cases found with
        | false =>
          simp only [hfile, Except.mapError, bind, Except.bind, pure, Except.pure,
            Bool.not_false, if_true, Except.ok.injEq] at h
          exact h ▸ .removed ⟨hnot, .inr hfile⟩
        | true =>
          obtain ⟨bytes, hentry⟩ := exists_of_isFile hfile
          have hbytes : w.files.readBytes (Path.ofText c.path) w.directory = .ok bytes := by
            rw [readBytes, hentry]
          simp only [hfile, hbytes, Except.mapError, bind, Except.bind, pure, Except.pure,
            Bool.not_true, Bool.false_eq_true, if_false, Except.ok.injEq] at h
          exact h ▸ .snapshot ⟨hnot, by simpa using hkind, hentry⟩

theorem BringsIn.not_takesOut {bytes : List UInt8} (h : BringsIn s w c bytes) :
    ¬TakesOut s w c := by
  rintro ⟨-, hkind | hfile⟩
  · exact h.kind hkind
  · rw [isFile, probe, h.entry] at hfile
    cases hfile

/-- What changes come to: files that are gone, and snapshots of the others. -/
structure Sums (s : WatchSession) (w : Workplace) (changes : List Change) (e : Effects) : Prop where
  removed : ∀ p, p ∈ e.removed ↔ ∃ c ∈ changes, TakesOut s w c ∧ p = (Path.ofText c.path).text
  snapshots : ∀ t, t ∈ e.snapshots ↔
    ∃ c ∈ changes, ∃ bytes, BringsIn s w c bytes ∧ t = s.snapshotOf w c bytes
  all : ∀ c ∈ changes, s.changesSymbols c = false →
    TakesOut s w c ∨ ∃ bytes, BringsIn s w c bytes

theorem exists_mem_concat {α : Type} {p : α → Prop} {l : List α} {a : α} :
    (∃ x ∈ l ++ [a], p x) ↔ (∃ x ∈ l, p x) ∨ p a := by
  simp [or_and_right, exists_or]

theorem Sums.concat (h : Sums s w changes e) (hc : Adds s w e c e') :
    Sums s w (changes ++ [c]) e' := by
  have hall (hlast : s.changesSymbols c = false → TakesOut s w c ∨ ∃ bytes, BringsIn s w c bytes) :
      ∀ d ∈ changes ++ [c], s.changesSymbols d = false →
        TakesOut s w d ∨ ∃ bytes, BringsIn s w d bytes := by
    intro d hd
    rcases List.mem_append.mp hd with hd | hd
    · exact h.all d hd
    · rw [List.mem_singleton.mp hd]
      exact hlast
  cases hc with
  | symbols hsymbols =>
    have hout : ¬TakesOut s w c := fun hout => by simp [hout.notSymbols] at hsymbols
    have hin (bytes : List UInt8) : ¬BringsIn s w c bytes := fun hin => by
      simp [hin.notSymbols] at hsymbols
    refine ⟨fun p => ?_, fun t => ?_, hall fun hnot => by simp [hnot] at hsymbols⟩
    · rw [exists_mem_concat, h.removed]
      simp [hout]
    · rw [exists_mem_concat, h.snapshots]
      simp [hin]
  | removed hout =>
    have hin (bytes : List UInt8) : ¬BringsIn s w c bytes := fun hin => hin.not_takesOut hout
    refine ⟨fun p => ?_, fun t => ?_, hall fun _ => .inl hout⟩
    · rw [exists_mem_concat, List.mem_append, h.removed, List.mem_singleton]
      simp [hout]
    · rw [exists_mem_concat, h.snapshots]
      simp [hin]
  | @snapshot bytes hin =>
    refine ⟨fun p => ?_, fun t => ?_, hall fun _ => .inr ⟨bytes, hin⟩⟩
    · rw [exists_mem_concat, h.removed]
      simp [hin.not_takesOut]
    · rw [exists_mem_concat, List.mem_append, h.snapshots, List.mem_singleton]
      refine or_congr_right ⟨fun ht => ⟨bytes, hin, ht⟩, ?_⟩
      rintro ⟨bytes', hin', ht⟩
      obtain rfl : bytes' = bytes := by
        have hsame := hin'.entry.symm.trans hin.entry
        cases hsame
        rfl
      exact ht

theorem sums_of_foldlM (h : changes.foldlM (s.addChange w) {} = .ok e) : Sums s w changes e := by
  induction changes using List.reverseRecOn generalizing e with
  | nil =>
    obtain rfl := Except.ok.inj h
    exact ⟨by simp, by simp, nofun⟩
  | append_singleton changes c ih =>
    rw [List.foldlM_append] at h
    cases hfold : changes.foldlM (s.addChange w) {} with
    | error fault =>
      rw [hfold] at h
      cases h
    | ok e₁ =>
      rw [hfold] at h
      have hlast : (s.addChange w e₁ c >>= pure) = .ok e := h
      rw [bind_pure] at hlast
      exact (ih hfold).concat (adds_of_addChange hlast)

/-- A place below the root of the project where the scan reads a file, if one is there. -/
structure IsSource (s : WatchSession) (rest : Place) : Prop where
  input : IsInput s.generator.config.manifestName s.generator.config.sceneExtension
    s.projectRoot rest
  straight : ".." ∉ rest

def sourcePath (s : WatchSession) (rest : Place) : Path := pathOf s.projectRoot rest

/-- Changes report what is new of a project's files since they were last looked at: each source
that is new or says something new, each that is gone, and the symbol document. A source that is
there is never said to be gone and no more, and nothing but sources is brought in under the
names of assets. -/
structure Reports (s : WatchSession) (w : Workplace) (seen : FileTree) (changes : List Change) :
    Prop where
  there : ∀ rest bytes, s.IsSource rest →
    w.files.at? (s.sourcePath rest).parts = some (.file bytes) →
    (seen.at? (s.sourcePath rest).parts ≠ some (.file bytes) ∨
      ∃ c ∈ changes, Path.ofText c.path = s.sourcePath rest) →
    ∃ c ∈ changes, c.kind ≠ .deleted ∧ Path.ofText c.path = s.sourcePath rest
  gone : ∀ rest bytes, s.IsSource rest → seen.at? (s.sourcePath rest).parts = some (.file bytes) →
    (∀ bytes', w.files.at? (s.sourcePath rest).parts ≠ some (.file bytes')) →
    ∃ c ∈ changes, Path.ofText c.path = s.sourcePath rest
  symbols : w.files.entry s.symbolsPath ≠ seen.entry s.symbolsPath →
    ∃ c ∈ changes, s.changesSymbols c = true
  nothingElse : ∀ c ∈ changes, ∀ bytes, BringsIn s w c bytes →
    isAsset s.generator.config.manifestName s.generator.config.sceneExtension
      (Path.ofText c.path).text = true →
    ∃ rest, s.IsSource rest ∧ Path.ofText c.path = s.sourcePath rest

/-- Reports are told by the paths and the files. -/
theorem Reports.congr {s' : WatchSession} {w' : Workplace} (h : s.Reports w seen changes)
    (hpaths : SamePaths s s') (hfiles : SameFiles w w') : s'.Reports w' seen changes := by
  have hsource (rest : Place) : s'.IsSource rest ↔ s.IsSource rest := by
    constructor
    · rintro ⟨hinput, hstraight⟩
      rw [hpaths.config, hpaths.projectRoot] at hinput
      exact ⟨hinput, hstraight⟩
    · rintro ⟨hinput, hstraight⟩
      rw [← hpaths.config, ← hpaths.projectRoot] at hinput
      exact ⟨hinput, hstraight⟩
  have hpath : s'.sourcePath = s.sourcePath := by
    funext rest
    rw [sourcePath, sourcePath, hpaths.projectRoot]
  have hsymbols := hpaths.changesSymbols_eq
  refine ⟨fun rest bytes hrest => ?_, fun rest bytes hrest => ?_, ?_, fun c hc bytes hin => ?_⟩
  · rw [hpath, hfiles.files]
    exact h.there rest bytes ((hsource rest).mp hrest)
  · rw [hpath, hfiles.files]
    exact h.gone rest bytes ((hsource rest).mp hrest)
  · rw [hpaths.symbolsPath, hfiles.files, hsymbols]
    exact h.symbols
  · have hin' : BringsIn s w c bytes :=
      ⟨hsymbols ▸ hin.notSymbols, hin.kind,
        by rw [← hfiles.files, ← hfiles.directory]; exact hin.entry⟩
    rw [hpaths.config, hpath]
    intro hasset
    obtain ⟨rest, hrest, he⟩ := h.nothingElse c hc bytes hin' hasset
    exact ⟨rest, (hsource rest).mpr hrest, he⟩

/-- How a session is set up: its root is a plain absolute path, the one that its generator knows,
and its symbol document is none of the sources. -/
structure SetUp (s : WatchSession) : Prop where
  plain : s.projectRoot.IsPlain
  anchor : s.projectRoot.anchor = .root
  straight : ".." ∉ s.projectRoot.parts
  root : s.generator.config.projectRoot = s.projectRoot.text
  symbols : ∀ rest, s.IsSource rest → (s.sourcePath rest).text ≠ s.symbolsPath.text

/-- What the scan reads of a tree. -/
def sources (s : WatchSession) (w : Workplace) (t : FileTree) : List Snapshot :=
  { w with files := t }.assetsOf s.generator.config

section
variable (hs : s.SetUp)
include hs

theorem SetUp.ofText_root : Path.ofText s.generator.config.projectRoot = s.projectRoot := by
  rw [hs.root, Path.ofText_text hs.plain]

theorem SetUp.isAbsolute (rest : Place) : (s.sourcePath rest).isAbsolute = true := by
  rw [sourcePath, pathOf, Path.isAbsolute, Path.join, Path.isAbsolute]
  simp [hs.anchor]

omit hs in
theorem sourcePath_parts (s : WatchSession) (rest : Place) :
    (s.sourcePath rest).parts = s.projectRoot.parts ++ rest := rfl

theorem SetUp.straight_sourcePath {rest : Place} (h : s.IsSource rest) :
    ".." ∉ (s.sourcePath rest).parts := by
  rw [sourcePath_parts, List.mem_append, not_or]
  exact ⟨hs.straight, h.straight⟩

/-- The snapshots of the sources that are there. -/
theorem SetUp.mem_sources_iff {t : FileTree} (ht : t.Sound) {x : Snapshot} :
    x ∈ s.sources w t ↔ ∃ rest bytes, s.IsSource rest ∧
      t.at? (s.sourcePath rest).parts = some (.file bytes) ∧
      x = AssetFiles.snapshot w.directory s.projectRoot (s.sourcePath rest) bytes := by
  rw [sources, assetsOf, hs.ofText_root, mem_read_iff ht]
  refine exists_congr fun rest => exists_congr fun bytes => ?_
  constructor
  · rintro ⟨hinput, hat, hx⟩
    refine ⟨⟨hinput, fun hmem => ?_⟩, hat, hx⟩
    exact (isName_of_at? ht hat ".." hmem).notParent rfl
  · rintro ⟨hsource, hat, hx⟩
    exact ⟨hsource.input, hat, hx⟩

theorem SetUp.lastUnder_sources {t : FileTree} (ht : t.Sound) {path : String} {x : Snapshot} :
    Generator.lastUnder (s.sources w t) path = some x ↔ x ∈ s.sources w t ∧ x.path = path := by
  rw [sources, assetsOf, hs.ofText_root]
  exact lastUnder_read ht hs.plain

/-- The path of a source that is there is read back from its text. -/
theorem SetUp.isPlain_sourcePath {t : FileTree} (ht : t.Sound) {rest : Place} {bytes : List UInt8}
    (h : t.at? (s.sourcePath rest).parts = some (.file bytes)) : (s.sourcePath rest).IsPlain :=
  pathOf_isPlain hs.plain (isName_of_at? ht h)

/-- Sources are assets by name. -/
theorem SetUp.lastUnder_of_not_asset {t : FileTree} (ht : t.Sound) {path : String}
    (hpath : ¬isAsset s.generator.config.manifestName s.generator.config.sceneExtension path
      = true) :
    Generator.lastUnder (s.sources w t) path = none := by
  refine Option.eq_none_iff_forall_ne_some.mpr fun x hx => ?_
  obtain ⟨hmem, rfl⟩ := (hs.lastUnder_sources ht).mp hx
  obtain ⟨rest, bytes, hsource, hat, rfl⟩ := (hs.mem_sources_iff ht).mp hmem
  rw [path_snapshot (hs.isPlain_sourcePath ht hat)] at hpath
  exact hpath hsource.input.asset

/-- Trees that agree on the source under a path supply the same there. -/
theorem SetUp.lastUnder_congr {t t' : FileTree} (ht : t.Sound) (ht' : t'.Sound) {path : String}
    (hiff : ∀ rest bytes, s.IsSource rest → (s.sourcePath rest).text = path →
      (t.at? (s.sourcePath rest).parts = some (.file bytes) ↔
        t'.at? (s.sourcePath rest).parts = some (.file bytes))) :
    Generator.lastUnder (s.sources w t) path = Generator.lastUnder (s.sources w t') path := by
  refine Option.ext fun x => ?_
  rw [hs.lastUnder_sources ht, hs.lastUnder_sources ht', hs.mem_sources_iff ht,
    hs.mem_sources_iff ht']
  constructor
  · rintro ⟨⟨rest, bytes, hsource, hat, rfl⟩, hpath⟩
    have htext := hpath
    rw [path_snapshot (hs.isPlain_sourcePath ht hat)] at htext
    exact ⟨⟨rest, bytes, hsource, (hiff rest bytes hsource htext).mp hat, rfl⟩, hpath⟩
  · rintro ⟨⟨rest, bytes, hsource, hat, rfl⟩, hpath⟩
    have htext := hpath
    rw [path_snapshot (hs.isPlain_sourcePath ht' hat)] at htext
    exact ⟨⟨rest, bytes, hsource, (hiff rest bytes hsource htext).mpr hat, rfl⟩, hpath⟩

end

section
variable (hs : s.SetUp) (hfiles : w.files.Sound)
include hs

/-- A change of a source is none of the symbol document. -/
theorem SetUp.notSymbols {rest : Place} (hsource : s.IsSource rest)
    (hpath : Path.ofText c.path = s.sourcePath rest) : s.changesSymbols c = false := by
  rw [changesSymbols, hpath]
  simpa using hs.symbols rest hsource

/-- What a change brings in under the path of a source is what the source says. -/
theorem SetUp.at?_of_bringsIn {bytes : List UInt8} {rest : Place} (hsource : s.IsSource rest)
    (hpath : Path.ofText c.path = s.sourcePath rest) (h : BringsIn s w c bytes) :
    w.files.at? (s.sourcePath rest).parts = some (.file bytes) := by
  have hentry := h.entry
  rw [hpath, entry_of_isAbsolute (hs.isAbsolute rest)] at hentry
  exact at?_of_entry (hs.straight_sourcePath hsource) hentry

include hfiles

theorem SetUp.exists_bringsIn {e : Effects} (hsums : Sums s w changes e) {rest : Place}
    {bytes : List UInt8} (hsource : s.IsSource rest)
    (hat : w.files.at? (s.sourcePath rest).parts = some (.file bytes)) (hc : c ∈ changes)
    (hkind : c.kind ≠ .deleted) (hpath : Path.ofText c.path = s.sourcePath rest) :
    ∃ bytes', BringsIn s w c bytes' := by
  refine (hsums.all c hc (hs.notSymbols hsource hpath)).resolve_left ?_
  rintro ⟨-, hdeleted | hgone⟩
  · exact hkind hdeleted
  · rw [hpath] at hgone
    exact isFile_ne_false hfiles (hs.isAbsolute rest) hat w.directory hgone

end

def assetsAmong (s : WatchSession) (snapshots : List Snapshot) : List Snapshot :=
  snapshots.filter fun x =>
    isAsset s.generator.config.manifestName s.generator.config.sceneExtension x.path

theorem path_snapshotOf (s : WatchSession) (w : Workplace) (c : Change) (bytes : List UInt8) :
    (s.snapshotOf w c bytes).path = (Path.ofText c.path).text :=
  path_snapshot (Path.isPlain_ofText c.path) bytes

/-- The last snapshot that changes bring in under a path is that of each change with this path. -/
theorem Sums.lastUnder_eq (hsums : Sums s w changes e) (hc : c ∈ changes) {bytes : List UInt8}
    (hin : BringsIn s w c bytes)
    (hasset : isAsset s.generator.config.manifestName s.generator.config.sceneExtension
      (Path.ofText c.path).text = true) :
    Generator.lastUnder (s.assetsAmong e.snapshots) (Path.ofText c.path).text =
      some (s.snapshotOf w c bytes) := by
  have hunique : ∀ x ∈ s.assetsAmong e.snapshots, ∀ y ∈ s.assetsAmong e.snapshots,
      x.path = y.path → x = y := by
    intro x hx y hy hpath
    obtain ⟨c₁, -, bytes₁, hin₁, rfl⟩ := (hsums.snapshots x).mp (List.mem_filter.mp hx).1
    obtain ⟨c₂, -, bytes₂, hin₂, rfl⟩ := (hsums.snapshots y).mp (List.mem_filter.mp hy).1
    rw [path_snapshotOf, path_snapshotOf] at hpath
    have hsame := Path.text_injective (Path.isPlain_ofText _) (Path.isPlain_ofText _) hpath
    have hentry := hin₁.entry
    rw [hsame, hin₂.entry] at hentry
    cases hentry
    rw [snapshotOf, snapshotOf, hsame]
  refine (Generator.lastUnder_eq_some_iff hunique).mpr ⟨?_, path_snapshotOf s w c bytes⟩
  refine List.mem_filter.mpr ⟨(hsums.snapshots _).mpr ⟨c, hc, bytes, hin, rfl⟩, ?_⟩
  rw [path_snapshotOf]
  exact hasset

/-- Under a path for which no change brings in an asset there is no snapshot. -/
theorem Sums.lastUnder_eq_none (hsums : Sums s w changes e) {path : String}
    (hnone : ∀ c ∈ changes, ∀ bytes, BringsIn s w c bytes → (Path.ofText c.path).text ≠ path) :
    Generator.lastUnder (s.assetsAmong e.snapshots) path = none := by
  refine List.find?_eq_none.mpr fun x hx => ?_
  obtain ⟨c, hc, bytes, hin, rfl⟩ :=
    (hsums.snapshots x).mp (List.mem_filter.mp (List.mem_reverse.mp hx)).1
  rw [path_snapshotOf]
  simpa using hnone c hc bytes hin

theorem Sums.removed_iff (hsums : Sums s w changes e) (path : String) :
    (e.removed.map fun p => (Path.ofText p).text).contains path = true ↔
      ∃ c ∈ changes, TakesOut s w c ∧ (Path.ofText c.path).text = path := by
  rw [List.contains_iff_mem, List.mem_map]
  constructor
  · rintro ⟨p, hp, rfl⟩
    obtain ⟨c, hc, hout, rfl⟩ := (hsums.removed p).mp hp
    exact ⟨c, hc, hout, by rw [Path.ofText_text (Path.isPlain_ofText _)]⟩
  · rintro ⟨c, hc, hout, rfl⟩
    exact ⟨_, (hsums.removed _).mpr ⟨c, hc, hout, rfl⟩, by
      rw [Path.ofText_text (Path.isPlain_ofText _)]⟩

section
variable (hs : s.SetUp) (hfiles : w.files.Sound) (hseen : seen.Sound)
  (hsums : Sums s w changes e) (hreports : Reports s w seen changes)
include hs hfiles hseen hsums hreports

omit hfiles hseen in
/-- A source that no change brings in or takes out is as it was seen. -/
theorem SetUp.source_iff {rest : Place} (hsource : s.IsSource rest)
    (hin : ∀ c ∈ changes, ∀ bytes, BringsIn s w c bytes → Path.ofText c.path ≠ s.sourcePath rest)
    (hout : ∀ c ∈ changes, TakesOut s w c → Path.ofText c.path ≠ s.sourcePath rest)
    (bytes : List UInt8) : seen.at? (s.sourcePath rest).parts = some (.file bytes) ↔
      w.files.at? (s.sourcePath rest).parts = some (.file bytes) := by
  have hno : ∀ c ∈ changes, Path.ofText c.path ≠ s.sourcePath rest := by
    intro c hc hpath
    rcases hsums.all c hc (hs.notSymbols hsource hpath) with hout' | ⟨bytes', hin'⟩
    · exact hout c hc hout' hpath
    · exact hin c hc bytes' hin' hpath
  have hthere {bytes' : List UInt8}
      (hat : w.files.at? (s.sourcePath rest).parts = some (.file bytes')) :
      seen.at? (s.sourcePath rest).parts = some (.file bytes') := by
    by_contra hnew
    obtain ⟨c, hc, -, hpath⟩ := hreports.there rest bytes' hsource hat (.inl hnew)
    exact hno c hc hpath
  refine ⟨fun hat => ?_, hthere⟩
  by_contra hchanged
  by_cases hgone : ∀ bytes', w.files.at? (s.sourcePath rest).parts ≠ some (.file bytes')
  · obtain ⟨c, hc, hpath⟩ := hreports.gone rest bytes hsource hat hgone
    exact hno c hc hpath
  · simp only [not_forall, not_not] at hgone
    obtain ⟨bytes', hat'⟩ := hgone
    obtain rfl : bytes' = bytes := by
      have hsame := (hthere hat').symm.trans hat
      cases hsame
      rfl
    exact hchanged hat'

/-- Changes that report whatever is new make what was held of the sources seen what is held of
those that are there. -/
theorem SetUp.assets_after {given : Generator.Supplies}
    (hgiven : ∀ path, given.asset path = Generator.lastUnder (s.sources w seen) path)
    (path : String) :
    (given.after s.generator.config (.updateAssets (s.assetsAmong e.snapshots) e.removed)).asset
      path = Generator.lastUnder (s.sources w w.files) path := by
  simp only [Generator.Supplies.after, Generator.Supplies.assets, hgiven]
  by_cases hasset : isAsset s.generator.config.manifestName s.generator.config.sceneExtension path
      = true
  · rw [if_pos hasset]
    by_cases hin : ∃ c ∈ changes, ∃ bytes, BringsIn s w c bytes ∧ (Path.ofText c.path).text = path
    · obtain ⟨c, hc, bytes, hin, rfl⟩ := hin
      obtain ⟨rest, hsource, hpath⟩ := hreports.nothingElse c hc bytes hin hasset
      have hat := hs.at?_of_bringsIn hsource hpath hin
      rw [hsums.lastUnder_eq hc hin hasset, Option.some_or]
      refine ((hs.lastUnder_sources hfiles).mpr ⟨?_, path_snapshotOf s w c bytes⟩).symm
      exact (hs.mem_sources_iff hfiles).mpr ⟨rest, bytes, hsource, hat, by rw [snapshotOf, hpath]⟩
    · have hnone : ∀ c ∈ changes, ∀ bytes, BringsIn s w c bytes →
          (Path.ofText c.path).text ≠ path := fun c hc bytes hbrings hpath =>
        hin ⟨c, hc, bytes, hbrings, hpath⟩
      rw [hsums.lastUnder_eq_none hnone, Option.none_or]
      by_cases hremoved : (e.removed.map fun p => (Path.ofText p).text).contains path = true
      · -- A source that is taken out and is there would have been brought in as well.
        rw [if_pos hremoved]
        obtain ⟨c, hc, hout, rfl⟩ := (hsums.removed_iff _).mp hremoved
        refine (Option.eq_none_iff_forall_ne_some.mpr fun x hx => ?_).symm
        obtain ⟨hx, hpath⟩ := (hs.lastUnder_sources hfiles).mp hx
        obtain ⟨rest, bytes, hsource, hat, rfl⟩ := (hs.mem_sources_iff hfiles).mp hx
        have hplain := hs.isPlain_sourcePath hfiles hat
        rw [path_snapshot hplain] at hpath
        have hsame := Path.text_injective hplain (Path.isPlain_ofText c.path) hpath
        obtain ⟨c', hc', hkind, hpath'⟩ :=
          hreports.there rest bytes hsource hat (.inr ⟨c, hc, hsame.symm⟩)
        obtain ⟨bytes', hin'⟩ := hs.exists_bringsIn hfiles hsums hsource hat hc' hkind hpath'
        exact hnone c' hc' bytes' hin' (by rw [hpath', hsame])
      · rw [if_neg hremoved]
        refine hs.lastUnder_congr hseen hfiles fun rest bytes hsource hpath => ?_
        exact hs.source_iff hsums hreports hsource
          (fun c hc bytes' hbrings hsame => hnone c hc bytes' hbrings (by rw [hsame, hpath]))
          (fun c hc hout hsame =>
            hremoved ((hsums.removed_iff path).mpr ⟨c, hc, hout, by rw [hsame, hpath]⟩)) bytes
  · rw [if_neg hasset, hs.lastUnder_of_not_asset hfiles hasset]

end

end WatchSession
end SceneCodegen
