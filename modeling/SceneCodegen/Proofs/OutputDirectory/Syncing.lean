import SceneCodegen.Proofs.OutputDirectory.Steps

/-!
# Bringing an output directory in line

What is written is what was outdated before and what is removed is what was stale. Afterwards the
generated files are those of the fragments, all other files are as they were, and the only fragments
that still count as outdated are those with a carriage return in their text, since no file is read
back with one.
-/
namespace SceneCodegen.OutputDirectory
open FileTree

variable {fragments : List GeneratedFragment} {directory : Path} {t t' : FileTree} {place : Place}

/-- Nothing keeps the files of some fragments from being written below a path: the directory is
there or can be made, it holds only files, and no name or path is longer than the system allows. -/
structure Writable (fragments : List GeneratedFragment) (directory : Path) (t : FileTree) :
    Prop where
  sound : t.Sound
  plain : directory.IsPlain
  made : ∃ t', t.ensureDirectories directory = .ok t'
  climbs : Climbs directory t
  reaches : ∀ f ∈ fragments, Reaches directory f.hintName
  free : ∀ f ∈ fragments, t.entry (target directory f.hintName) ≠ .ok .directory
  removable : ∀ name ∈ t.fileNames directory, Text.hasSuffix generatedSuffix name = true →
    Reaches directory name

/-- Fragments under different names, each that of a generated file. -/
structure WellNamed (fragments : List GeneratedFragment) : Prop where
  distinct : (fragments.map (·.hintName)).Nodup
  generated : ∀ f ∈ fragments, Text.hasSuffix generatedSuffix f.hintName = true

/-- Well-named fragments that can be written. -/
structure Ready (fragments : List GeneratedFragment) (directory : Path) (t : FileTree) : Prop
    extends Writable fragments directory t, WellNamed fragments

/-- The files that stand in place of fragments are texts. -/
def Readable (fragments : List GeneratedFragment) (directory : Path) (t : FileTree) : Prop :=
  ∀ f ∈ fragments, ∀ bytes, t.readBytes (target directory f.hintName) = .ok bytes → IsText bytes

/-- Where a directory is to be made, nothing is yet. -/
structure Absent (directory : Path) (t : FileTree) (place : Place) : Prop where
  nothing : ∀ name, t.at? (place ++ [name]) = none
  noDirectory : t.isDirectory directory = .ok false
  noFile : ∀ name, Reaches directory name → t.isFile (target directory name) = .ok false

theorem probe_of_missing {test : FileEntry → Bool} {p : Path}
    (h : t.entry p = .error .notFound) : t.probe test p = .ok false := by
  rw [probe, h]

theorem entry_of_locate {p : Path} (h : t.locate p = .error .notFound) :
    t.entry p = .error .notFound := by
  rw [entry, h]
  rfl

theorem absent_of_not_opens (ht : t.Sound) (hclimbs : Climbs directory t) (hgrown : Grown t t')
    (hopens : Opens directory t' place) (hnot : ¬Opens directory t place) :
    Absent directory t place := by
  obtain ⟨hnull, hshort, hwalk'⟩ := locate_eq hopens.locate
  rcases hgrown.locate hopens.locate with hlocate | hlocate
  · have hnone : t.at? place = none := by
      rcases hgrown place with he | ⟨hnone, -⟩
      · exact absurd ⟨hlocate, he.symm.trans hopens.isDirectory⟩ hnot
      · exact hnone
    obtain ⟨-, -, hwalk⟩ := locate_eq hlocate
    refine ⟨fun name => ht.at?_append_eq_none (by simp [hnone]) (by simp), ?_, fun name hname => ?_⟩
    · refine probe_of_missing ?_
      simp [entry, hlocate, hnone, bind, Except.bind]
    · refine probe_of_missing (entry_of_locate ?_)
      rw [target, locate_join t hname hnull, hwalk]
      simp [Except.bind, walk, hnone]
  · have hdown : ".." ∉ directory.parts := by
      intro hmem
      obtain ⟨place', hplace'⟩ := hclimbs hmem
      rw [hlocate] at hplace'
      cases hplace'
    have hwalk : t.walk [] directory.parts = .error .notFound := by
      rw [← locate_of_walk hnull hshort rfl, hlocate]
    obtain rfl : place = directory.parts := eq_append_of_walk hdown hwalk'
    refine ⟨fun name => ?_, probe_of_missing (entry_of_locate hlocate), fun name hname => ?_⟩
    · simpa using at?_eq_none_of_walk ht hdown hwalk [name]
    · refine probe_of_missing (entry_of_locate ?_)
      rw [target, locate_join t hname hnull, hwalk]
      rfl

/-- A directory as it is once it was made, if need be. -/
structure Begun (directory : Path) (t t' : FileTree) (place : Place) : Prop where
  sound : t'.Sound
  opens : Opens directory t' place
  grown : Grown t t'
  same : ∀ name, t'.at? (place ++ [name]) = t.at? (place ++ [name])
  before : Opens directory t place ∨ Absent directory t place

theorem Ready.exists_begun (h : Ready fragments directory t) :
    ∃ t' place, t.ensureDirectories directory = .ok t' ∧ Begun directory t t' place := by
  obtain ⟨t', hmake⟩ := h.made
  have hmade := made_of_ensureDirectories h.sound h.plain hmake
  obtain ⟨place, hopens⟩ := hmade.opens
  refine ⟨t', place, hmake, hmade.sound, hopens, hmade.grown,
    hmade.at?_append h.climbs hopens, ?_⟩
  by_cases hopen : Opens directory t place
  · exact .inl hopen
  · exact .inr (absent_of_not_opens h.sound h.climbs hmade.grown hopens hopen)

/-- What holds of the files in a directory holds before and after it is made. -/
theorem Begun.isBehind_eq (h : Begun directory t t' place) (f : GeneratedFragment) :
    isBehind place t' f = isBehind place t f := by
  rw [isBehind, isBehind, h.same]

/-- All files that stand in place of fragments are texts. -/
def Texts (fragments : List GeneratedFragment) (place : Place) (t : FileTree) : Prop :=
  ∀ f ∈ fragments, ∀ bytes, t.at? (place ++ [f.hintName]) = some (.file bytes) → IsText bytes

theorem readBytes_target (hopens : Opens directory t place) {name : String}
    (hname : Reaches directory name) {bytes : List UInt8} :
    t.readBytes (target directory name) = .ok bytes ↔
      t.at? (place ++ [name]) = some (.file bytes) := by
  rw [target, readBytes, hopens.entry_join hname]
  cases hat : t.at? (place ++ [name]) with
  | none => simp
  | some e => cases e <;> simp

theorem Begun.readable_iff (h : Begun directory t t' place)
    (hreach : ∀ f ∈ fragments, Reaches directory f.hintName) :
    Readable fragments directory t ↔ Texts fragments place t := by
  rcases h.before with hopens | habsent
  · refine forall₂_congr fun f hf => forall_congr' fun bytes => ?_
    rw [readBytes_target hopens (hreach f hf)]
  · refine iff_of_true (fun f hf bytes hbytes => ?_) fun f hf bytes hat => ?_
    · have hfile := habsent.noFile f.hintName (hreach f hf)
      unfold readBytes at hbytes
      unfold isFile probe at hfile
      split at hbytes
      · next hentry =>
        rw [hentry] at hfile
        cases hfile
      · cases hbytes
      · cases hbytes
    · rw [habsent.nothing] at hat
      cases hat

theorem Begun.outdated_eq (h : Begun directory t t' place)
    (hreach : ∀ f ∈ fragments, Reaches directory f.hintName) (htexts : Texts fragments place t) :
    outdated fragments directory t =
      .ok ((fragments.filter (isBehind place t)).map (·.hintName)) := by
  rcases h.before with hopens | habsent
  · exact OutputDirectory.outdated_eq hopens hreach htexts
  · have hall (f : GeneratedFragment) (hf : f ∈ fragments) :
        isOutdated directory t f = .ok (isBehind place t f) := by
      simp only [isOutdated, habsent.noFile f.hintName (hreach f hf), isBehind, habsent.nothing]
      rfl
    rw [outdated, filterM_eq_ok hall]
    rfl

theorem Begun.exists_stale (fragments : List GeneratedFragment)
    (h : Begun directory t t' place) (ht : t.Sound) :
    ∃ names, stale fragments directory t = .ok names ∧
      Names (IsStale fragments place t) names := by
  rcases h.before with hopens | habsent
  · exact OutputDirectory.exists_stale fragments ht hopens
  · refine ⟨[], ?_, names_nil fun name hname => ?_⟩
    · rw [stale, habsent.noDirectory]
      rfl
    · obtain ⟨-, ⟨bytes, hat⟩, -⟩ := hname
      rw [habsent.nothing] at hat
      cases hat

/-- The names of the fragments that no file is ever read back as. -/
def returning (fragments : List GeneratedFragment) : List String :=
  (fragments.filter fun f => f.text.toList.contains '\r').map (·.hintName)

/-- What bringing a directory in line with fragments leaves. -/
structure Synced (fragments : List GeneratedFragment) (directory : Path) (place : Place)
    (t : FileTree) (changes : Changes) (t' : FileTree) : Prop where
  opens : Opens directory t' place
  sound : t'.Sound
  keeps : Keeps t t'
  wasOutdated : outdated fragments directory t = .ok changes.written
  wasStale : stale fragments directory t = .ok changes.removed
  suffixed : ∀ name ∈ changes.written ++ changes.removed,
    Text.hasSuffix generatedSuffix name = true
  generated : ∀ name, Text.hasSuffix generatedSuffix name = true →
    (name ∈ t'.fileNames directory ↔ ∃ f ∈ fragments, f.hintName = name)
  written : ∀ f ∈ fragments, f.hintName ∈ changes.written →
    t'.at? (place ++ [f.hintName]) = some (.file (Text.Utf8.encode f.text))
  upToDate : ∀ f ∈ fragments, f.hintName ∉ changes.written →
    ∃ bytes, t.at? (place ++ [f.hintName]) = some (.file bytes) ∧
      t'.at? (place ++ [f.hintName]) = some (.file bytes) ∧ FileTree.textOf bytes = .ok f.text
  others : ∀ q bytes, (∀ name ∈ changes.written ++ changes.removed, q ≠ place ++ [name]) →
    (t'.at? q = some (.file bytes) ↔ t.at? q = some (.file bytes))
  isOutdated : outdated fragments directory t' = .ok (returning fragments)
  isStale : stale fragments directory t' = .ok []
  again : sync fragments directory t' = (.ok ⟨returning fragments, []⟩, t')

theorem textOf_of_mem (hdistinct : (fragments.map (·.hintName)).Nodup) {f : GeneratedFragment}
    (hf : f ∈ fragments) : textOf fragments f.hintName = f.text := by
  have hfind : fragments.find? (·.hintName == f.hintName) = some f := by
    induction fragments with
    | nil => cases hf
    | cons g rest ih =>
      obtain ⟨hg, hdistinct⟩ := List.nodup_cons.mp hdistinct
      obtain rfl | hf := List.mem_cons.mp hf
      · simp
      · have hne : g.hintName ≠ f.hintName := fun he => hg (List.mem_map.mpr ⟨f, hf, he.symm⟩)
        simpa [hne] using ih hdistinct hf
  simp [textOf, hfind]

/-- The names of the fragments that pass a test. -/
theorem mem_hintNames_filter (hdistinct : (fragments.map (·.hintName)).Nodup)
    {p : GeneratedFragment → Bool} {f : GeneratedFragment} (hf : f ∈ fragments) :
    f.hintName ∈ (fragments.filter p).map (·.hintName) ↔ p f = true := by
  constructor
  · intro hmem
    obtain ⟨g, hg, he⟩ := List.mem_map.mp hmem
    obtain ⟨hg, hp⟩ := List.mem_filter.mp hg
    exact List.inj_on_of_nodup_map hdistinct hg hf he ▸ hp
  · exact fun hp => List.mem_map_of_mem (List.mem_filter.mpr ⟨hf, hp⟩)

theorem ensureDirectories_of_opens (h : Opens directory t place) :
    t.ensureDirectories directory = .ok t := by
  have hmake : t.makeDirectory directory = .error (.refused .fileExists directory) := by
    simp [makeDirectory, h.locate, h.isDirectory]
  rw [ensureDirectories]
  split
  · next hok =>
    rw [hmake] at hok
    cases hok
  · next hmissing =>
    rw [hmake] at hmissing
    cases hmissing
  · rw [settle, isDirectory_of_opens h]
    rfl

/-- Fragments can be written to a directory that is there. -/
theorem writable_of_opens (ht : t.Sound) (hplain : directory.IsPlain)
    (h : Opens directory t place) (hreach : ∀ f ∈ fragments, Reaches directory f.hintName)
    (hfree : ∀ f ∈ fragments, t.at? (place ++ [f.hintName]) ≠ some .directory)
    (hremovable : ∀ name ∈ t.fileNames directory, Text.hasSuffix generatedSuffix name = true →
      Reaches directory name) : Writable fragments directory t := by
  refine ⟨ht, hplain, ⟨t, ensureDirectories_of_opens h⟩, fun _ => ⟨place, h.locate⟩, hreach,
    fun f hf hentry => hfree f hf ?_, hremovable⟩
  rw [target, h.entry_join (hreach f hf)] at hentry
  split at hentry
  · cases hentry
  · next e hat => rw [hat, Except.ok.inj hentry]

theorem changeEach_id {step : String → FileTree → Except FileFault FileTree} {names : List String}
    (h : ∀ name ∈ names, step name t = .ok t) : changeEach step names t = (.ok (), t) := by
  induction names with
  | nil => rfl
  | cons name names ih =>
    rw [changeEach, h name List.mem_cons_self]
    exact ih fun n hn => h n (List.mem_cons_of_mem name hn)

theorem set_self {e : FileEntry} (hne : place ≠ []) (h : t.at? place = some e) :
    t.set place e = t := by
  rw [at?_of_ne_nil hne] at h
  rw [FileTree.set, Table.set_of_get? h]

/-- A directory is left alone in which every outdated file holds its text already. -/
theorem sync_same (h : Opens directory t place) {names : List String}
    (hreach : ∀ name ∈ names, Reaches directory name)
    (houtdated : outdated fragments directory t = .ok names)
    (hstale : stale fragments directory t = .ok [])
    (hholds : ∀ name ∈ names, t.at? (place ++ [name]) =
      some (.file (Text.Utf8.encode (textOf fragments name)))) :
    sync fragments directory t = (.ok ⟨names, []⟩, t) := by
  have hwrite : writeEach fragments directory names t = (.ok (), t) := by
    refine changeEach_id fun name hname => ?_
    have hwritten := h.write_join (hreach name hname) (by simp [hholds name hname])
      (Text.Utf8.encode (textOf fragments name))
    rwa [set_self (by simp) (hholds name hname)] at hwritten
  rw [sync, ensureDirectories_of_opens h]
  dsimp only
  rw [houtdated]
  dsimp only
  rw [hwrite]
  dsimp only
  rw [removeStale, hstale]
  rfl

/-- The files of a directory after those that were behind were written and the stale
ones removed. -/
structure Renewed (fragments : List GeneratedFragment) (place : Place) (removed : List String)
    (t t' : FileTree) : Prop where
  behind : ∀ f ∈ fragments, isBehind place t f = true →
    t'.at? (place ++ [f.hintName]) = some (.file (Text.Utf8.encode f.text))
  current : ∀ f ∈ fragments, isBehind place t f = false →
    t'.at? (place ++ [f.hintName]) = t.at? (place ++ [f.hintName])
  gone : ∀ name ∈ removed, t'.at? (place ++ [name]) = none
  others : ∀ q, (∀ f ∈ fragments, isBehind place t f = true → q ≠ place ++ [f.hintName]) →
    (∀ name ∈ removed, q ≠ place ++ [name]) → t'.at? q = t.at? q

/-- A file that is not behind reads as its fragment. -/
theorem exists_of_not_isBehind {f : GeneratedFragment} (h : isBehind place t f = false) :
    ∃ bytes, t.at? (place ++ [f.hintName]) = some (.file bytes) ∧
      FileTree.textOf bytes = .ok f.text := by
  unfold isBehind at h
  split at h
  · next bytes hat =>
    split at h
    · next text htext => exact ⟨bytes, hat, by simpa [htext] using h⟩
    · cases h
  · cases h

/-- No file is read back with a carriage return. -/
theorem not_mem_of_textOf {bytes : List UInt8} {s : String} (h : FileTree.textOf bytes = .ok s) :
    '\r' ∉ s.toList := by
  unfold FileTree.textOf at h
  split at h
  · obtain rfl := Except.ok.inj h
    simpa using Text.carriageReturn_notMem_plainLineEnds _
  · cases h

theorem Renewed.texts {removed : List String} (h : Renewed fragments place removed t t') :
    Texts fragments place t' := by
  intro f hf bytes hat
  cases hbehind : isBehind place t f with
  | true =>
    rw [h.behind f hf hbehind] at hat
    cases hat
    exact isText_encode f.text
  | false =>
    obtain ⟨bytes', hat', htext⟩ := exists_of_not_isBehind hbehind
    rw [h.current f hf hbehind, hat'] at hat
    cases hat
    exact ⟨_, htext⟩

/-- Afterwards a fragment is behind exactly if a carriage return stands in its text. -/
theorem Renewed.isBehind_eq {removed : List String} (h : Renewed fragments place removed t t')
    {f : GeneratedFragment} (hf : f ∈ fragments) :
    isBehind place t' f = f.text.toList.contains '\r' := by
  cases hbehind : isBehind place t f with
  | true =>
    have hread : (String.ofList (Text.plainLineEnds f.text.toList) = f.text) ↔
        '\r' ∉ f.text.toList := by
      rw [← Text.plainLineEnds_eq_self_iff, ← String.toList_inj, String.toList_ofList]
    rw [isBehind, h.behind f hf hbehind]
    dsimp only
    rw [textOf_encode, Bool.eq_iff_iff, bne_iff_ne, Ne, hread, not_not, List.contains_iff_mem]
  | false =>
    obtain ⟨bytes, hat, htext⟩ := exists_of_not_isBehind hbehind
    have hplain := not_mem_of_textOf htext
    rw [isBehind, h.current f hf hbehind, hat]
    simp [htext, hplain]

section
variable {t₁ : FileTree}

/-- The files that are written are not directories, and those that are removed are there. -/
theorem Ready.free_at (h : Ready fragments directory t) (hbegun : Begun directory t t₁ place)
    {f : GeneratedFragment} (hf : f ∈ fragments) :
    t₁.at? (place ++ [f.hintName]) ≠ some .directory := by
  rw [hbegun.same]
  rcases hbegun.before with hopens | habsent
  · intro hat
    have hentry := hopens.entry_join (h.reaches f hf)
    rw [hat] at hentry
    exact h.free f hf hentry
  · simp [habsent.nothing]

theorem Ready.reaches_stale (h : Ready fragments directory t)
    (hbegun : Begun directory t t₁ place) {name : String}
    (hstale : IsStale fragments place t name) : Reaches directory name := by
  obtain ⟨hsuffix, ⟨bytes, hat⟩, -⟩ := hstale
  rcases hbegun.before with hopens | habsent
  · exact h.removable name ((hopens.mem_fileNames_iff h.sound).mpr ⟨bytes, hat⟩) hsuffix
  · rw [habsent.nothing] at hat
    cases hat

/-- Once the directory is there, the files that are behind are written and the stale
ones removed. -/
theorem Ready.exists_renewed (h : Ready fragments directory t)
    (hmake : t.ensureDirectories directory = .ok t₁) (hbegun : Begun directory t t₁ place)
    (htexts : Texts fragments place t) :
    ∃ removed t', sync fragments directory t =
        (.ok ⟨(fragments.filter (isBehind place t)).map (·.hintName), removed⟩, t') ∧
      stale fragments directory t = .ok removed ∧ Names (IsStale fragments place t) removed ∧
      t'.Sound ∧ Keeps t₁ t' ∧ Renewed fragments place removed t₁ t' := by
  have htexts₁ : Texts fragments place t₁ := by
    intro f hf bytes hat
    rw [hbegun.same] at hat
    exact htexts f hf bytes hat
  have hbehind : isBehind place t₁ = isBehind place t := funext hbegun.isBehind_eq
  have houtdated := outdated_eq hbegun.opens h.reaches htexts₁
  rw [hbehind] at houtdated
  obtain ⟨removed, hstale, hnames⟩ := hbegun.exists_stale fragments h.sound
  have hwritten : ∀ name ∈ (fragments.filter (isBehind place t)).map (·.hintName),
      ∃ f ∈ fragments, f.hintName = name ∧ isBehind place t f = true := by
    intro name hname
    obtain ⟨f, hf, rfl⟩ := List.mem_map.mp hname
    obtain ⟨hf, hp⟩ := List.mem_filter.mp hf
    exact ⟨f, hf, rfl, hp⟩
  -- The files that are behind are written.
  obtain ⟨t₂, hwrite, hput⟩ :
      ∃ t₂, writeEach fragments directory ((fragments.filter (isBehind place t)).map (·.hintName))
        t₁ = (.ok (), t₂) ∧ Rewritten place _ _ t₁ t₂ := by
    refine writeEach_ok (fun name hname => ?_) ?_ hbegun.sound hbegun.opens fun name hname => ?_
    · obtain ⟨f, hf, rfl, -⟩ := hwritten name hname
      exact h.reaches f hf
    · exact h.distinct.sublist (List.filter_sublist.map _)
    · obtain ⟨f, hf, rfl, -⟩ := hwritten name hname
      exact h.free_at hbegun hf
  have hopens₂ := hbegun.opens.keep hput.keeps
  -- None of them is stale, so the stale files are the same as before.
  have hother {name : String} (hfree : ∀ f ∈ fragments, f.hintName ≠ name) :
      t₂.at? (place ++ [name]) = t.at? (place ++ [name]) := by
    rw [hput.other, hbegun.same]
    intro hname
    obtain ⟨f, hf, he, -⟩ := hwritten name hname
    exact hfree f hf he
  have hstale₂ : ∀ name, IsStale fragments place t₂ name ↔ IsStale fragments place t name := by
    refine fun name => and_congr_right fun _ => and_congr_left fun hfree => ?_
    rw [hother hfree]
  obtain ⟨removed', hstale', hnames'⟩ :=
    exists_stale fragments hput.sound hopens₂
  obtain rfl : removed' = removed :=
    hnames'.unique ⟨hnames.sorted, fun name => (hnames.mem_iff name).trans (hstale₂ name).symm⟩
  obtain ⟨t₃, hremove, htaken⟩ :
      ∃ t₃, removeEach directory removed' t₂ = (.ok (), t₃) ∧
        Rewritten place removed' (fun _ => none) t₂ t₃ := by
    refine removeEach_ok (fun name hname => ?_) hnames'.nodup hput.sound hopens₂
      fun name hname => ?_
    · exact h.reaches_stale hbegun ((hnames.mem_iff name).mp hname)
    · exact ((hnames'.mem_iff name).mp hname).2.1
  have hkept {f : GeneratedFragment} (hf : f ∈ fragments) :
      t₃.at? (place ++ [f.hintName]) = t₂.at? (place ++ [f.hintName]) :=
    htaken.other fun hname => ((hnames.mem_iff _).mp hname).2.2 f hf rfl
  refine ⟨removed', t₃, ?_, hstale, hnames, htaken.sound, hput.keeps.trans htaken.keeps, ?_⟩
  · rw [sync, hmake]
    dsimp only
    rw [houtdated]
    dsimp only
    rw [hwrite]
    dsimp only
    rw [removeStale, hstale']
    dsimp only
    rw [hremove]
    rfl
  · refine ⟨fun f hf hp => ?_, fun f hf hp => ?_, htaken.named, fun q hq hq' => ?_⟩
    · rw [hbehind] at hp
      rw [hkept hf, hput.named _ ((mem_hintNames_filter h.distinct hf).mpr hp),
        textOf_of_mem h.distinct hf]
    · rw [hbehind] at hp
      rw [hkept hf, hput.other]
      intro hname
      rw [mem_hintNames_filter h.distinct hf, hp] at hname
      cases hname
    · rw [htaken.rest q hq', hput.rest q]
      intro name hname
      obtain ⟨f, hf, rfl, hp⟩ := hwritten name hname
      exact hq f hf (hbehind ▸ hp)

end

/-- A directory is brought in line with fragments that can be written there, if each file that
stands in place of one is a text. -/
theorem Ready.exists_synced (h : Ready fragments directory t)
    (hreadable : Readable fragments directory t) :
    ∃ changes t' place, sync fragments directory t = (.ok changes, t') ∧
      Synced fragments directory place t changes t' := by
  obtain ⟨t₁, place, hmake, hbegun⟩ := h.exists_begun
  have htexts := (hbegun.readable_iff h.reaches).mp hreadable
  obtain ⟨removed, t', hsync, hstale, hnames, hsound, hkeeps, hrenewed⟩ :=
    h.exists_renewed hmake hbegun htexts
  have hopens := hbegun.opens.keep hkeeps
  have hbehind : isBehind place t₁ = isBehind place t := funext hbegun.isBehind_eq
  have hfile {f : GeneratedFragment} (hf : f ∈ fragments) :
      ∃ bytes, t'.at? (place ++ [f.hintName]) = some (.file bytes) := by
    cases hp : isBehind place t₁ f with
    | true => exact ⟨_, hrenewed.behind f hf hp⟩
    | false =>
      obtain ⟨bytes, hat, -⟩ := exists_of_not_isBehind hp
      exact ⟨bytes, (hrenewed.current f hf hp).trans hat⟩
  have hgenerated (name : String) (hsuffix : Text.hasSuffix generatedSuffix name = true) :
      name ∈ t'.fileNames directory ↔ ∃ f ∈ fragments, f.hintName = name := by
    rw [hopens.mem_fileNames_iff hsound]
    constructor
    · rintro ⟨bytes, hat⟩
      by_contra hnone
      have hfree : ∀ f ∈ fragments, f.hintName ≠ name := fun f hf he => hnone ⟨f, hf, he⟩
      by_cases hname : name ∈ removed
      · rw [hrenewed.gone name hname] at hat
        cases hat
      · have hrest : t'.at? (place ++ [name]) = t₁.at? (place ++ [name]) := by
          refine hrenewed.others _ (fun f hf _ he => ?_) fun other hother he => ?_
          · exact hfree f hf (List.singleton_injective (List.append_cancel_left he)).symm
          · exact hname (List.singleton_injective (List.append_cancel_left he) ▸ hother)
        rw [hrest, hbegun.same] at hat
        exact hname ((hnames.mem_iff name).mpr ⟨hsuffix, ⟨bytes, hat⟩, hfree⟩)
    · rintro ⟨f, hf, rfl⟩
      exact hfile hf
  have hwritten {f : GeneratedFragment} (hf : f ∈ fragments)
      (hname : f.hintName ∈ (fragments.filter (isBehind place t)).map (·.hintName)) :
      t'.at? (place ++ [f.hintName]) = some (.file (Text.Utf8.encode f.text)) := by
    refine hrenewed.behind f hf ?_
    rw [hbehind]
    exact (mem_hintNames_filter h.distinct hf).mp hname
  have houtdated : outdated fragments directory t' = .ok (returning fragments) := by
    rw [outdated_eq hopens h.reaches hrenewed.texts, returning,
      List.filter_congr fun f hf => hrenewed.isBehind_eq hf]
  have hstale' : stale fragments directory t' = .ok [] := by
    obtain ⟨names, hstale', hnames'⟩ := exists_stale fragments hsound hopens
    rw [hstale', hnames'.unique (names_nil fun name hname => ?_)]
    obtain ⟨hsuffix, ⟨bytes, hat⟩, hfree⟩ := hname
    obtain ⟨f, hf, he⟩ := (hgenerated name hsuffix).mp
      ((hopens.mem_fileNames_iff hsound).mpr ⟨bytes, hat⟩)
    exact hfree f hf he
  refine ⟨_, t', place, hsync, hopens, hsound, hbegun.grown.keeps.trans hkeeps,
    hbegun.outdated_eq h.reaches htexts, hstale, fun name hname => ?_, hgenerated,
    fun f hf => hwritten hf, fun f hf hname => ?_, fun q bytes hq => ?_, houtdated, hstale', ?_⟩
  · obtain hname | hname := List.mem_append.mp hname
    · obtain ⟨f, hf, rfl⟩ := List.mem_map.mp hname
      exact h.generated f (List.mem_filter.mp hf).1
    · exact ((hnames.mem_iff name).mp hname).1
  · have hp : isBehind place t₁ f = false := by
      rw [hbehind, ← Bool.not_eq_true]
      exact fun hp => hname ((mem_hintNames_filter h.distinct hf).mpr hp)
    obtain ⟨bytes, hat, htext⟩ := exists_of_not_isBehind hp
    exact ⟨bytes, hbegun.same _ ▸ hat, (hrenewed.current f hf hp).trans hat, htext⟩
  · rw [hrenewed.others q, hbegun.grown.file_iff]
    · intro f hf hp
      rw [hbehind] at hp
      exact hq _ (List.mem_append_left _ ((mem_hintNames_filter h.distinct hf).mpr hp))
    · exact fun name hname => hq name (List.mem_append_right _ hname)
  · -- The files that are outdated still have just been written.
    have hreturning (name : String) (hname : name ∈ returning fragments) :
        ∃ f ∈ fragments, f.hintName = name ∧ '\r' ∈ f.text.toList := by
      obtain ⟨f, hf, rfl⟩ := List.mem_map.mp hname
      obtain ⟨hf, hp⟩ := List.mem_filter.mp hf
      exact ⟨f, hf, rfl, List.contains_iff_mem.mp hp⟩
    refine sync_same hopens (fun name hname => ?_) houtdated hstale' fun name hname => ?_
    · obtain ⟨f, hf, rfl, -⟩ := hreturning name hname
      exact h.reaches f hf
    · obtain ⟨f, hf, rfl, hmem⟩ := hreturning name hname
      rw [textOf_of_mem h.distinct hf]
      refine hrenewed.behind f hf ?_
      by_contra hp
      obtain ⟨bytes, -, htext⟩ := exists_of_not_isBehind (Bool.eq_false_iff.mpr hp)
      exact not_mem_of_textOf htext hmem

/-- A file in place of a fragment that is no text stops everything, before any file is changed. -/
theorem Ready.exists_undecodable (h : Ready fragments directory t)
    (hreadable : ¬Readable fragments directory t) :
    ∃ e t', sync fragments directory t = (.error (.undecodable e), t') ∧ Grown t t' := by
  obtain ⟨t₁, place, hmake, hbegun⟩ := h.exists_begun
  rw [hbegun.readable_iff h.reaches] at hreadable
  simp only [Texts, not_forall] at hreadable
  obtain ⟨f, hf, bytes, hat, htext⟩ := hreadable
  rw [← hbegun.same] at hat
  obtain ⟨e, hfails⟩ := isOutdated_undecodable hbegun.opens (h.reaches f hf) hat htext
  obtain ⟨g, hg, fault, hfault, hfilter⟩ := exists_error_of_filterM hf hfails
  have hundecodable : ∃ e, fault = .undecodable e := by
    by_cases hg' : ∀ bytes, t₁.at? (place ++ [g.hintName]) = some (.file bytes) → IsText bytes
    · rw [isOutdated_eq hbegun.opens (h.reaches g hg) hg'] at hfault
      cases hfault
    · simp only [not_forall] at hg'
      obtain ⟨bytes', hat', htext'⟩ := hg'
      obtain ⟨e', he'⟩ := isOutdated_undecodable hbegun.opens (h.reaches g hg) hat' htext'
      rw [he'] at hfault
      exact ⟨e', (Except.error.inj hfault).symm⟩
  obtain ⟨e, rfl⟩ := hundecodable
  refine ⟨e, t₁, ?_, hbegun.grown⟩
  have houtdated : outdated fragments directory t₁ = .error (.undecodable e) := by
    rw [outdated, hfilter]
    rfl
  rw [sync, hmake]
  dsimp only
  rw [houtdated]

end SceneCodegen.OutputDirectory
