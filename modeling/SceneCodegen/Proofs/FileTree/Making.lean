import SceneCodegen.Proofs.FileTree.Places

/-!
# Making directories and using the files in them

Making a directory with those above it adds directories and changes nothing else, and afterwards the
path leads to a directory. From there a name leads to the place of a file, which is read, written
and removed at that place alone.
-/
namespace SceneCodegen.FileTree
variable {t t' t'' : FileTree} {p directory : Path} {place : Place}

/-- A later tree with some more directories, and no other change. -/
def Grown (t t' : FileTree) : Prop :=
  ∀ q, t'.at? q = t.at? q ∨ t.at? q = none ∧ t'.at? q = some .directory

namespace Grown

theorem refl (t : FileTree) : Grown t t := fun _ => .inl rfl

theorem trans (h : Grown t t') (h' : Grown t' t'') : Grown t t'' := by
  intro q
  rcases h q with he | ⟨hnone, hdir⟩
  · rcases h' q with he' | ⟨hnone', hdir'⟩
    · exact .inl (he'.trans he)
    · exact .inr ⟨he ▸ hnone', hdir'⟩
  · rcases h' q with he' | ⟨hnone', -⟩
    · exact .inr ⟨hnone, he'.trans hdir⟩
    · rw [hdir] at hnone'
      cases hnone'

theorem keeps (h : Grown t t') : Keeps t t' := by
  intro q hq
  rcases h q with he | ⟨hnone, -⟩
  · rw [he, hq]
  · rw [hq] at hnone
    cases hnone

theorem file_iff (h : Grown t t') {q : Place} {bytes : List UInt8} :
    t'.at? q = some (.file bytes) ↔ t.at? q = some (.file bytes) := by
  rcases h q with he | ⟨hnone, hdir⟩
  · rw [he]
  · simp [hnone, hdir]

/-- A walk that comes through in the later tree finds in the earlier one a directory missing, or
leads to the same place. -/
theorem walk (h : Grown t t') {base : Place} {names : List String}
    (hwalk : t'.walk base names = .ok place) :
    t.walk base names = .ok place ∨ t.walk base names = .error .notFound := by
  induction names generalizing base with
  | nil => exact .inl hwalk
  | cons name names ih =>
    rw [FileTree.walk] at hwalk ⊢
    rcases h base with he | ⟨hnone, -⟩
    · rw [← he]
      split at hwalk
      · cases hwalk
      · cases hwalk
      · split at hwalk
        · next hstep => simpa [hstep] using ih hwalk
        · next hstep =>
          split at hwalk
          · cases hwalk
          · next hshort => simpa [hstep, hshort] using ih hwalk
    · rw [hnone]
      exact .inr rfl

theorem locate (h : Grown t t') (hlocate : t'.locate p = .ok place) :
    t.locate p = .ok place ∨ t.locate p = .error .notFound := by
  obtain ⟨hnull, hlong, hwalk⟩ := locate_eq hlocate
  exact (h.walk hwalk).imp (locate_of_walk hnull hlong) (locate_of_walk hnull hlong)

end Grown

/-- A path leads to a directory. -/
structure Opens (p : Path) (t : FileTree) (place : Place) : Prop where
  locate : t.locate p = .ok place
  isDirectory : t.at? place = some .directory

theorem Opens.keep (h : Opens p t place) (hkeeps : Keeps t t') : Opens p t' place :=
  ⟨hkeeps.locate h.locate, hkeeps place h.isDirectory⟩

/-- A walk ends at a directory or at a name in one, unless it went nowhere. -/
theorem exists_of_walk (ht : t.Sound) {base : Place} {names : List String}
    (h : t.walk base names = .ok place) :
    t.at? place = some .directory ∨ names = [] ∧ place = base ∨
      ∃ q name, place = q ++ [name] ∧ t.at? q = some .directory ∧ name ∈ names ∧ name ≠ ".." ∧
        isTooLong name = false := by
  induction names generalizing base with
  | nil => exact .inr (.inl ⟨rfl, (Except.ok.inj h).symm⟩)
  | cons name names ih =>
    rw [walk] at h
    split at h
    · cases h
    · cases h
    · next hbase =>
      split at h
      · obtain hdir | ⟨-, rfl⟩ | ⟨q, n, hplace, hq, hmem, hn⟩ := ih h
        · exact .inl hdir
        · exact .inl (ht.parent hbase)
        · exact .inr (.inr ⟨q, n, hplace, hq, List.mem_cons_of_mem name hmem, hn⟩)
      · next hstep =>
        split at h
        · cases h
        · next hshort =>
          obtain hdir | ⟨-, rfl⟩ | ⟨q, n, hplace, hq, hmem, hn⟩ := ih h
          · exact .inl hdir
          · refine .inr (.inr ⟨base, name, rfl, hbase, List.mem_cons_self, ?_, ?_⟩)
            · simpa using hstep
            · simpa using hshort
          · exact .inr (.inr ⟨q, n, hplace, hq, List.mem_cons_of_mem name hmem, hn⟩)

/-- What making a directory comes to: the new ones stand along its path. -/
structure Made (p : Path) (t t' : FileTree) : Prop where
  sound : t'.Sound
  grown : Grown t t'
  opens : ∃ place, Opens p t' place
  along : ∀ q, t.at? q = none → t'.at? q = some .directory →
    ∃ names, names <+: p.parts ∧ t'.walk [] names = .ok q

theorem made_of_makeDirectory (ht : t.Sound) (hp : p.IsPlain) (h : t.makeDirectory p = .ok t') :
    Made p t t' := by
  unfold makeDirectory at h
  split at h
  · cases h
  · next place hlocate =>
    split at h
    · cases h
    · next hnone =>
      obtain rfl := Except.ok.inj h
      obtain ⟨hnull, -, hwalk⟩ := locate_eq hlocate
      obtain hdir | ⟨-, rfl⟩ | ⟨q, name, rfl, hq, hmem, hstep, hshort⟩ := exists_of_walk ht hwalk
      · rw [hnone] at hdir
        cases hdir
      · cases hnone
      · have hname : IsName name := by
          refine ⟨hp name hmem, hstep, ?_, hshort⟩
          simpa using List.any_eq_false.mp hnull name hmem
        have hfree : t.at? (q ++ [name]) ≠ some .directory := by simp [hnone]
        have hne : q ++ [name] ≠ [] := by simp
        have hkeeps : Keeps t (t.set (q ++ [name]) .directory) := Keeps.set hne hfree .directory
        refine ⟨ht.set hq hname hfree, fun r => ?_, ⟨q ++ [name], ?_, ?_⟩, fun r hr hr' => ?_⟩
        · rw [at?_set hne]
          split
          · next he => exact .inr ⟨he ▸ hnone, rfl⟩
          · exact .inl rfl
        · exact hkeeps.locate hlocate
        · rw [at?_set hne, if_pos rfl]
        · rw [at?_set hne] at hr'
          split at hr'
          · next he => exact ⟨p.parts, List.prefix_refl p.parts, he ▸ hkeeps.walk hwalk⟩
          · rw [hr] at hr'
            cases hr'

theorem entry_of_isDirectory (h : t.isDirectory p = .ok true) : ∃ place, Opens p t place := by
  unfold isDirectory probe at h
  split at h
  · next e he =>
    cases e with
    | file bytes => cases Except.ok.inj h
    | directory =>
      unfold entry at he
      cases hlocate : t.locate p with
      | error cause =>
        rw [hlocate] at he
        cases he
      | ok place =>
        rw [hlocate] at he
        refine ⟨place, hlocate, ?_⟩
        cases hplace : t.at? place with
        | none => simp [hplace, bind, Except.bind] at he
        | some e => simpa [hplace, bind, Except.bind] using he
  · cases h
  · cases Except.ok.inj h

theorem made_of_settle (ht : t.Sound) {fault : FileFault} (h : t.settle p fault = .ok t') :
    Made p t t' := by
  unfold settle at h
  cases hdir : t.isDirectory p with
  | error fault =>
    rw [hdir] at h
    cases h
  | ok found =>
    rw [hdir] at h
    cases found with
    | false => cases h
    | true =>
      obtain rfl := Except.ok.inj h
      refine ⟨ht, Grown.refl t, entry_of_isDirectory hdir, fun q hq hq' => ?_⟩
      rw [hq] at hq'
      cases hq'

theorem made_of_ensureDirectory (ht : t.Sound) (hp : p.IsPlain)
    (h : t.ensureDirectory p = .ok t') : Made p t t' := by
  unfold ensureDirectory at h
  split at h
  · next t₁ hmake =>
    obtain rfl := Except.ok.inj h
    exact made_of_makeDirectory ht hp hmake
  · cases h
  · exact made_of_settle ht h

/-- A directory that could be made with those above it. -/
theorem made_of_ensureDirectories (ht : t.Sound) (hp : p.IsPlain)
    (h : t.ensureDirectories p = .ok t') : Made p t t' := by
  induction hn : p.parts.length generalizing p t' with
  | zero =>
    unfold ensureDirectories at h
    split at h
    · next t₁ hmake =>
      obtain rfl := Except.ok.inj h
      exact made_of_makeDirectory ht hp hmake
    · rw [dif_pos (List.eq_nil_of_length_eq_zero hn)] at h
      cases h
    · exact made_of_settle ht h
  | succ n ih =>
    have hparent : p.parent.IsPlain :=
      fun part hpart => hp part ((List.dropLast_sublist p.parts).subset hpart)
    have hlength : p.parent.parts.length = n := by simp [Path.parent, hn]
    have hne : p.parts ≠ [] := by
      intro hnil
      simp [hnil] at hn
    unfold ensureDirectories at h
    split at h
    · next t₁ hmake =>
      obtain rfl := Except.ok.inj h
      exact made_of_makeDirectory ht hp hmake
    · rw [dif_neg hne] at h
      cases habove : t.ensureDirectories p.parent with
      | error fault =>
        rw [habove] at h
        cases h
      | ok t₁ =>
        rw [habove] at h
        have hfirst := ih hparent habove hlength
        have hlast := made_of_ensureDirectory hfirst.sound hp h
        refine ⟨hlast.sound, hfirst.grown.trans hlast.grown, hlast.opens, fun q hq hq' => ?_⟩
        rcases hfirst.grown q with he | ⟨-, hdir⟩
        · exact hlast.along q (he.trans hq) hq'
        · obtain ⟨names, hnames, hwalk⟩ := hfirst.along q hq hdir
          exact ⟨names, hnames.trans (List.dropLast_prefix p.parts), hlast.grown.keeps.walk hwalk⟩
    · exact made_of_settle ht h

/-- A parent step leads through directories that are there before any is made. -/
def Climbs (p : Path) (t : FileTree) : Prop := ".." ∈ p.parts → ∃ place, t.locate p = .ok place

/-- In the directory itself nothing was made. -/
theorem Made.at?_append (h : Made p t t') (hp : Climbs p t) (hopens : Opens p t' place)
    (name : String) : t'.at? (place ++ [name]) = t.at? (place ++ [name]) := by
  rcases h.grown (place ++ [name]) with he | ⟨hnone, hdir⟩
  · exact he
  · exfalso
    obtain ⟨names, ⟨rest, hnames⟩, hwalk⟩ := h.along _ hnone hdir
    obtain ⟨-, -, hwhole⟩ := locate_eq hopens.locate
    by_cases hdown : ".." ∈ p.parts
    · obtain ⟨place', hlocate⟩ := hp hdown
      obtain ⟨-, -, hbefore⟩ := locate_eq hlocate
      have hrest : (t.walk [] names).bind (t.walk · rest) = .ok place' := by
        rw [← walk_append, hnames, hbefore]
      cases hfirst : t.walk [] names with
      | error cause =>
        rw [hfirst] at hrest
        cases hrest
      | ok q =>
        rw [h.grown.keeps.walk hfirst] at hwalk
        obtain rfl := Except.ok.inj hwalk
        rw [hfirst] at hrest
        cases rest with
        | nil =>
          rw [List.append_nil] at hnames
          rw [← hnames, h.grown.keeps.walk hfirst] at hwhole
          have hlength := congrArg List.length (Except.ok.inj hwhole)
          simp at hlength
        | cons step rest => simp [Except.bind, walk, hnone] at hrest
    · have hdown' : ".." ∉ names := fun hmem => hdown (hnames ▸ List.mem_append_left rest hmem)
      have hend := eq_append_of_walk hdown hwhole
      have hend' := eq_append_of_walk hdown' hwalk
      rw [← hnames] at hend
      have hlength := congrArg List.length (hend ▸ hend')
      simp at hlength

/-- The path of a name in a directory; it is used only as far as its length allows. -/
structure Reaches (directory : Path) (name : String) : Prop where
  isName : IsName name
  short : isPathTooLong (directory.join (.ofText name)) = false

instance (directory : Path) (name : String) : Decidable (Reaches directory name) :=
  decidable_of_iff (IsName name ∧ isPathTooLong (directory.join (.ofText name)) = false)
    ⟨fun h => ⟨h.1, h.2⟩, fun h => ⟨h.isName, h.short⟩⟩

/-- The way to a name in a directory leads through the directory. -/
theorem locate_join (t : FileTree) {name : String} (hname : Reaches directory name)
    (hnull : directory.hasNull = false) : t.locate (directory.join (.ofText name)) =
      (t.walk [] directory.parts).bind (t.walk · [name]) := by
  have hjoin : (directory.join (.ofText name)).parts = directory.parts ++ [name] := by
    rw [Path.ofText_part hname.isName.toIsPart]
    rfl
  refine locate_of_walk ?_ hname.short ?_
  · rw [Path.hasNull, hjoin, List.any_append, ← Path.hasNull, hnull]
    simpa using hname.isName.notNull
  · rw [hjoin, walk_append]

namespace Opens
variable {name : String} (h : Opens directory t place) (hname : Reaches directory name)
include h hname

theorem locate_name : t.locate (directory.join (.ofText name)) = .ok (place ++ [name]) := by
  obtain ⟨hnull, -, hwalk⟩ := locate_eq h.locate
  have hstep : (name == "..") = false := by simpa using hname.isName.notParent
  rw [locate_join t hname hnull, hwalk]
  simp [Except.bind, walk, h.isDirectory, hstep, hname.isName.short]

theorem entry_join : t.entry (directory.join (.ofText name)) =
    match t.at? (place ++ [name]) with
    | none => .error .notFound
    | some e => .ok e := by
  rw [entry, h.locate_name hname]
  rfl

theorem isFile_join : t.isFile (directory.join (.ofText name)) =
    .ok ((t.at? (place ++ [name])).any (· matches .file _)) := by
  rw [isFile, probe, h.entry_join hname]
  cases t.at? (place ++ [name]) <;> rfl

theorem readText_join {bytes : List UInt8} (hfile : t.at? (place ++ [name]) = some (.file bytes)) :
    t.readText (directory.join (.ofText name)) = textOf bytes := by
  rw [readText, readBytes, h.entry_join hname, hfile]
  rfl

theorem write_join (hfree : t.at? (place ++ [name]) ≠ some .directory) (bytes : List UInt8) :
    t.write (directory.join (.ofText name)) bytes =
      .ok (t.set (place ++ [name]) (.file bytes)) := by
  rw [write, h.locate_name hname]
  dsimp only
  split
  · next hdir => exact absurd hdir hfree
  · rfl

theorem remove_join {bytes : List UInt8} (hfile : t.at? (place ++ [name]) = some (.file bytes)) :
    t.remove (directory.join (.ofText name)) = .ok ⟨t.entries.erase (place ++ [name])⟩ := by
  rw [remove, h.locate_name hname]
  dsimp only
  rw [hfile]

end Opens

theorem below?_eq_some_iff {base q rest : Place} :
    below? base q = some rest ↔ q = base ++ rest ∧ rest ≠ [] := by
  induction base generalizing q with
  | nil =>
    rw [below?]
    by_cases hq : q = []
    · subst hq
      simp only [List.isEmpty_nil, if_true, List.nil_append, reduceCtorEq, false_iff, not_and]
      rintro rfl
      exact not_not_intro rfl
    · simp only [List.isEmpty_iff, hq, if_false, List.nil_append, Option.some.injEq]
      constructor
      · rintro rfl
        exact ⟨rfl, hq⟩
      · exact And.left
  | cons a base ih =>
    cases q with
    | nil => simp [below?]
    | cons b q =>
      rw [below?]
      by_cases hab : a = b
      · subst hab
        simp [ih]
      · simp [hab, Ne.symm hab]

theorem mem_filesBelow_iff (ht : t.Sound) {base rest : Place} {bytes : List UInt8} :
    (rest, bytes) ∈ t.filesBelow base ↔ rest ≠ [] ∧ t.at? (base ++ rest) = some (.file bytes) := by
  simp only [filesBelow, List.mem_filterMap, Prod.exists]
  constructor
  · rintro ⟨q, e, hmem, he⟩
    cases e with
    | directory => cases he
    | file bytes' =>
      obtain ⟨rest', hbelow, hpair⟩ := Option.map_eq_some_iff.mp he
      obtain ⟨rfl, rfl⟩ := Prod.mk.inj hpair
      obtain ⟨rfl, hne⟩ := below?_eq_some_iff.mp hbelow
      refine ⟨hne, ?_⟩
      rw [at?_of_ne_nil (by simp [hne])]
      exact Table.get?_of_mem ht.nodup hmem
  · rintro ⟨hne, hfile⟩
    rw [at?_of_ne_nil (by simp [hne])] at hfile
    refine ⟨_, _, Table.mem_of_get? hfile, ?_⟩
    rw [Option.map_eq_some_iff]
    exact ⟨rest, below?_eq_some_iff.mpr ⟨rfl, hne⟩, rfl⟩

theorem nodup_filesBelow (ht : t.Sound) (base : Place) :
    ((t.filesBelow base).map Prod.fst).Nodup := by
  have hentries : t.entries.Pairwise fun a b => a.1 ≠ b.1 := List.pairwise_map.mp ht.nodup
  refine List.pairwise_map.mpr (hentries.filterMap _ ?_)
  rintro ⟨q, e⟩ ⟨q', e'⟩ hne ⟨rest, bytes⟩ h ⟨rest', bytes'⟩ h' rfl
  cases e with
  | directory => cases h
  | file =>
    cases e' with
    | directory => cases h'
    | file =>
      obtain ⟨r, hr, hpair⟩ := Option.map_eq_some_iff.mp h
      obtain ⟨r', hr', hpair'⟩ := Option.map_eq_some_iff.mp h'
      obtain ⟨rfl, -⟩ := Prod.mk.inj hpair
      obtain ⟨rfl, -⟩ := Prod.mk.inj hpair'
      rw [below?_eq_some_iff] at hr hr'
      exact hne (hr.1.trans hr'.1.symm)

theorem nodup_fileNames (ht : t.Sound) (p : Path) : (t.fileNames p).Nodup := by
  unfold fileNames
  split
  · exact List.nodup_nil
  · next place _ =>
    have hfiles : (t.filesBelow place).Pairwise fun a b => a.1 ≠ b.1 :=
      List.pairwise_map.mp (nodup_filesBelow ht place)
    refine hfiles.filterMap _ ?_
    rintro ⟨rest, bytes⟩ ⟨rest', bytes'⟩ hne name h name' h' rfl
    dsimp only at h h'
    split at h
    · split at h'
      · obtain rfl := Option.some.inj h
        obtain rfl := Option.some.inj h'
        exact hne rfl
      · cases h'
    · cases h

theorem Opens.mem_fileNames_iff (ht : t.Sound) (h : Opens p t place) {name : String} :
    name ∈ t.fileNames p ↔ ∃ bytes, t.at? (place ++ [name]) = some (.file bytes) := by
  rw [fileNames, h.locate]
  simp only [List.mem_filterMap, Prod.exists]
  constructor
  · rintro ⟨rest, bytes, hmem, hname⟩
    split at hname
    · obtain rfl := Option.some.inj hname
      exact ⟨bytes, ((mem_filesBelow_iff ht).mp hmem).2⟩
    · cases hname
  · rintro ⟨bytes, hfile⟩
    exact ⟨[name], bytes, (mem_filesBelow_iff ht).mpr ⟨by simp, hfile⟩, rfl⟩

end SceneCodegen.FileTree
