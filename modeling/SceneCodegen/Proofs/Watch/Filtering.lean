import SceneCodegen.CommandLine.Run
import SceneCodegen.Proofs.CommandLine.Rechecking
import SceneCodegen.Proofs.Watch.Steps

/-!
# What the filter and the first scan see

The filter of a watch looks for ignored names in the whole path of a changed file and compares it
with the path of the symbol document as that was set; the scan looks below the project root alone.
Where the two differ is told exactly: at a symbol document that is set with a parent step, below a
root inside an ignored directory, and at assets outside of the root.
-/
namespace SceneCodegen

namespace Path

/-- An absolute path without parent steps, to something below the root. -/
structure IsNormal (q : Path) : Prop where
  plain : q.IsPlain
  anchor : q.anchor = .root
  noParent : ".." ∉ q.parts
  below : q.parts ≠ []

/-- The file that an absolute path denotes, its parent steps taken back. -/
def Denotes (p q : Path) : Prop := resolve ⟨.root, []⟩ p = q

theorem IsNormal.denotes {q : Path} (h : q.IsNormal) : Denotes q q := by
  rcases q with ⟨anchor, parts⟩
  obtain rfl : anchor = .root := h.anchor
  have hparts : (absolute ⟨.root, []⟩ ⟨.root, parts⟩).parts = parts := collapse_eq_self h.noParent
  rw [Denotes, resolve, hparts]

theorem IsPlain.resolve {directory p : Path} (hdirectory : directory.IsPlain) (hp : p.IsPlain) :
    (Path.resolve directory p).IsPlain := hdirectory.absolute hp

/-- The parts of a normal path are the fields of its text, after an empty one. -/
theorem IsNormal.fields_text {q : Path} (h : q.IsNormal) :
    Text.fields '/' q.text.toList = [] :: q.parts.map String.toList := by
  rcases q with ⟨anchor, parts⟩
  obtain rfl : anchor = .root := h.anchor
  have htext : (text ⟨.root, parts⟩).toList = '/' :: (Text.join "/" parts).toList := by
    simp [text, Anchor.text]
  rw [htext, Text.fields, if_pos (beq_self_eq_true '/'), fields_join h.below h.plain]

end Path

theorem Settings.isPlain_resolvedProjectRoot {o : Settings.Origin} {s : Settings}
    (hdirectory : o.directory.IsPlain) (hroot : s.projectRoot.IsPlain) :
    (s.resolvedProjectRoot o).IsPlain := by
  refine hdirectory.resolve ?_
  cases hexpand : s.projectRoot.expandUser? o.homeOf with
  | none => exact hroot
  | some root => exact hroot.expandUser hexpand

namespace AssetFiles

/-- A file that a scan of a project root meets and reads, if it is there. -/
def Scanned (m e : String) (root q : Path) : Prop :=
  ∃ rest, q = pathOf root rest ∧ IsInput m e root rest

/-- A scan reads a file that is there exactly if it is scanned for. -/
theorem mem_find_iff_scanned {m e : String} {root q : Path} {t : FileTree} (ht : t.Sound)
    {bytes : List UInt8} (hfile : t.at? q.parts = some (.file bytes)) :
    (q, bytes) ∈ find m e root t ↔ Scanned m e root q := by
  rw [mem_find_iff ht]
  constructor
  · rintro ⟨rest, hinput, rfl, -⟩
    exact ⟨rest, rfl, hinput⟩
  · rintro ⟨rest, rfl, hinput⟩
    exact ⟨rest, hinput, rfl, hfile⟩

theorem isIgnored_append {base rest : Place} (h : rest ≠ []) :
    isIgnored (base ++ rest) = (base.any ignoredDirectories.contains || isIgnored rest) := by
  rw [isIgnored, isIgnored, List.dropLast_append_of_ne_nil h, List.any_append]

end AssetFiles

namespace Watch.Filter
open AssetFiles

theorem slashless_ignored : ∀ name ∈ ignoredDirectories, '/' ∉ name.toList := by decide

/-- The name of a directory between two slashes in a path is one of those that lead to the file. -/
theorem contains_iff {q : Path} (hq : q.IsNormal) {name : String} (hname : '/' ∉ name.toList) :
    Text.contains ("/" ++ name ++ "/") q.text = true ↔ name ∈ q.parts.dropLast := by
  have hword : ("/" ++ name ++ "/").toList = '/' :: name.toList ++ ['/'] := by simp
  rw [Text.contains, Text.find_isSome_iff, hword, Text.infix_iff_fields hname, hq.fields_text]
  constructor
  · rintro ⟨before, after, hbefore, hafter, hfields⟩
    obtain ⟨first, before, rfl⟩ := List.exists_cons_of_ne_nil hbefore
    have hfields : q.parts.map String.toList = before ++ name.toList :: after :=
      (List.cons.inj hfields).2
    have hmem : name.toList ∈ (q.parts.map String.toList).dropLast := by
      rw [hfields, List.dropLast_append_of_ne_nil (by simp),
        List.dropLast_cons_of_ne_nil hafter]
      simp
    rw [← List.map_dropLast, List.mem_map] at hmem
    obtain ⟨part, hpart, he⟩ := hmem
    exact String.toList_injective he ▸ hpart
  · intro hmem
    obtain ⟨before, after, hsplit⟩ := List.append_of_mem hmem
    have hparts : q.parts = before ++ name :: (after ++ [q.parts.getLast hq.below]) := by
      conv_lhs => rw [← List.dropLast_concat_getLast hq.below, hsplit]
      simp
    refine ⟨[] :: before.map String.toList, (after ++ [q.parts.getLast hq.below]).map String.toList,
      by simp, by simp, ?_⟩
    conv_lhs => rw [hparts]
    simp

theorem any_contains_eq {q : Path} (hq : q.IsNormal) :
    ignoredDirectories.any (fun name => Text.contains ("/" ++ name ++ "/") q.text) =
      isIgnored q.parts := by
  rw [Bool.eq_iff_iff, List.any_eq_true, isIgnored, List.any_eq_true]
  constructor
  · rintro ⟨name, hname, hcontains⟩
    exact ⟨name, (contains_iff hq (slashless_ignored name hname)).mp hcontains,
      List.contains_iff_mem.mpr hname⟩
  · rintro ⟨name, hmem, hname⟩
    have hname := List.contains_iff_mem.mp hname
    exact ⟨name, hname, (contains_iff hq (slashless_ignored name hname)).mpr hmem⟩

theorem forwardSlashes_eq_self {s : String} (h : '\\' ∉ s.toList) : forwardSlashes s = s := by
  have hmap (cs : List Char) (hcs : '\\' ∉ cs) :
      cs.flatMap (fun c => [if c == '\\' then '/' else c]) = cs := by
    induction cs with
    | nil => rfl
    | cons c cs ih =>
      obtain ⟨hc, hcs⟩ := not_or.mp (mt List.mem_cons.mpr hcs)
      have hne : (c == '\\') = false := by simpa using Ne.symm hc
      rw [List.flatMap_cons, ih hcs, hne]
      rfl
  rw [forwardSlashes, Text.replaceChars, hmap s.toList h, String.ofList_toList]

variable {f : Filter} {root q : Path}

/-- What the filter tells of a path without backslashes: it is that of the symbol document as it is
set, or it is that of an asset in no ignored directory, wherever it is. -/
theorem accepts_iff (hq : q.IsNormal) (hslashes : '\\' ∉ q.text.toList)
    (htool : f.passesOver q.text = false) : f.accepts q.text = true ↔
      q.text = f.symbolsPath.text ∨
        isIgnored q.parts = false ∧ isAsset f.manifestName f.sceneExtension q.text = true := by
  simp only [accepts, forwardSlashes_eq_self hslashes, htool, any_contains_eq hq]
  simp

/-- The file is the symbol document or is scanned for below the root. -/
def IsSeen (f : Filter) (root q : Path) : Prop :=
  f.symbolsPath.Denotes q ∨ Scanned f.manifestName f.sceneExtension root q

/-- The file is an asset in no ignored directory, wherever it is. -/
def IsLoose (f : Filter) (q : Path) : Prop :=
  isIgnored q.parts = false ∧ isAsset f.manifestName f.sceneExtension q.text = true

/-- The file is seen, but a change of it is not let through: the symbol document is set by another
way to it, or the root itself lies in an ignored directory. -/
def Misses (f : Filter) (root q : Path) : Prop :=
  q.text ≠ f.symbolsPath.text ∧
    (f.symbolsPath.Denotes q ∧ ¬f.IsLoose q ∨
      Scanned f.manifestName f.sceneExtension root q ∧
        root.parts.any ignoredDirectories.contains = true)

/-- A change of the file is let through, but it is not seen: it is an asset outside of the root. -/
def Exceeds (f : Filter) (root q : Path) : Prop :=
  f.IsLoose q ∧ ¬f.symbolsPath.Denotes q ∧ FileTree.below? root.parts q.parts = none

/-- The changes of a seen file that the filter does not let through. -/
theorem misses_iff (hq : q.IsNormal) (hslashes : '\\' ∉ q.text.toList)
    (htool : f.passesOver q.text = false) :
    f.IsSeen root q ∧ f.accepts q.text = false ↔ f.Misses root q := by
  rw [← Bool.not_eq_true, accepts_iff hq hslashes htool, not_or, Misses]
  constructor
  · rintro ⟨hdenotes | hscanned, hset, hloose⟩
    · exact ⟨hset, .inl ⟨hdenotes, hloose⟩⟩
    · refine ⟨hset, .inr ⟨hscanned, ?_⟩⟩
      obtain ⟨rest, rfl, hinput⟩ := hscanned
      have hparts : (pathOf root rest).parts = root.parts ++ rest := rfl
      by_contra hany
      refine hloose ⟨?_, hinput.asset⟩
      rw [hparts, isIgnored_append hinput.below, hinput.searched, Bool.eq_false_iff.mpr hany]
      rfl
  · rintro ⟨hset, ⟨hdenotes, hloose⟩ | ⟨hscanned, hany⟩⟩
    · exact ⟨.inl hdenotes, hset, hloose⟩
    · refine ⟨.inr hscanned, hset, fun hloose => ?_⟩
      obtain ⟨rest, rfl, hinput⟩ := hscanned
      have hparts : (pathOf root rest).parts = root.parts ++ rest := rfl
      have hignored := hloose.1
      rw [hparts, isIgnored_append hinput.below, hany] at hignored
      cases hignored

/-- A path below the root is scanned for exactly if it is an asset in no ignored directory there. -/
theorem scanned_of_below {m e : String} {rest : Place} (hq : q.IsNormal)
    (hroot : root.anchor = .root) (hbelow : FileTree.below? root.parts q.parts = some rest)
    (hsearched : isIgnored rest = false) (hasset : isAsset m e q.text = true) :
    Scanned m e root q := by
  obtain ⟨hparts, hne⟩ := FileTree.below?_eq_some_iff.mp hbelow
  have hpath : q = pathOf root rest := by
    rcases q with ⟨anchor, parts⟩
    obtain rfl : anchor = .root := hq.anchor
    obtain rfl : parts = root.parts ++ rest := hparts
    rw [pathOf, Path.join, hroot]
    rfl
  exact ⟨rest, hpath, hne, hsearched, hpath ▸ hasset⟩

/-- The files that are not seen but whose changes the filter lets through. -/
theorem exceeds_iff (hq : q.IsNormal) (hslashes : '\\' ∉ q.text.toList)
    (htool : f.passesOver q.text = false) (hroot : root.anchor = .root)
    (hsymbols : f.symbolsPath.IsPlain) :
    f.accepts q.text = true ∧ ¬f.IsSeen root q ↔ f.Exceeds root q := by
  rw [accepts_iff hq hslashes htool, IsSeen, not_or, Exceeds]
  constructor
  · rintro ⟨hset | hloose, hdenotes, hscanned⟩
    · exact absurd (Path.text_injective hq.plain hsymbols hset ▸ hq.denotes) hdenotes
    · refine ⟨hloose, hdenotes, ?_⟩
      by_contra hbelow
      obtain ⟨rest, hrest⟩ := Option.ne_none_iff_exists'.mp hbelow
      obtain ⟨hparts, hne⟩ := FileTree.below?_eq_some_iff.mp hrest
      have hsearched := hloose.1
      rw [hparts, isIgnored_append hne, Bool.or_eq_false_iff] at hsearched
      exact hscanned (scanned_of_below hq hroot hrest hsearched.2 hloose.2)
  · rintro ⟨hloose, hdenotes, hbelow⟩
    refine ⟨.inr hloose, hdenotes, ?_⟩
    rintro ⟨rest, rfl, hinput⟩
    have hsome : FileTree.below? root.parts (pathOf root rest).parts = some rest :=
      FileTree.below?_eq_some_iff.mpr ⟨rfl, hinput.below⟩
    rw [hsome] at hbelow
    cases hbelow

theorem iff_iff_not_and_not (a b : Prop) : (a ↔ b) ↔ ¬(b ∧ ¬a) ∧ ¬(a ∧ ¬b) := by tauto

end Watch.Filter

namespace CommandLine
open Watch AssetFiles

/-- The filter of a session and the scan of its project agree on a file that is not passed over
exactly if it is neither missed nor let through for nothing. Among the changes taken in, once the
pass that they cancel has ended without a fault, those under the path of the symbol document as it
is set make its types be read again. -/
theorem filter_sees (s : Settings) (w : Workplace) (output : Option Path)
    (passesOver : String → Bool)
    (hsettings : s.symbolsPath.IsPlain ∧ s.projectRoot.IsPlain ∧ w.directory.IsPlain) {q : Path}
    (hq : q.IsNormal) (hslashes : '\\' ∉ q.text.toList)
    (htool : passesOver q.text = false) :
    let session := WatchSession.new s output w
    let filter := watchFilter s session passesOver
    let root := s.resolvedProjectRoot w.origin
    ((filter.accepts q.text = true ↔ filter.IsSeen root q) ↔
      ¬filter.Misses root q ∧ ¬filter.Exceeds root q) ∧
    (filter.IsSeen root q ∧ filter.accepts q.text = false ↔ filter.Misses root q) ∧
    (filter.accepts q.text = true ∧ ¬filter.IsSeen root q ↔ filter.Exceeds root q) ∧
    (∀ (t : FileTree) bytes, t.Sound → t.at? q.parts = some (.file bytes) →
      ((q, bytes) ∈ find s.manifestName s.sceneExtension root t ↔
        Scanned s.manifestName s.sceneExtension root q)) ∧
    ∀ (later : WatchSession) (w' : Workplace) starts changes,
      later.symbolsPath = session.symbolsPath → q.text = session.symbolsPath.text →
      (∃ c ∈ changes, c.path = q.text) →
      filter.accepts q.text = true ∧
      ∀ paused place e symbols, later.cancel starts w' = (.ok (), paused, place) →
        changes.foldlM (paused.addChange place) {} = .ok e →
        place.loadSymbols later.symbolsPath = .ok symbols →
        (later.applyChanges starts changes w').2.1.generator =
          ((paused.generator.updateAssets e.snapshots e.removed).2.replaceSymbols symbols).2 := by
  intro session filter root
  have hroot : root.IsPlain := Settings.isPlain_resolvedProjectRoot hsettings.2.2 hsettings.2.1
  have hsymbols : filter.symbolsPath.IsPlain := hroot.join hsettings.1
  have hmisses : filter.IsSeen root q ∧ filter.accepts q.text = false ↔ filter.Misses root q :=
    Filter.misses_iff hq hslashes htool
  have hexceeds : filter.accepts q.text = true ∧ ¬filter.IsSeen root q ↔
      filter.Exceeds root q := Filter.exceeds_iff hq hslashes htool rfl hsymbols
  refine ⟨?_, hmisses, hexceeds, fun t bytes ht hfile => mem_find_iff_scanned ht hfile, ?_⟩
  · rw [← hmisses, ← hexceeds, ← Bool.not_eq_true]
    exact Filter.iff_iff_not_and_not _ _
  · rintro later w' starts changes hlater hset ⟨c, hc, hpath⟩
    refine ⟨(Filter.accepts_iff hq hslashes htool).mpr (.inl hset), ?_⟩
    intro paused place e symbols hcancel hfold hload
    refine WatchSession.applyChanges_reloads hcancel hfold (List.any_eq_true.mpr ⟨c, hc, ?_⟩) hload
    rw [WatchSession.changesSymbols, hpath, Path.ofText_text hq.plain, hlater, hset]
    exact beq_self_eq_true _

/-- The filter of the arcade sees its symbol document, and a change of it makes the types be read
again. -/
theorem filter_sees_arcade :
    let s := Arcade.settings
    let w := Arcade.place
    let q := Path.ofText "/game/symbols.json"
    let session := WatchSession.new s none w
    let filter := watchFilter s session
    q.IsNormal ∧ ¬filter.Misses (s.resolvedProjectRoot w.origin) q ∧
      ¬filter.Exceeds (s.resolvedProjectRoot w.origin) q ∧
      (filter.accepts q.text = true ↔ filter.IsSeen (s.resolvedProjectRoot w.origin) q) ∧
      (session.applyChanges 0 [⟨.modified, q.text⟩] w).2.1.generator =
        ((session.generator.updateAssets [] []).2.replaceSymbols []).2 := by
  intro s w q session filter
  have hq : q.IsNormal := ⟨Path.isPlain_ofText _, by decide, by decide,
    by decide⟩
  have hset : q.text = session.symbolsPath.text := by decide
  have hmisses : ¬filter.Misses (s.resolvedProjectRoot w.origin) q := fun h => h.1 hset
  have hexceeds : ¬filter.Exceeds (s.resolvedProjectRoot w.origin) q := fun h =>
    absurd h.1.2 (by decide)
  have hsees := filter_sees s w none Watch.isToolFile
    ⟨Path.isPlain_ofText _, Path.isPlain_ofText _, Path.isPlain_ofText _⟩ hq (by decide)
    (by decide)
  refine ⟨hq, hmisses, hexceeds, hsees.1.mpr ⟨hmisses, hexceeds⟩, ?_⟩
  have hfold : [(⟨.modified, q.text⟩ : Change)].foldlM (session.addChange w) {} =
      .ok { reloadsSymbols := true } := by
    have hpath : (Path.ofText q.text).text = session.symbolsPath.text := by
      rw [Path.ofText_text hq.plain, hset]
    simp [WatchSession.addChange, hpath, pure, Except.pure, bind, Except.bind]
  have hcancel : session.cancel 0 w = (.ok (), session, w) := WatchSession.cancel_of_idle 0 w rfl
  exact (hsees.2.2.2.2 session w 0 [⟨.modified, q.text⟩] rfl hset
    ⟨_, List.mem_singleton_self _, rfl⟩).2 session w { reloadsSymbols := true } [] hcancel hfold
    Arcade.loads

/-- A change of the symbol document is missed if the way to it was set with a parent step. -/
theorem symbols_behind_parent_step_missed :
    (Path.ofText "/work/game/../build/symbols.json").Denotes
        (.ofText "/work/build/symbols.json") ∧
      ({ symbolsPath := .ofText "/work/game/../build/symbols.json" } : Filter).accepts
        "/work/build/symbols.json" = false := by
  refine ⟨?_, by decide⟩
  unfold Path.Denotes
  decide

end CommandLine
end SceneCodegen
