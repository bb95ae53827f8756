import SceneCodegen.Generation.Rules
import SceneCodegen.Proofs.Path

/-!
# What resource paths tell of files

A file below the project root is called by the names that lead to it, whichever way its source path
is written, and files below the root are told apart by what they are called. The way out of the
root is looked for in the text of the relative path, though: a file whose first name below the root
begins with two dots is taken to lie outside and keeps its absolute path.
-/
namespace SceneCodegen

namespace Path

def under (base : Path) (names : List String) : Path := ⟨base.anchor, base.parts ++ names⟩

/-- The names of a relative path that leads down and takes no step back. -/
structure LeadDown (names : List String) : Prop where
  part : ∀ name ∈ names, IsPart name
  noParent : ".." ∉ names
  nonempty : names ≠ []

variable {directory base : Path} {names : List String}

theorem stepsTo_append (base names : List String) : stepsTo base (base ++ names) = names := by
  induction base with
  | nil => cases names <;> rfl
  | cons a base ih => rw [List.cons_append, stepsTo, if_pos (beq_self_eq_true a), ih]

/-- Where no names lead down from a directory, the way begins with a parent step. -/
theorem head?_stepsTo {base target : List String} (h : ¬ base <+: target) :
    (stepsTo base target).head? = some ".." := by
  induction base generalizing target with
  | nil => exact absurd List.nil_prefix h
  | cons a base ih =>
    cases target with
    | nil => simp [stepsTo, List.replicate_succ]
    | cons b target =>
      rw [stepsTo]
      split
      · next heq =>
        obtain rfl : a = b := eq_of_beq heq
        exact ih fun hprefix => h (List.cons_prefix_cons.mpr ⟨rfl, hprefix⟩)
      · simp [List.replicate_succ]

theorem IsPlain.under (hbase : base.IsPlain) (hnames : ∀ name ∈ names, IsPart name) :
    (base.under names).IsPlain := fun part hpart =>
  (List.mem_append.mp hpart).elim (hbase part) (hnames part)

theorem isPlain_relative (hnames : ∀ name ∈ names, IsPart name) :
    IsPlain ⟨.relative, names⟩ := hnames

theorem text_relative (hne : names ≠ []) : text ⟨.relative, names⟩ = Text.join "/" names := by
  rw [text_of_ne_nil _ hne, Anchor.text, String.empty_append]

/-- Names behind a path lead down from what it denotes. -/
theorem absolute_join_relative (root : Path) (h : ".." ∉ names) :
    absolute directory (root.join ⟨.relative, names⟩) = (absolute directory root).under names := by
  have hjoin : directory.join (root.join ⟨.relative, names⟩) =
      (directory.join root).under names := by
    by_cases hroot : root.isAbsolute
    · simp only [isAbsolute, bne_iff_ne, ne_eq] at hroot
      simp [join, under, isAbsolute, hroot]
    · simp only [isAbsolute, bne_iff_ne, ne_eq, not_not] at hroot
      simp [join, under, isAbsolute, hroot]
  simp only [absolute, hjoin, under, collapse_append _ h]

/-- A path below an absolute path denotes itself, wherever it is read from. -/
theorem absolute_under (root : Path) (hanchor : (absolute directory root).anchor = .root)
    (h : ".." ∉ names) : absolute directory ((absolute directory root).under names) =
      (absolute directory root).under names := by
  have hjoin : directory.join ((absolute directory root).under names) =
      (absolute directory root).under names := by
    simp [join, under, isAbsolute, hanchor]
  have hparts : collapse ((absolute directory root).parts ++ names) =
      (absolute directory root).parts ++ names :=
    collapse_eq_self fun hmem =>
      (List.mem_append.mp hmem).elim (parent_notMem_collapse _) h
  rw [absolute, hjoin]
  simp [under, hanchor, hparts]

end Path

namespace ResPath
open Path Generation

variable {directory : Path} {root path : String} {names others : List String}

/-- Only the first name can make names joined by slashes begin with two dots. -/
theorem hasPrefix_join (first : String) (rest : List String) :
    Text.hasPrefix ".." (Text.join "/" (first :: rest)) = Text.hasPrefix ".." first := by
  have hjoin : (Text.join "/" (first :: rest)).toList =
      List.intercalate ['/'] (first.toList :: rest.map String.toList) := by
    rw [Text.join, String.toList_intercalate]
    rfl
  rw [Text.hasPrefix, Text.hasPrefix, hjoin]
  rcases first.toList with _ | ⟨c, _ | ⟨d, cs⟩⟩ <;> cases rest <;>
    simp [List.intercalate_cons_cons, List.isPrefixOf]

/-- The text of a path is no resource path: no name of the path is empty. -/
theorem hasPrefix_scheme_text {p : Path} (h : p.IsPlain) :
    Text.hasPrefix scheme p.text = false := by
  rw [← Bool.not_eq_true, Text.hasPrefix, List.isPrefixOf_iff_prefix]
  rintro ⟨rest, hrest⟩
  rcases p with ⟨a, parts⟩
  by_cases hparts : parts = []
  · subst hparts
    cases a <;> simp [text, scheme, Anchor.text, Text.join] at hrest
  rw [text_of_ne_nil a hparts, String.toList_append] at hrest
  cases a with
  | relative =>
    have hcut := fields_join hparts h
    rw [Anchor.text, String.toList_empty, List.nil_append] at hrest
    rw [← hrest] at hcut
    have hempty : [] ∈ parts.map String.toList := by
      rw [← hcut]
      simp [scheme, Text.fields]
    obtain ⟨part, hpart, hnil⟩ := List.mem_map.mp hempty
    exact (h part hpart).ne_empty (String.toList_eq_nil_iff.mp hnil)
  | root => simp [scheme, Anchor.text] at hrest
  | doubleRoot => simp [scheme, Anchor.text] at hrest

/-- What a file is called to which names lead from the project root. -/
def nameBelow (base : Path) (names : List String) : String :=
  if names.head?.any (Text.hasPrefix "..") then (base.under names).text
  else scheme ++ Text.join "/" names

theorem ofPath_of_scheme (h : Text.hasPrefix scheme path = true) :
    ofPath directory root path = path := by
  rw [ofPath, if_pos h]

theorem ofPath_below (h : Text.hasPrefix scheme path = false) (hne : names ≠ [])
    (hpath : absolute directory (.ofText path) = (absolute directory (.ofText root)).under names) :
    ofPath directory root path = nameBelow (absolute directory (.ofText root)) names := by
  obtain ⟨first, rest, rfl⟩ := List.exists_cons_of_ne_nil hne
  have hsteps (base : Path) : stepsTo base.parts (base.under (first :: rest)).parts =
      first :: rest := stepsTo_append base.parts _
  simp only [ofPath, h, hpath, hsteps, hasPrefix_join, nameBelow, Bool.false_eq_true, if_false,
    List.isEmpty_cons, Bool.false_or, List.head?_cons, Option.any_some]
  rfl

/-- The test of the relative path finds every way that does not lead down. -/
theorem outside_found {base target : List String}
    (h : ∀ names, names ≠ [] → target ≠ base ++ names) :
    ((stepsTo base target).isEmpty ||
      Text.hasPrefix ".." (Text.join "/" (stepsTo base target))) = true := by
  by_cases hdown : base <+: target
  · obtain ⟨names, rfl⟩ := hdown
    obtain rfl : names = [] := by
      by_contra hne
      exact h names hne rfl
    rw [stepsTo_append]
    rfl
  · have hhead := head?_stepsTo hdown
    obtain ⟨rest, hsteps⟩ := List.head?_eq_some_iff.mp hhead
    rw [hsteps, hasPrefix_join]
    simp [Text.hasPrefix]

theorem ofPath_outside (h : Text.hasPrefix scheme path = false)
    (hanchor : (absolute directory (.ofText path)).anchor =
      (absolute directory (.ofText root)).anchor)
    (hpath : ∀ names, names ≠ [] →
      absolute directory (.ofText path) ≠ (absolute directory (.ofText root)).under names) :
    ofPath directory root path = (absolute directory (.ofText path)).text := by
  have hparts (names : List String) (hne : names ≠ []) :
      (absolute directory (.ofText path)).parts ≠
        (absolute directory (.ofText root)).parts ++ names := fun hparts =>
    hpath names hne (by rw [under, ← hanchor, ← hparts])
  simp only [ofPath, h, Bool.false_eq_true, if_false]
  rw [if_pos (outside_found hparts)]

variable {c : Config}

def rootOf (c : Config) : Path := absolute c.directory (.ofText c.projectRoot)

/-- The three ways to write the source path of a file below the project root. -/
def spellings (c : Config) (names : List String) : List String :=
  [Text.join "/" names, ((rootOf c).under names).text, scheme ++ Text.join "/" names]

/-- A source path that leads below the root is called by the names behind the root. -/
theorem scriptResPaths_of_denotes {p : Path} (hp : p.IsPlain) (hne : names ≠ [])
    (hdenotes : absolute c.directory ((ofText c.projectRoot).join p) = (rootOf c).under names) :
    scriptResPaths c [p.text] = [nameBelow (rootOf c) names] := by
  have hplain := isPlain_ofText c.projectRoot
  have hjoin : (if p.isAbsolute then p else (ofText c.projectRoot).join p) =
      (ofText c.projectRoot).join p := by
    by_cases h : p.isAbsolute <;> simp [h, join]
  have hroot : rootOf c = absolute c.directory (.ofText (ofText c.projectRoot).text) := by
    rw [ofText_text hplain, rootOf]
  have hpath : absolute c.directory (.ofText ((ofText c.projectRoot).join p).text) =
      (rootOf c).under names := by
    rw [ofText_text (hplain.join hp), hdenotes]
  simp only [scriptResPaths, List.map_cons, List.map_nil, hasPrefix_scheme_text hp,
    Bool.false_eq_true, if_false, ofText_text hp, hjoin]
  rw [hroot] at hpath ⊢
  rw [ofPath_below (hasPrefix_scheme_text (hplain.join hp)) hne hpath]

theorem hasPrefix_scheme_append (rest : String) :
    Text.hasPrefix scheme (scheme ++ rest) = true := by
  rw [Text.hasPrefix, List.isPrefixOf_iff_prefix, String.toList_append]
  exact List.prefix_append _ _

theorem scriptResPaths_of_scheme (rest : String) :
    scriptResPaths c [scheme ++ rest] = [scheme ++ rest] := by
  simp [scriptResPaths, hasPrefix_scheme_append]

theorem scriptResPaths_spellings (hdirectory : c.directory.IsPlain)
    (hroot : (rootOf c).anchor = .root) (h : LeadDown names) :
    scriptResPaths c (spellings c names) =
      [nameBelow (rootOf c) names, nameBelow (rootOf c) names, scheme ++ Text.join "/" names] := by
  have hsplit (a b d : String) : scriptResPaths c [a, b, d] =
      scriptResPaths c [a] ++ scriptResPaths c [b] ++ scriptResPaths c [d] := rfl
  have hplain : (rootOf c).IsPlain := hdirectory.absolute (isPlain_ofText c.projectRoot)
  have hbelow : ((rootOf c).under names).isAbsolute = true := by simp [under, isAbsolute, hroot]
  rw [spellings, hsplit, ← text_relative h.nonempty,
    scriptResPaths_of_denotes (isPlain_relative h.part) h.nonempty
      (absolute_join_relative _ h.noParent),
    scriptResPaths_of_denotes (hplain.under h.part) h.nonempty, scriptResPaths_of_scheme]
  · rfl
  · rw [join, if_pos hbelow]
    exact absolute_under _ hroot h.noParent

theorem join_inj (h : LeadDown names) (ho : LeadDown others) :
    Text.join "/" names = Text.join "/" others ↔ names = others := by
  refine ⟨fun heq => ?_, fun heq => heq ▸ rfl⟩
  rw [← text_relative h.nonempty, ← text_relative ho.nonempty] at heq
  exact congrArg parts (text_injective (isPlain_relative h.part) (isPlain_relative ho.part) heq)

/-- A name of a file below the root is its absolute path or its resource path. -/
theorem mem_names (hdirectory : c.directory.IsPlain) (hroot : (rootOf c).anchor = .root)
    (h : LeadDown names) {key : String} (hkey : key ∈ scriptResPaths c (spellings c names)) :
    key = ((rootOf c).under names).text ∨ key = scheme ++ Text.join "/" names := by
  rw [scriptResPaths_spellings hdirectory hroot h] at hkey
  have hname : key = nameBelow (rootOf c) names ∨ key = scheme ++ Text.join "/" names := by
    simpa using hkey
  refine hname.elim (fun hname => ?_) .inr
  rw [hname, nameBelow]
  split
  · exact .inl rfl
  · exact .inr rfl

theorem names_disjoint (hdirectory : c.directory.IsPlain) (hroot : (rootOf c).anchor = .root)
    (h : LeadDown names) (ho : LeadDown others) (hne : names ≠ others) :
    (scriptResPaths c (spellings c names)).Disjoint (scriptResPaths c (spellings c others)) := by
  intro key hkey hother
  have hplain : (rootOf c).IsPlain := hdirectory.absolute (isPlain_ofText c.projectRoot)
  have hscheme {names : List String} (h : LeadDown names) (rest : String) :
      ((rootOf c).under names).text ≠ scheme ++ rest := fun heq => by
    have hno := hasPrefix_scheme_text (hplain.under h.part)
    rw [heq, hasPrefix_scheme_append] at hno
    cases hno
  obtain rfl | rfl := mem_names hdirectory hroot h hkey <;>
    obtain heq | heq := mem_names hdirectory hroot ho hother
  · have hunder := text_injective (hplain.under h.part) (hplain.under ho.part) heq
    exact hne (List.append_cancel_left (congrArg parts hunder))
  · exact hscheme h _ heq
  · exact hscheme ho _ heq.symm
  · exact hne ((join_inj h ho).mp (String.append_right_inj _ |>.mp heq))

/-- What texts are called in a project, and what the source paths of its classes. -/
structure Tells (c : Config) : Prop where
  /-- A resource path stays as it is. -/
  kept {path : String} (h : Text.hasPrefix scheme path = true) :
    ofPath c.directory c.projectRoot path = path
  /-- A file below the root is called by the names that lead to it. -/
  below {path : String} {names : List String} (h : Text.hasPrefix scheme path = false)
    (hne : names ≠ []) (hpath : absolute c.directory (.ofText path) = (rootOf c).under names) :
    ofPath c.directory c.projectRoot path = nameBelow (rootOf c) names
  /-- Any other file keeps its absolute path. -/
  outside {path : String} (h : Text.hasPrefix scheme path = false)
    (hanchor : (absolute c.directory (.ofText path)).anchor = .root)
    (hpath : ∀ names, names ≠ [] →
      absolute c.directory (.ofText path) ≠ (rootOf c).under names) :
    ofPath c.directory c.projectRoot path = (absolute c.directory (.ofText path)).text
  /-- The source paths of a file below the root. -/
  spelled {names : List String} (h : LeadDown names) : scriptResPaths c (spellings c names) =
    [nameBelow (rootOf c) names, nameBelow (rootOf c) names, scheme ++ Text.join "/" names]
  /-- Two files below the root share no name. -/
  apart {names others : List String} (h : LeadDown names) (ho : LeadDown others)
    (hne : names ≠ others) : (scriptResPaths c (spellings c names)).Disjoint
      (scriptResPaths c (spellings c others))

/-- Resource paths tell the files below the project root apart, up to the names that begin with
two dots: these are called by their absolute paths. -/
theorem names_tell_files (c : Config) (hdirectory : c.directory.IsPlain)
    (hroot : (rootOf c).anchor = .root) : Tells c where
  kept := ofPath_of_scheme
  below := ofPath_below
  outside h hanchor := ofPath_outside h (hanchor.trans hroot.symm)
  spelled := scriptResPaths_spellings hdirectory hroot
  apart := names_disjoint hdirectory hroot

theorem names_tell_files_game : (⟨.root, []⟩ : Path).IsPlain ∧
    (rootOf { projectRoot := "/game" }).anchor = .root ∧ Tells { projectRoot := "/game" } ∧
    ofPath ⟨.root, []⟩ "/game" "/game/ui/../Hud.cs" = "res://Hud.cs" := by
  have hdirectory : (⟨.root, []⟩ : Path).IsPlain := by intro part hpart; cases hpart
  have hroot : (rootOf { projectRoot := "/game" }).anchor = .root := by decide
  have htells := names_tell_files { projectRoot := "/game" } hdirectory hroot
  have hname : nameBelow (rootOf { projectRoot := "/game" }) ["Hud.cs"] = "res://Hud.cs" := by
    decide
  exact ⟨hdirectory, hroot, htells,
    (htells.below (by decide) (by decide) (by decide)).trans hname⟩

/-- A file directly below the root that does not get a resource path, and a script that scenes do
not find by its relative and absolute source paths. -/
theorem dotted_names_lost :
    absolute ⟨.root, []⟩ (.ofText "/game/..hud.tscn") =
        (absolute ⟨.root, []⟩ (.ofText "/game")).under ["..hud.tscn"] ∧
      ofPath ⟨.root, []⟩ "/game" "/game/..hud.tscn" = "/game/..hud.tscn" ∧
      scriptResPaths { projectRoot := "/game" }
          (spellings { projectRoot := "/game" } ["..hud", "Hud.cs"]) =
        ["/game/..hud/Hud.cs", "/game/..hud/Hud.cs", "res://..hud/Hud.cs"] := by
  decide

end ResPath
end SceneCodegen
