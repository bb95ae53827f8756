import SceneCodegen.Proofs.Fragment.Depths
import SceneCodegen.Proofs.Fragment.Identifiers

/-!
# Constants of input actions

The class of input actions declares one constant for each action, which holds the action's name. The
constants are told apart by their identifiers, which keep fewer characters apart than names do.
-/
namespace SceneCodegen.Fragment

/-- The name and the initial value of the constant that a line declares. -/
def constant? (line : String) : Option (String × String) :=
  (line.toList.dropPrefix? (indent ++ "public static readonly StringName ").toList).bind
    fun declared => (Text.cutAt ' ' declared).bind fun (name, rest) =>
      ((rest.dropPrefix? "= ".toList).bind (·.dropSuffix? [';'])).map fun value =>
        (.ofList name, .ofList value)

def constantOf (e : Manifest.Entry) : String × String := (identifier e.name, stringLiteral e.name)

theorem IsIdentifier.space_not_mem {s : String} (h : IsIdentifier s) : ' ' ∉ s.toList := by
  have hword {cs : List Char} (h : isWord cs = true) : ' ' ∉ cs := by
    cases cs with
    | nil => cases h
    | cons c rest =>
      rw [isWord, Bool.and_eq_true, List.all_eq_true] at h
      intro hmem
      rcases List.mem_cons.mp hmem with rfl | hmem
      · exact absurd h.1 (by decide)
      · exact absurd (h.2 ' ' hmem) (by decide)
  have hreserved : ∀ word ∈ reservedWords, ' ' ∉ ("@" ++ word).toList := by decide +kernel
  rcases h with ⟨h, -⟩ | ⟨word, hmem, rfl⟩
  · exact hword h
  · exact hreserved word hmem

theorem constant?_inputActionLine (e : Manifest.Entry) :
    constant? (inputActionLine e) = some (constantOf e) := by
  have hline : (inputActionLine e).toList =
      (indent ++ "public static readonly StringName ").toList ++ ((identifier e.name).toList ++
        ' ' :: ("= ".toList ++ ((stringLiteral e.name).toList ++ [';']))) := by
    simp [inputActionLine, String.toList_append]
  have hname := (isIdentifier_identifier e.name).space_not_mem
  rw [constant?, hline, dropPrefix?_append, Option.bind_some, Text.cutAt_append hname,
    Option.bind_some]
  dsimp only
  rw [dropPrefix?_append, Option.bind_some, dropSuffix?_append, Option.map_some,
    String.ofList_toList, String.ofList_toList, constantOf]

theorem renderInputActions_eq_none {entries : List Manifest.Entry} :
    renderInputActions entries = none ↔ entries = [] := by
  rw [renderInputActions]
  cases entries <;> simp

/-- One constant is declared for each entry, with a valid identifier and the literal of the entry's
name. The identifiers are distinct just if no two names clash, and names that are words clash only
if they are the same. -/
theorem constants_declared (entries : List Manifest.Entry) :
    (renderInputActions entries = none ↔ entries = []) ∧
    ∀ f, renderInputActions entries = some f →
      ∃ (lines : List String) (constants : List (String × String)),
      Declares 1 f.text lines ∧ lines.map constant? = constants.map some ∧
      constants.Perm (entries.map constantOf) ∧
      (∀ c ∈ constants, IsIdentifier c.1) ∧
      ((constants.map Prod.fst).Nodup ↔
        entries.Pairwise fun a b => ¬ Clash a.name.toList b.name.toList) ∧
      ((∀ e ∈ entries, isWord e.name.toList = true) →
        ((constants.map Prod.fst).Nodup ↔ (entries.map (·.name)).Nodup)) := by
  refine ⟨renderInputActions_eq_none, fun f hf => ?_⟩
  let sorted := entries.mergeSort fun a b => a.name ≤ b.name
  have hperm : (sorted.map constantOf).Perm (entries.map constantOf) :=
    (List.mergeSort_perm entries _).map constantOf
  have hnodup : ((sorted.map constantOf).map Prod.fst).Nodup ↔
      entries.Pairwise fun a b => ¬ Clash a.name.toList b.name.toList := by
    rw [(hperm.map Prod.fst).nodup_iff, List.map_map, List.Nodup, List.pairwise_map]
    simp only [Function.comp_apply, constantOf, ne_eq, identifier_eq_iff]
  refine ⟨sorted.map inputActionLine, sorted.map constantOf, declares_inputActions hf, ?_, hperm,
    ?_, hnodup, fun hwords => ?_⟩
  · simp only [List.map_map, Function.comp_def, constant?_inputActionLine]
  · intro c hc
    obtain ⟨e, -, rfl⟩ := List.mem_map.mp hc
    exact isIdentifier_identifier e.name
  · rw [hnodup, List.Nodup, List.pairwise_map]
    refine List.Pairwise.iff_of_mem fun {a b} ha hb => ?_
    rw [clash_iff_of_isWord (hwords a ha) (hwords b hb), String.toList_inj]

/-- A name with a leading digit, a reserved word and a name with a dash. -/
def zoomActions : List Manifest.Entry :=
  [⟨.inputAction, "2d-zoom", ""⟩, ⟨.inputAction, "lock", ""⟩, ⟨.inputAction, "zoom-in", ""⟩]

theorem constants_declared_zoom :
    ∃ (f : GeneratedFragment) (lines : List String) (constants : List (String × String)),
    renderInputActions zoomActions = some f ∧ Declares 1 f.text lines ∧
      lines.map constant? = constants.map some ∧
      constants.Perm [("_2d_zoom", "\"2d-zoom\""), ("@lock", "\"lock\""),
        ("zoom_in", "\"zoom-in\"")] ∧
      (constants.map Prod.fst).Nodup := by
  obtain ⟨-, hall⟩ := constants_declared zoomActions
  obtain ⟨lines, constants, hdeclares, hread, hperm, -, hnodup, -⟩ := hall _ rfl
  have hconstants : zoomActions.map constantOf = [("_2d_zoom", "\"2d-zoom\""),
      ("@lock", "\"lock\""), ("zoom_in", "\"zoom-in\"")] := by decide
  have hapart : zoomActions.Pairwise fun a b => ¬ Clash a.name.toList b.name.toList := by
    simp only [← identifier_eq_iff]
    decide
  exact ⟨_, lines, constants, rfl, hdeclares, hread, hconstants ▸ hperm, hnodup.mpr hapart⟩

/-- Two actions with different names, but with one identifier. -/
def likeActions : List Manifest.Entry :=
  [⟨.inputAction, "ui-accept", ""⟩, ⟨.inputAction, "ui_accept", ""⟩]

theorem constants_not_distinct : (likeActions.map (·.name)).Nodup ∧
    ∃ f, renderInputActions likeActions = some f ∧ Declares 1 f.text
      ["    public static readonly StringName ui_accept = \"ui-accept\";",
        "    public static readonly StringName ui_accept = \"ui_accept\";"] := by
  have hmembers : inputActionMembers likeActions =
      ["    public static readonly StringName ui_accept = \"ui-accept\";",
        "    public static readonly StringName ui_accept = \"ui_accept\";"] := by
    rw [inputActionMembers, List.mergeSort_of_pairwise (by decide)]
    decide
  refine ⟨by decide, _, rfl, ?_⟩
  exact hmembers ▸ declares_inputActions rfl

end SceneCodegen.Fragment
