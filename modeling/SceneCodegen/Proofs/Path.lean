import SceneCodegen.Path
import SceneCodegen.Proofs.Text.Cutting

/-!
# Paths and their texts

A path whose parts are steps without slashes is read back from its text, so such paths are told
apart by their texts.
-/
namespace SceneCodegen.Path

/-- A part of a path, as reading one leaves it. -/
structure IsPart (part : String) : Prop where
  step : isStep part = true
  slashless : '/' ∉ part.toList

theorem IsPart.ne_empty {part : String} (h : IsPart part) : part ≠ "" := by
  rintro rfl
  exact absurd h.step (by decide)

/-- The parts of a path that was read from a text. -/
def IsPlain (p : Path) : Prop := ∀ part ∈ p.parts, IsPart part

theorem notMem_of_mem_fields {sep : Char} {cs part : List Char} (h : part ∈ Text.fields sep cs) :
    sep ∉ part := by
  induction cs generalizing part with
  | nil => simp_all [Text.fields]
  | cons c cs ih =>
    rw [Text.fields] at h
    split at h
    · obtain rfl | h := List.mem_cons.mp h
      · exact List.not_mem_nil
      · exact ih h
    · rename_i hc
      obtain ⟨first, parts, hfields⟩ := List.exists_cons_of_ne_nil (Text.fields_ne_nil sep cs)
      rw [hfields] at h ih
      obtain rfl | h := List.mem_cons.mp h
      · have hne : sep ≠ c := fun e => hc (beq_iff_eq.mpr e.symm)
        simpa [hne] using ih List.mem_cons_self
      · exact ih (List.mem_cons_of_mem first h)

theorem isPlain_ofText (s : String) : (ofText s).IsPlain := by
  intro part hpart
  obtain ⟨hmem, hstep⟩ := List.mem_filter.mp hpart
  obtain ⟨cs, hcs, rfl⟩ := List.mem_map.mp hmem
  exact ⟨hstep, by simpa using notMem_of_mem_fields hcs⟩

theorem anchorOf_append (a : Anchor) {cs : List Char} (h : cs.head? ≠ some '/') :
    anchorOf (a.text.toList ++ cs) = a := by
  have hstop : cs.takeWhile (· == '/') = [] := by
    cases cs with
    | nil => rfl
    | cons c cs => simpa using h
  cases a <;> simp [anchorOf, Anchor.text, hstop]

/-- Names joined by slashes are cut apart again. -/
theorem fields_join {parts : List String} (hne : parts ≠ []) (h : ∀ part ∈ parts, IsPart part) :
    Text.fields '/' (Text.join "/" parts).toList = parts.map String.toList := by
  have hjoin : (Text.join "/" parts).toList =
      List.intercalate ['/'] (parts.map String.toList) := by
    rw [Text.join, String.toList_intercalate]
    rfl
  rw [hjoin]
  refine Text.fields_intercalate (by simpa using hne) fun cs hcs => ?_
  obtain ⟨part, hpart, rfl⟩ := List.mem_map.mp hcs
  exact (h part hpart).slashless

theorem filter_fields_append (a : Anchor) (cs : List Char) :
    ((Text.fields '/' (a.text.toList ++ cs)).map String.ofList).filter isStep =
      ((Text.fields '/' cs).map String.ofList).filter isStep := by
  have hempty : isStep (String.ofList []) = false := by decide
  cases a <;> simp [Anchor.text, Text.fields, hempty]

theorem head?_join {part : String} {parts : List String} (h : IsPart part) :
    (Text.join "/" (part :: parts)).toList.head? ≠ some '/' := by
  rw [Text.join, String.toList_intercalate]
  obtain ⟨c, cs, hcs⟩ := List.exists_cons_of_ne_nil
    (mt String.toList_eq_nil_iff.mp h.ne_empty)
  have hc : c ≠ '/' := by
    rintro rfl
    exact h.slashless (by simp [hcs])
  cases parts with
  | nil => simpa [hcs] using hc
  | cons next parts => simpa [List.intercalate_cons_cons, hcs] using hc

theorem text_of_ne_nil (a : Anchor) {parts : List String} (h : parts ≠ []) :
    text ⟨a, parts⟩ = a.text ++ Text.join "/" parts := by
  cases parts with
  | nil => exact absurd rfl h
  | cons part parts => cases a <;> rfl

/-- A path with plain parts is read back from its text. -/
theorem ofText_text {p : Path} (h : p.IsPlain) : ofText p.text = p := by
  rcases p with ⟨a, parts⟩
  cases parts with
  | nil => cases a <;> decide
  | cons part parts =>
    have hsteps : (part :: parts).filter isStep = part :: parts :=
      List.filter_eq_self.mpr fun q hq => (h q hq).step
    rw [ofText, Text.split, text_of_ne_nil a (List.cons_ne_nil part parts), String.toList_append,
      anchorOf_append a (head?_join (h part List.mem_cons_self)), filter_fields_append,
      fields_join (List.cons_ne_nil part parts) h, List.map_map]
    simpa using hsteps

theorem text_injective {p q : Path} (hp : p.IsPlain) (hq : q.IsPlain) (h : p.text = q.text) :
    p = q := by
  rw [← ofText_text hp, ← ofText_text hq, h]

/-- The path of a single name. -/
theorem ofText_part {name : String} (h : IsPart name) : ofText name = ⟨.relative, [name]⟩ := by
  have hplain : IsPlain ⟨.relative, [name]⟩ := by
    intro part hpart
    exact List.mem_singleton.mp hpart ▸ h
  simpa [text, Anchor.text, Text.join] using ofText_text hplain

/-- Names behind a path are kept when its parent steps are taken back, if none of them is one. -/
theorem collapse_append (parts : List String) {names : List String} (h : ".." ∉ names) :
    collapse (parts ++ names) = collapse parts ++ names := by
  have hfold (done : List String) : names.foldl
      (fun done part => if part == ".." then done.drop 1 else part :: done) done =
        names.reverse ++ done := by
    induction names generalizing done with
    | nil => rfl
    | cons name names ih =>
      obtain ⟨hname, hnames⟩ := not_or.mp (mt List.mem_cons.mpr h)
      have hne : (name == "..") = false := by simpa using Ne.symm hname
      rw [List.foldl_cons, hne, if_neg Bool.false_ne_true, ih hnames]
      simp
  rw [collapse, List.foldl_append, hfold, List.reverse_append, List.reverse_reverse, collapse]

theorem collapse_eq_self {parts : List String} (h : ".." ∉ parts) : collapse parts = parts := by
  simpa [collapse_nil] using collapse_append [] h

theorem mem_of_mem_collapse {parts : List String} {part : String} (h : part ∈ collapse parts) :
    part ∈ parts := by
  have hfold (parts done : List String) (h : part ∈ parts.foldl
      (fun done part => if part == ".." then done.drop 1 else part :: done) done) :
      part ∈ done ∨ part ∈ parts := by
    induction parts generalizing done with
    | nil => exact .inl h
    | cons next parts ih =>
      rw [List.foldl_cons] at h
      split at h
      · exact (ih _ h).imp List.mem_of_mem_drop (List.mem_cons_of_mem next)
      · obtain hdone | hparts := ih _ h
        · obtain rfl | hdone := List.mem_cons.mp hdone
          · exact .inr List.mem_cons_self
          · exact .inl hdone
        · exact .inr (List.mem_cons_of_mem next hparts)
  exact (hfold parts [] (List.mem_reverse.mp h)).resolve_left List.not_mem_nil

/-- Parent steps are taken back, all of them. -/
theorem parent_notMem_collapse (parts : List String) : ".." ∉ collapse parts := by
  have hfold (done : List String) (hdone : ".." ∉ done) : ".." ∉ parts.foldl
      (fun done part => if part == ".." then done.drop 1 else part :: done) done := by
    induction parts generalizing done with
    | nil => exact hdone
    | cons part parts ih =>
      rw [List.foldl_cons]
      split
      · exact ih _ fun hmem => hdone (List.mem_of_mem_drop hmem)
      · next hpart =>
        refine ih _ fun hmem => (List.mem_cons.mp hmem).elim (fun hparent => hpart ?_) hdone
        exact beq_iff_eq.mpr hparent.symm
  rw [collapse, List.mem_reverse]
  exact hfold [] List.not_mem_nil

theorem IsPlain.join {p q : Path} (hp : p.IsPlain) (hq : q.IsPlain) : (p.join q).IsPlain := by
  unfold Path.join
  split
  · exact hq
  · intro part hpart
    exact (List.mem_append.mp hpart).elim (hp part) (hq part)

theorem IsPlain.absolute {directory p : Path} (hdirectory : directory.IsPlain) (hp : p.IsPlain) :
    (Path.absolute directory p).IsPlain := fun part hpart =>
  hdirectory.join hp part (mem_of_mem_collapse hpart)

theorem isPlain_ofHome (home : String) : (ofHome home).IsPlain := by
  unfold ofHome
  split
  · exact nofun
  · exact isPlain_ofText home

/-- Homes are written out in plain names. -/
theorem IsPlain.expandUser {homeOf : String → Option String} {p q : Path} (hp : p.IsPlain)
    (h : p.expandUser? homeOf = some q) : q.IsPlain := by
  unfold expandUser? at h
  split at h
  · obtain rfl := Option.some.inj h
    exact hp
  · split at h
    · cases h
    · next home _ =>
      split at h
      · cases h
      · obtain rfl := Option.some.inj h
        intro part hpart
        exact (List.mem_append.mp hpart).elim (isPlain_ofHome home part)
          fun hpart => hp part (List.mem_of_mem_drop hpart)

end SceneCodegen.Path
