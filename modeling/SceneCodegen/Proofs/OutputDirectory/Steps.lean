import Mathlib.Data.List.Sort
import Mathlib.Data.String.Basic
import SceneCodegen.OutputDirectory
import SceneCodegen.Proofs.FileTree.Making
import SceneCodegen.Proofs.Text.Encoding

/-!
# Looking at an output directory and changing its files

What is outdated and what is stale is told by the files of the directory alone. Files are written
and removed one after another, each change touching one name, so what a list of changes leaves is
told name by name.
-/
namespace SceneCodegen.OutputDirectory
open FileTree

variable {fragments : List GeneratedFragment} {directory : Path} {t t' : FileTree} {place : Place}

/-- Whether the file of a fragment is missing or does not read as its text. -/
def isBehind (place : Place) (t : FileTree) (f : GeneratedFragment) : Bool :=
  match t.at? (place ++ [f.hintName]) with
  | some (.file bytes) =>
    match FileTree.textOf bytes with
    | .ok text => text != f.text
    | .error _ => true
  | _ => true

/-- The bytes of a text, as far as they are one. -/
def IsText (bytes : List UInt8) : Prop := ∃ s, FileTree.textOf bytes = .ok s

theorem isText_encode (s : String) : IsText (Text.Utf8.encode s) := by
  rw [IsText, FileTree.textOf, Text.Utf8.decode_encode]
  exact ⟨_, rfl⟩

theorem textOf_encode (s : String) :
    FileTree.textOf (Text.Utf8.encode s) =
      .ok (String.ofList (Text.plainLineEnds s.toList)) := by
  rw [FileTree.textOf, Text.Utf8.decode_encode]

theorem isOutdated_eq (h : Opens directory t place) {f : GeneratedFragment}
    (hreach : Reaches directory f.hintName)
    (htext : ∀ bytes, t.at? (place ++ [f.hintName]) = some (.file bytes) → IsText bytes) :
    isOutdated directory t f = .ok (isBehind place t f) := by
  simp only [isOutdated, target, h.isFile_join hreach, isBehind]
  cases hat : t.at? (place ++ [f.hintName]) with
  | none => rfl
  | some e =>
    cases e with
    | directory => rfl
    | file bytes =>
      obtain ⟨s, hs⟩ := htext bytes hat
      simp only [h.readText_join hreach hat, hs]
      rfl

theorem isOutdated_undecodable (h : Opens directory t place) {f : GeneratedFragment}
    (hreach : Reaches directory f.hintName) {bytes : List UInt8}
    (hat : t.at? (place ++ [f.hintName]) = some (.file bytes)) (htext : ¬IsText bytes) :
    ∃ e, isOutdated directory t f = .error (.undecodable e) := by
  simp only [isOutdated, target, h.isFile_join hreach, hat, h.readText_join hreach hat]
  unfold IsText FileTree.textOf at htext
  unfold FileTree.textOf
  cases hdecode : Text.Utf8.decode bytes with
  | ok s =>
    rw [hdecode] at htext
    exact absurd ⟨_, rfl⟩ htext
  | error e => exact ⟨e, rfl⟩

theorem filterAuxM_eq_ok {ε α : Type} {p : α → Except ε Bool} {q : α → Bool} {l : List α}
    (h : ∀ a ∈ l, p a = .ok (q a)) (kept : List α) :
    List.filterAuxM p l kept = .ok ((l.filter q).reverse ++ kept) := by
  induction l generalizing kept with
  | nil => rfl
  | cons a l ih =>
    have ih := ih fun b hb => h b (List.mem_cons_of_mem a hb)
    simp only [List.filterAuxM, h a List.mem_cons_self, bind, Except.bind]
    cases hq : q a <;> simp [hq, ih]

theorem filterM_eq_ok {ε α : Type} {p : α → Except ε Bool} {q : α → Bool} {l : List α}
    (h : ∀ a ∈ l, p a = .ok (q a)) : l.filterM p = .ok (l.filter q) := by
  simp [List.filterM, filterAuxM_eq_ok h, bind, Except.bind, pure, Except.pure]

theorem exists_error_of_filterAuxM {ε α : Type} {p : α → Except ε Bool} {l : List α} {a : α}
    (ha : a ∈ l) {e : ε} (h : p a = .error e) (kept : List α) :
    ∃ b ∈ l, ∃ e', p b = .error e' ∧ List.filterAuxM p l kept = .error e' := by
  induction l generalizing kept with
  | nil => cases ha
  | cons b l ih =>
    cases hb : p b with
    | error e' => exact ⟨b, List.mem_cons_self, e', hb,
        by simp [List.filterAuxM, hb, bind, Except.bind]⟩
    | ok keeps =>
      have ha : a ∈ l := by
        obtain rfl | ha := List.mem_cons.mp ha
        · rw [h] at hb
          cases hb
        · exact ha
      obtain ⟨c, hc, e', he', hfilter⟩ := ih ha (cond keeps (b :: kept) kept)
      refine ⟨c, List.mem_cons_of_mem b hc, e', he', ?_⟩
      simpa [List.filterAuxM, hb, bind, Except.bind] using hfilter

/-- A test that fails somewhere fails with the cause that is met first. -/
theorem exists_error_of_filterM {ε α : Type} {p : α → Except ε Bool} {l : List α} {a : α}
    (ha : a ∈ l) {e : ε} (h : p a = .error e) :
    ∃ b ∈ l, ∃ e', p b = .error e' ∧ l.filterM p = .error e' := by
  obtain ⟨b, hb, e', he', hfilter⟩ := exists_error_of_filterAuxM ha h []
  exact ⟨b, hb, e', he', by simp [List.filterM, hfilter, bind, Except.bind]⟩

/-- Which names are outdated hangs on the files alone, once each of them reads as a text. -/
theorem outdated_eq (h : Opens directory t place)
    (hreach : ∀ f ∈ fragments, Reaches directory f.hintName)
    (htext : ∀ f ∈ fragments, ∀ bytes,
      t.at? (place ++ [f.hintName]) = some (.file bytes) → IsText bytes) :
    outdated fragments directory t =
      .ok ((fragments.filter (isBehind place t)).map (·.hintName)) := by
  rw [outdated, filterM_eq_ok fun f hf => isOutdated_eq h (hreach f hf) (htext f hf)]
  rfl

/-- The generated files of a directory that no fragment stands for. -/
def IsStale (fragments : List GeneratedFragment) (place : Place) (t : FileTree) (name : String) :
    Prop :=
  Text.hasSuffix generatedSuffix name = true ∧
    (∃ bytes, t.at? (place ++ [name]) = some (.file bytes)) ∧
      ∀ f ∈ fragments, f.hintName ≠ name

/-- Names in order, each once. -/
structure Names (p : String → Prop) (names : List String) : Prop where
  sorted : names.Pairwise (· < ·)
  mem_iff : ∀ name, name ∈ names ↔ p name

theorem Names.unique {p : String → Prop} {names names' : List String} (h : Names p names)
    (h' : Names p names') : names = names' :=
  h.sorted.eq_of_mem_iff h'.sorted fun name => (h.mem_iff name).trans (h'.mem_iff name).symm

theorem Names.nodup {p : String → Prop} {names : List String} (h : Names p names) :
    names.Nodup :=
  h.sorted.imp fun hlt => ne_of_lt hlt

theorem names_nil {p : String → Prop} (h : ∀ name, ¬p name) : Names p [] :=
  ⟨List.Pairwise.nil, fun name => ⟨nofun, fun hname => absurd hname (h name)⟩⟩

theorem isDirectory_of_opens (h : Opens directory t place) :
    t.isDirectory directory = .ok true := by
  simp [isDirectory, probe, entry, h.locate, h.isDirectory, bind, Except.bind]

theorem exists_stale (fragments : List GeneratedFragment) (ht : t.Sound)
    (h : Opens directory t place) :
    ∃ names, stale fragments directory t = .ok names ∧
      Names (IsStale fragments place t) names := by
  rw [stale, isDirectory_of_opens h]
  refine ⟨_, rfl, ?_, fun name => ?_⟩
  · refine ((pairwise_mergeSort_names id _).and ?_).imp fun hab => lt_of_le_of_ne hab.1 hab.2
    refine (List.mergeSort_perm _ _).nodup_iff.mpr ?_
    exact ((nodup_fileNames ht directory).filter _).filter _
  · simp only [List.mem_mergeSort, List.mem_filter, h.mem_fileNames_iff ht, IsStale]
    rw [and_comm (a := ∃ bytes, _), and_assoc]
    simp

/-- A later tree in which some files of a directory have been given new content. -/
structure Rewritten (place : Place) (names : List String) (content : String → Option FileEntry)
    (t t' : FileTree) : Prop where
  sound : t'.Sound
  keeps : Keeps t t'
  named : ∀ name ∈ names, t'.at? (place ++ [name]) = content name
  rest : ∀ q, (∀ name ∈ names, q ≠ place ++ [name]) → t'.at? q = t.at? q

theorem Rewritten.other {names : List String} {content : String → Option FileEntry}
    (h : Rewritten place names content t t') {name : String} (hname : name ∉ names) :
    t'.at? (place ++ [name]) = t.at? (place ++ [name]) := by
  refine h.rest _ fun other hother he => hname ?_
  have hlast := List.append_cancel_left he
  exact List.singleton_injective hlast ▸ hother

/-- Steps that each change the file of one name, over a list of different names. -/
theorem changeEach_ok {step : String → FileTree → Except FileFault FileTree}
    {content : String → Option FileEntry} (fits : Option FileEntry → Prop) {names : List String}
    (hstep : ∀ name ∈ names, ∀ t : FileTree, t.Sound → Opens directory t place →
      fits (t.at? (place ++ [name])) →
        ∃ t', step name t = .ok t' ∧ Rewritten place [name] content t t')
    (hnodup : names.Nodup) (ht : t.Sound) (h : Opens directory t place)
    (hfits : ∀ name ∈ names, fits (t.at? (place ++ [name]))) :
    ∃ t', changeEach step names t = (.ok (), t') ∧ Rewritten place names content t t' := by
  induction names generalizing t with
  | nil => exact ⟨t, rfl, ht, Keeps.refl t, nofun, fun _ _ => rfl⟩
  | cons name names ih =>
    obtain ⟨hfresh, hnodup⟩ := List.nodup_cons.mp hnodup
    obtain ⟨t₁, hfirst, hchanged⟩ :=
      hstep name List.mem_cons_self t ht h (hfits name List.mem_cons_self)
    have hother (n : String) (hn : n ∈ names) :
        t₁.at? (place ++ [n]) = t.at? (place ++ [n]) := by
      refine hchanged.other fun hmem => hfresh ?_
      exact List.mem_singleton.mp hmem ▸ hn
    obtain ⟨t₂, hlater, hrest⟩ :=
      ih (fun n hn => hstep n (List.mem_cons_of_mem name hn)) hnodup hchanged.sound
        (h.keep hchanged.keeps)
        fun n hn => hother n hn ▸ hfits n (List.mem_cons_of_mem name hn)
    refine ⟨t₂, ?_, hrest.sound, hchanged.keeps.trans hrest.keeps, fun n hn => ?_, fun q hq => ?_⟩
    · rw [changeEach, hfirst]
      exact hlater
    · obtain rfl | hn := List.mem_cons.mp hn
      · rw [hrest.other hfresh]
        exact hchanged.named n (List.mem_singleton_self n)
      · exact hrest.named n hn
    · rw [hrest.rest q fun n hn => hq n (List.mem_cons_of_mem name hn)]
      refine hchanged.rest q fun n hn => hq n ?_
      exact List.mem_singleton.mp hn ▸ List.mem_cons_self

theorem rewritten_set (ht : t.Sound) (h : Opens directory t place) {name : String}
    (hname : IsName name) (hfree : t.at? (place ++ [name]) ≠ some .directory) {e : FileEntry}
    {content : String → Option FileEntry} (hcontent : content name = some e) :
    Rewritten place [name] content t (t.set (place ++ [name]) e) := by
  have hne : place ++ [name] ≠ [] := by simp
  refine ⟨ht.set h.isDirectory hname hfree, Keeps.set hne hfree e, fun n hn => ?_, fun q hq => ?_⟩
  · obtain rfl := List.mem_singleton.mp hn
    rw [at?_set hne, if_pos rfl, hcontent]
  · rw [at?_set hne, if_neg (hq name (List.mem_singleton_self name))]

theorem rewritten_erase (ht : t.Sound) {name : String}
    (hfree : t.at? (place ++ [name]) ≠ some .directory) {content : String → Option FileEntry}
    (hcontent : content name = none) :
    Rewritten place [name] content t ⟨t.entries.erase (place ++ [name])⟩ := by
  have hne : place ++ [name] ≠ [] := by simp
  refine ⟨ht.erase hne hfree, Keeps.erase hne hfree, fun n hn => ?_, fun q hq => ?_⟩
  · obtain rfl := List.mem_singleton.mp hn
    rw [at?_erase hne, if_pos rfl, hcontent]
  · rw [at?_erase hne, if_neg (hq name (List.mem_singleton_self name))]

theorem writeEach_ok {names : List String} (hreach : ∀ name ∈ names, Reaches directory name)
    (hnodup : names.Nodup) (ht : t.Sound) (h : Opens directory t place)
    (hfree : ∀ name ∈ names, t.at? (place ++ [name]) ≠ some .directory) :
    ∃ t', writeEach fragments directory names t = (.ok (), t') ∧
      Rewritten place names
        (fun name => some (.file (Text.Utf8.encode (textOf fragments name)))) t t' := by
  refine changeEach_ok (fun e => e ≠ some .directory)
    (fun name hname t ht h hfree => ?_) hnodup ht h hfree
  exact ⟨_, h.write_join (hreach name hname) hfree _,
    rewritten_set ht h (hreach name hname).isName hfree rfl⟩

theorem removeEach_ok {names : List String} (hreach : ∀ name ∈ names, Reaches directory name)
    (hnodup : names.Nodup) (ht : t.Sound) (h : Opens directory t place)
    (hfile : ∀ name ∈ names, ∃ bytes, t.at? (place ++ [name]) = some (.file bytes)) :
    ∃ t', removeEach directory names t = (.ok (), t') ∧
      Rewritten place names (fun _ => none) t t' := by
  refine changeEach_ok (fun e => ∃ bytes, e = some (.file bytes))
    (fun name hname t ht h hfile => ?_) hnodup ht h hfile
  obtain ⟨bytes, hfile⟩ := hfile
  exact ⟨_, h.remove_join (hreach name hname) hfile, rewritten_erase ht (by simp [hfile]) rfl⟩

end SceneCodegen.OutputDirectory
