import SceneCodegen.FileTree
import SceneCodegen.Proofs.Path
import SceneCodegen.Proofs.Table

/-!
# Sound file trees

In a sound tree every place has one entry, with names as the system allows them, in a directory.
Making directories, writing and removing files keep a tree sound and change one place at a time; a
walk that came through goes on to do so as long as the directories are kept.
-/
namespace SceneCodegen.FileTree

@[simp] theorem at?_nil (t : FileTree) : t.at? [] = some .directory := rfl

theorem at?_of_ne_nil {place : Place} (h : place ≠ []) (t : FileTree) :
    t.at? place = t.entries.get? place := by
  simp [at?, h]

theorem at?_set {place : Place} (h : place ≠ []) (e : FileEntry) (t : FileTree) (q : Place) :
    (t.set place e).at? q = if q = place then some e else t.at? q := by
  by_cases hq : q = []
  · subst hq
    simp [Ne.symm h]
  · rw [at?_of_ne_nil hq, at?_of_ne_nil hq, set]
    split
    · next he => rw [he, Table.get?_set_self]
    · next hne => exact Table.get?_set_of_ne (Ne.symm hne) e t.entries

theorem at?_erase {place : Place} (h : place ≠ []) (t : FileTree) (q : Place) :
    (FileTree.mk (t.entries.erase place)).at? q = if q = place then none else t.at? q := by
  by_cases hq : q = []
  · subst hq
    simp [Ne.symm h]
  · rw [at?_of_ne_nil hq, at?_of_ne_nil hq]
    show Table.get? q (List.filter (fun entry => !(entry.1 == place)) t.entries) = _
    have hfilter := Table.get?_filter q (fun k => !(k == place)) t.entries
    by_cases he : q = place
    · simpa [he] using hfilter
    · simpa [he] using hfilter

/-- A name that the system gives a file. -/
structure IsName (name : String) : Prop extends Path.IsPart name where
  notParent : name ≠ ".."
  notNull : '\x00' ∉ name.toList
  short : isTooLong name = false

instance (name : String) : Decidable (IsName name) :=
  decidable_of_iff ((Path.isStep name = true ∧ '/' ∉ name.toList) ∧ name ≠ ".." ∧
      '\x00' ∉ name.toList ∧ isTooLong name = false)
    ⟨fun h => ⟨⟨h.1.1, h.1.2⟩, h.2.1, h.2.2.1, h.2.2.2⟩,
      fun h => ⟨⟨h.step, h.slashless⟩, h.notParent, h.notNull, h.short⟩⟩

structure Sound (t : FileTree) : Prop where
  nodup : t.entries.keys.Nodup
  names : ∀ place ∈ t.entries.keys, ∀ name ∈ place, IsName name
  parents : ∀ place ∈ t.entries.keys, t.at? place.dropLast = some .directory

instance (t : FileTree) : Decidable t.Sound :=
  decidable_of_iff (t.entries.keys.Nodup ∧
      (∀ place ∈ t.entries.keys, ∀ name ∈ place, IsName name) ∧
      ∀ place ∈ t.entries.keys, t.at? place.dropLast = some .directory)
    ⟨fun h => ⟨h.1, h.2.1, h.2.2⟩, fun h => ⟨h.nodup, h.names, h.parents⟩⟩

theorem sound_empty : Sound {} := ⟨List.nodup_nil, nofun, nofun⟩

namespace Sound
variable {t : FileTree} {place : Place}

theorem mem_keys_of_at? (hne : place ≠ []) {e : FileEntry} (h : t.at? place = some e) :
    place ∈ t.entries.keys := by
  rw [at?_of_ne_nil hne] at h
  exact List.mem_map_of_mem (f := Prod.fst) (Table.mem_of_get? h)

theorem isName (ht : t.Sound) {e : FileEntry} (h : t.at? place = some e) {name : String}
    (hname : name ∈ place) : IsName name :=
  ht.names place (mem_keys_of_at? (List.ne_nil_of_mem hname) h) name hname

/-- Whatever is there is in a directory. -/
theorem parent (ht : t.Sound) {e : FileEntry} (h : t.at? place = some e) :
    t.at? place.dropLast = some .directory := by
  by_cases hne : place = []
  · subst hne
    rfl
  · exact ht.parents place (mem_keys_of_at? hne h)

/-- Nothing is below what is not a directory. -/
theorem at?_append_eq_none (ht : t.Sound) (h : t.at? place ≠ some .directory) {rest : Place}
    (hne : rest ≠ []) : t.at? (place ++ rest) = none := by
  induction rest using List.reverseRecOn with
  | nil => exact absurd rfl hne
  | append_singleton rest name ih =>
    by_contra hsome
    obtain ⟨e, he⟩ := Option.ne_none_iff_exists'.mp hsome
    have hparent := ht.parent he
    rw [← List.append_assoc, List.dropLast_concat] at hparent
    by_cases hrest : rest = []
    · subst hrest
      rw [List.append_nil] at hparent
      exact h hparent
    · rw [ih hrest] at hparent
      cases hparent

/-- Putting an entry where no directory stands, into a directory. -/
theorem set (ht : t.Sound) {e : FileEntry} {name : String}
    (hparent : t.at? place = some .directory) (hname : IsName name)
    (hfree : t.at? (place ++ [name]) ≠ some .directory) : (t.set (place ++ [name]) e).Sound := by
  have hne : place ++ [name] ≠ [] := by simp
  have hkeys : ∀ q ∈ (t.set (place ++ [name]) e).entries.keys,
      q = place ++ [name] ∨ q ∈ t.entries.keys := by
    intro q hq
    rw [FileTree.set, Table.keys_set] at hq
    split at hq
    · exact .inr hq
    · exact (List.mem_append.mp hq).symm.imp_left List.mem_singleton.mp
  have hkept (q : Place) (hq : t.at? q = some .directory) :
      (t.set (place ++ [name]) e).at? q = some .directory := by
    rw [at?_set hne, if_neg, hq]
    rintro rfl
    exact hfree hq
  refine ⟨Table.nodup_set _ _ ht.nodup, fun q hq part hpart => ?_, fun q hq => hkept _ ?_⟩
  · obtain rfl | hq := hkeys q hq
    · obtain hpart | hpart := List.mem_append.mp hpart
      · exact ht.isName hparent hpart
      · exact List.mem_singleton.mp hpart ▸ hname
    · exact ht.names q hq part hpart
  · obtain rfl | hq := hkeys q hq
    · rw [List.dropLast_concat, hparent]
    · exact ht.parents q hq

/-- Taking out what is not a directory. -/
theorem erase (ht : t.Sound) (hne : place ≠ []) (hfile : t.at? place ≠ some .directory) :
    (FileTree.mk (t.entries.erase place)).Sound := by
  have hsub : ∀ q ∈ Table.keys (t.entries.erase place), q ∈ t.entries.keys := by
    intro q hq
    obtain ⟨entry, hentry, rfl⟩ := List.mem_map.mp hq
    exact List.mem_map_of_mem (List.mem_filter.mp hentry).1
  refine ⟨ht.nodup.sublist (List.filter_sublist.map Prod.fst),
    fun q hq => ht.names q (hsub q hq), fun q hq => ?_⟩
  have hparent := ht.parents q (hsub q hq)
  rw [at?_erase hne, if_neg, hparent]
  intro he
  exact hfile (he ▸ hparent)

end Sound

/-- A later tree in which the directories still stand. -/
def Keeps (t t' : FileTree) : Prop := ∀ q, t.at? q = some .directory → t'.at? q = some .directory

namespace Keeps
variable {t t' t'' : FileTree}

theorem refl (t : FileTree) : Keeps t t := fun _ h => h

theorem trans (h : Keeps t t') (h' : Keeps t' t'') : Keeps t t'' := fun q hq => h' q (h q hq)

theorem set {place : Place} (hne : place ≠ []) (h : t.at? place ≠ some .directory)
    (e : FileEntry) : Keeps t (t.set place e) := by
  intro q hq
  rw [at?_set hne, if_neg, hq]
  rintro rfl
  exact h hq

theorem erase {place : Place} (hne : place ≠ []) (h : t.at? place ≠ some .directory) :
    Keeps t ⟨t.entries.erase place⟩ := by
  intro q hq
  rw [at?_erase hne, if_neg, hq]
  rintro rfl
  exact h hq

theorem walk (h : Keeps t t') {base place : Place} {names : List String}
    (hwalk : t.walk base names = .ok place) : t'.walk base names = .ok place := by
  induction names generalizing base with
  | nil => exact hwalk
  | cons name names ih =>
    rw [FileTree.walk] at hwalk ⊢
    cases hbase : t.at? base with
    | none =>
      rw [hbase] at hwalk
      cases hwalk
    | some e =>
      cases e with
      | file bytes =>
        rw [hbase] at hwalk
        cases hwalk
      | directory =>
        rw [hbase] at hwalk
        rw [h base hbase]
        dsimp only at hwalk ⊢
        split at hwalk
        · next hstep => rw [if_pos hstep, ih hwalk]
        · next hstep =>
          split at hwalk
          · cases hwalk
          · next hshort => rw [if_neg hstep, if_neg hshort, ih hwalk]

theorem locate (h : Keeps t t') {p directory : Path} {place : Place}
    (hlocate : t.locate p directory = .ok place) : t'.locate p directory = .ok place := by
  unfold FileTree.locate at hlocate ⊢
  split at hlocate
  · cases hlocate
  · next hnull =>
    split at hlocate
    · cases hlocate
    · next hlong => rw [if_neg hnull, if_neg hlong, h.walk hlocate]

end Keeps

theorem walk_append (t : FileTree) (base : Place) (names rest : List String) :
    t.walk base (names ++ rest) = (t.walk base names).bind fun place => t.walk place rest := by
  induction names generalizing base with
  | nil => rfl
  | cons name names ih =>
    rw [List.cons_append, walk, walk]
    cases t.at? base with
    | none => rfl
    | some e =>
      cases e with
      | file bytes => rfl
      | directory =>
        dsimp only
        split
        · exact ih _
        · split
          · rfl
          · exact ih _

/-- A step along a name that is no parent step. -/
theorem walk_cons_of_ne {name : String} (h : name ≠ "..") (t : FileTree) (base : Place)
    (names : List String) :
    t.walk base (name :: names) = match t.at? base with
      | none => .error .notFound
      | some (.file _) => .error .notDirectory
      | some .directory =>
        if isTooLong name then .error .nameTooLong else t.walk (base ++ [name]) names := by
  have hstep : (name == "..") = false := by simpa using h
  rw [walk, hstep]
  rfl

/-- Without parent steps a walk leads straight down. -/
theorem eq_append_of_walk {t : FileTree} {base place : Place} {names : List String}
    (hdown : ".." ∉ names) (h : t.walk base names = .ok place) : place = base ++ names := by
  induction names generalizing base with
  | nil => simpa [walk] using (Except.ok.inj h).symm
  | cons name names ih =>
    obtain ⟨hname, hnames⟩ := not_or.mp (mt List.mem_cons.mpr hdown)
    rw [walk_cons_of_ne (Ne.symm hname)] at h
    split at h
    · cases h
    · cases h
    · split at h
      · cases h
      · simpa using ih hnames h

/-- Where a straight walk finds nothing, nothing is below its end either. -/
theorem at?_eq_none_of_walk {t : FileTree} (ht : t.Sound) {base : Place} {names : List String}
    (hdown : ".." ∉ names) (h : t.walk base names = .error .notFound) (rest : Place) :
    t.at? (base ++ names ++ rest) = none := by
  induction names generalizing base with
  | nil => cases h
  | cons name names ih =>
    obtain ⟨hname, hnames⟩ := not_or.mp (mt List.mem_cons.mpr hdown)
    rw [walk_cons_of_ne (Ne.symm hname)] at h
    split at h
    · next hnone =>
      rw [List.append_assoc]
      exact ht.at?_append_eq_none (by simp [hnone]) (by simp)
    · cases h
    · split at h
      · cases h
      · simpa using ih hnames h

theorem join_rootParts (p : Path) : (Path.join ⟨.root, []⟩ p).parts = p.parts := by
  unfold Path.join
  split <;> simp

theorem locate_eq {p : Path} {t : FileTree} {place : Place} (h : t.locate p = .ok place) :
    p.hasNull = false ∧ isPathTooLong p = false ∧ t.walk [] p.parts = .ok place := by
  unfold locate at h
  split at h
  · cases h
  · next hnull =>
    split at h
    · cases h
    · next hlong =>
      rw [join_rootParts] at h
      exact ⟨by simpa using hnull, by simpa using hlong, h⟩

theorem locate_of_walk {p : Path} {t : FileTree} {r : Except FileFault.Cause Place}
    (hnull : p.hasNull = false) (hlong : isPathTooLong p = false) (h : t.walk [] p.parts = r) :
    t.locate p = r := by
  rw [locate, hnull, hlong, join_rootParts]
  exact h

end SceneCodegen.FileTree
