import Mathlib.Data.List.Perm.Basic
import SceneCodegen.Proofs.AssetFiles
import SceneCodegen.Proofs.Generation.Feeding
import SceneCodegen.Proofs.Symbol.Merging
import SceneCodegen.Symbol.Document

/-!
# Orders of arrival

The entries of a symbol document may come in any order that keeps the parts of each lookup name in
theirs, and assets with different paths in any order at all: the document is refused either way or
makes the same table, and a generator that is given all this comes to the same result. For types
that are told apart by more than their lookup names, a class and a generic class of one name, the
order of their entries does matter, since they are put together.
-/
namespace SceneCodegen

namespace Checked
variable {α : Type} {form : Form α} {xs : List Json}

def valid? : Checked α → Option α
  | valid a => some a
  | invalid _ => none

theorem itemsFrom_of_valid (h : ∀ x ∈ xs, (form x).valid?.isSome) (index : Nat) :
    itemsFrom form index xs = .valid (xs.filterMap fun x => (form x).valid?) := by
  induction xs generalizing index with
  | nil => rfl
  | cons x rest ih =>
    rw [itemsFrom, ih fun y hy => h y (List.mem_cons_of_mem x hy), List.filterMap_cons]
    cases hx : form x with
    | valid a => rfl
    | invalid issues =>
      have hsome := h x List.mem_cons_self
      rw [hx] at hsome
      cases hsome

theorem itemsFrom_of_invalid {x : Json} (hx : x ∈ xs) (h : (form x).valid? = none) (index : Nat) :
    ∃ issues, itemsFrom form index xs = .invalid issues := by
  induction xs generalizing index with
  | nil => cases hx
  | cons y rest ih =>
    rw [itemsFrom]
    rcases List.mem_cons.mp hx with rfl | hrest
    · cases hform : form x with
      | valid a =>
        rw [hform] at h
        cases h
      | invalid issues =>
        cases itemsFrom form (index + 1) rest <;> exact ⟨_, rfl⟩
    · obtain ⟨issues, hissues⟩ := ih hrest (index + 1)
      rw [hissues]
      cases form y <;> exact ⟨_, rfl⟩

end Checked

namespace Symbol

/-- A document with these entries for its types, and whatever else. -/
def documentOf (entries : List Json) (others : List (String × Json)) : Json :=
  .object (("types", .list entries) :: others)

/-- Documents are read entry by entry. One is refused if any of its entries is, and otherwise has
the parts of its entries, in their order. -/
structure ReadsEntries (read : SymbolTable.Reader) (part? : Json → Option Part) : Prop where
  accepts {entries : List Json} (others : List (String × Json)) :
    (∀ x ∈ entries, (part? x).isSome) →
      read (documentOf entries others) = .ok (entries.filterMap part?)
  refuses {entries : List Json} (others : List (String × Json)) {x : Json} :
    x ∈ entries → part? x = none → ∃ issues, read (documentOf entries others) = .error issues

theorem reader_documentOf (entries : List Json) (others : List (String × Json)) :
    reader (documentOf entries others) =
      ((Checked.itemsFrom part 0 entries).under (.field "types")).toExcept := rfl

theorem readsEntries_reader : ReadsEntries reader fun x => (part x).valid? where
  accepts others h := by
    rw [reader_documentOf, Checked.itemsFrom_of_valid h]
    rfl
  refuses others _ hx h := by
    obtain ⟨issues, hissues⟩ := Checked.itemsFrom_of_invalid hx h 0
    rw [reader_documentOf, hissues]
    exact ⟨_, rfl⟩

/-- What tells types apart: the assembly and the full name. -/
def identity (p : Part) : String × String := (p.assembly, p.qualifiedName)

end Symbol

open Symbol

namespace SymbolTable

section
variable {read : Reader} {part? : Json → Option Part} (hread : ReadsEntries read part?)
  {entries : List Json} (others : List (String × Json))
include hread

theorem ofDocument_of_valid (h : ∀ x ∈ entries, (part? x).isSome) :
    ofDocument read (documentOf entries others) = ofParts (entries.filterMap part?) := by
  rw [ofDocument, hread.accepts others h]
  rfl

theorem ofDocument_of_invalid {x : Json} (hx : x ∈ entries) (h : part? x = none) :
    ∃ e, ofDocument read (documentOf entries others) = .error e := by
  obtain ⟨issues, hissues⟩ := hread.refuses others hx h
  rw [ofDocument, hissues]
  exact ⟨_, rfl⟩

end

/-- The parts of each type come in the same order. -/
def SameOrder {ι : Type} [DecidableEq ι] (type : Part → ι) (parts parts' : List Part) : Prop :=
  ∀ i, (parts.filter fun p => type p = i) = parts'.filter fun p => type p = i

/-- Under a lookup name stands what the parts of this name make. -/
theorem get?_merged (parts : List Part) (n : String) :
    Table.get? n ((group parts).filterMap mergeGroup) =
      (mergeGroup (n, partsOf Declaration.lookupName parts n)).map Prod.snd := by
  by_cases hn : n ∈ (parts.map fun p => p.lookupName).eraseDups
  · obtain ⟨s, hs, -⟩ := exists_mergeGroup hn
    have hmem : (n, s) ∈ (group parts).filterMap mergeGroup := by
      rw [group_eq, List.filterMap_map]
      exact List.mem_filterMap.mpr ⟨n, hn, hs⟩
    have hnodup : (Table.keys ((group parts).filterMap mergeGroup)).Nodup := by
      rw [keys_merged]
      exact Table.nodup_eraseDups _
    rw [Table.get?_of_mem hnodup hmem, hs]
    rfl
  · have hnone : partsOf Declaration.lookupName parts n = [] := by
      rw [partsOf, List.filter_eq_nil_iff]
      intro p hp hname
      refine hn (List.mem_eraseDups.mpr (List.mem_map.mpr ⟨p, hp, ?_⟩))
      exact of_decide_eq_true hname
    have hkeys : n ∉ Table.keys ((group parts).filterMap mergeGroup) := by rwa [keys_merged]
    rw [Table.get?_eq_none_iff.mpr hkeys, hnone, mergeGroup]
    rfl

theorem Clashing.perm {name : Declaration → String} {parts parts' : List Part}
    (h : Clashing name parts) (hperm : parts.Perm parts') : Clashing name parts' := by
  obtain ⟨p, hp, q, hq, hpq⟩ := h
  exact ⟨p, hperm.mem_iff.mp hp, q, hperm.mem_iff.mp hq, hpq⟩

/-- Parts are refused in every order, or make the same table in each that keeps those of every
lookup name in theirs. -/
theorem ofParts_reordered {parts parts' : List Part} (hperm : parts.Perm parts')
    (horder : ¬ Clashing Declaration.lookupName parts →
      SameOrder (fun p => p.lookupName) parts parts') :
    (∃ e e', ofParts parts = .error e ∧ ofParts parts' = .error e') ∨
      ∃ symbols symbols', ofParts parts = .ok symbols ∧ ofParts parts' = .ok symbols' ∧
        Table.Same symbols symbols' := by
  by_cases hclash : Clashing Declaration.lookupName parts
  · obtain ⟨n, a, b, he⟩ := ofParts_of_clash hclash
    obtain ⟨n', a', b', he'⟩ := ofParts_of_clash (hclash.perm hperm)
    exact .inl ⟨_, _, he, he'⟩
  · have hok := ofParts_of_not_clash hclash
    have hok' := ofParts_of_not_clash fun h => hclash (h.perm hperm.symm)
    refine .inr ⟨_, _, hok, hok', (keyed_ofParts hok).nodup, (keyed_ofParts hok').nodup,
      fun n => ?_⟩
    rw [get?_merged, get?_merged]
    exact congrArg (fun ps => (mergeGroup (n, ps)).map Prod.snd) (horder hclash n)

/-- Where no two types share a lookup name, the order of the parts of each type is that of the parts
of each lookup name. -/
theorem SameOrder.of_identity {parts parts' : List Part} (hperm : parts.Perm parts')
    (hnames : ∀ p ∈ parts, ∀ q ∈ parts, p.lookupName = q.lookupName → identity p = identity q)
    (h : SameOrder identity parts parts') :
    SameOrder (fun p => p.lookupName) parts parts' := by
  intro n
  by_cases hn : ∃ p ∈ parts, p.lookupName = n
  · obtain ⟨p, hp, rfl⟩ := hn
    have hrefine : ∀ l : List Part, (∀ q ∈ l, q ∈ parts) →
        (l.filter fun q => q.lookupName = p.lookupName) =
          (l.filter fun q => identity q = identity p).filter fun q =>
            q.lookupName = p.lookupName := by
      intro l hl
      rw [List.filter_filter]
      refine List.filter_congr fun q hq => ?_
      by_cases hname : q.lookupName = p.lookupName
      · simp [hname, hnames q (hl q hq) p hp hname]
      · simp [hname]
    rw [hrefine parts fun q hq => hq, hrefine parts' fun q hq => hperm.mem_iff.mpr hq, h]
  · have hnil : ∀ l : List Part, (∀ q ∈ l, q ∈ parts) →
        (l.filter fun q => q.lookupName = n) = [] := by
      intro l hl
      rw [List.filter_eq_nil_iff]
      exact fun q hq hname => hn ⟨q, hl q hq, of_decide_eq_true hname⟩
    rw [hnil parts fun q hq => hq, hnil parts' fun q hq => hperm.mem_iff.mpr hq]

theorem SameOrder.swap {ι : Type} [DecidableEq ι] {type : Part → ι} {p q : Part}
    (h : type p ≠ type q) : SameOrder type [p, q] [q, p] := by
  intro i
  by_cases hp : type p = i
  · have hq : type q ≠ i := fun hq => h (hp.trans hq.symm)
    simp [hp, hq]
  · simp [List.filter_cons, hp]

end SymbolTable

namespace Generator
variable {snapshots snapshots' : List Snapshot}

/-- Snapshots with different paths may come in any order. -/
theorem lastUnder_perm (hperm : snapshots.Perm snapshots')
    (hpaths : (snapshots.map (·.path)).Nodup) (path : String) :
    lastUnder snapshots path = lastUnder snapshots' path := by
  have hunique : ∀ s ∈ snapshots, ∀ s' ∈ snapshots, s.path = s'.path → s = s' :=
    fun _ hs _ hs' h => List.inj_on_of_nodup_map hpaths hs hs' h
  refine Option.ext fun s => ?_
  rw [lastUnder_eq_some_iff hunique, lastUnder_eq_some_iff fun s hs s' hs' =>
    hunique s (hperm.mem_iff.mpr hs) s' (hperm.mem_iff.mpr hs'), hperm.mem_iff]

/-- A generator comes to one result by whatever is found under each path and each name. -/
theorem exists_run_fed (c : Generation.Config) {symbols symbols' : SymbolTable}
    (hsymbols : Table.Same symbols symbols')
    (hassets : ∀ path, lastUnder snapshots path = lastUnder snapshots' path) :
    ∃ r, ((fed c snapshots symbols).run none).1 = .ok r ∧
      ((fed c snapshots' symbols').run none).1 = .ok r := by
  obtain ⟨p, _, hp, hrun, -⟩ := run_fed c snapshots hsymbols.left
  obtain ⟨p', _, hp', hrun', -⟩ := run_fed c snapshots' hsymbols.right
  have hmanifest : (Supplies.fed c snapshots symbols).manifest c =
      (Supplies.fed c snapshots' symbols').manifest c := by
    funext path
    rw [Supplies.fed_manifest, Supplies.fed_manifest, hassets]
  have hscene : (Supplies.fed c snapshots symbols).scene c =
      (Supplies.fed c snapshots' symbols').scene c := by
    funext path
    rw [Supplies.fed_scene, Supplies.fed_scene, hassets]
  have htype : (Supplies.fed c snapshots symbols).type =
      (Supplies.fed c snapshots' symbols').type :=
    funext hsymbols.get?
  exact ⟨p.result c, hrun, by rw [hrun', hp.unique hp' hmanifest hscene htype]⟩

/-- Two documents are refused, or make the same table, and then generators that are given it and
these assets come to the same result. -/
def SameOutcome (read : SymbolTable.Reader) (c : Generation.Config)
    (snapshots snapshots' : List Snapshot) (document document' : Json) : Prop :=
  (∃ e e', SymbolTable.ofDocument read document = .error e ∧
    SymbolTable.ofDocument read document' = .error e') ∨
  ∃ symbols symbols', SymbolTable.ofDocument read document = .ok symbols ∧
    SymbolTable.ofDocument read document' = .ok symbols' ∧ Table.Same symbols symbols' ∧
    ∃ r, ((fed c snapshots symbols).run none).1 = .ok r ∧
      ((fed c snapshots' symbols').run none).1 = .ok r

section
variable {read : SymbolTable.Reader} {part? : Json → Option Part} (hread : ReadsEntries read part?)
include hread

theorem sameOutcome (c : Generation.Config) {entries entries' : List Json}
    (hentries : entries.Perm entries') (hsnapshots : snapshots.Perm snapshots')
    (hpaths : (snapshots.map (·.path)).Nodup) (others others' : List (String × Json))
    (horder : ¬ SymbolTable.Clashing Declaration.lookupName (entries.filterMap part?) →
      SymbolTable.SameOrder (fun p => p.lookupName) (entries.filterMap part?)
        (entries'.filterMap part?)) :
    SameOutcome read c snapshots snapshots' (documentOf entries others)
      (documentOf entries' others') := by
  by_cases hvalid : ∀ x ∈ entries, (part? x).isSome
  · have hvalid' : ∀ x ∈ entries', (part? x).isSome := fun x hx =>
      hvalid x (hentries.mem_iff.mpr hx)
    rw [SameOutcome, SymbolTable.ofDocument_of_valid hread others hvalid,
      SymbolTable.ofDocument_of_valid hread others' hvalid']
    refine (SymbolTable.ofParts_reordered (hentries.filterMap _) horder).imp_right ?_
    rintro ⟨symbols, symbols', hok, hok', hsame⟩
    exact ⟨symbols, symbols', hok, hok', hsame,
      exists_run_fed c hsame (lastUnder_perm hsnapshots hpaths)⟩
  · push Not at hvalid
    obtain ⟨x, hx, hnone⟩ := hvalid
    have hnone : part? x = none := by simpa using hnone
    obtain ⟨e, he⟩ := SymbolTable.ofDocument_of_invalid hread others hx hnone
    obtain ⟨e', he'⟩ := SymbolTable.ofDocument_of_invalid hread others'
      (hentries.mem_iff.mp hx) hnone
    exact .inl ⟨e, e', he, he'⟩

/-- Entries that keep the parts of each lookup name in order, and assets with different paths, make
the same in any order. So do entries that keep the parts of each type in order, if no two types
share a lookup name. -/
theorem run_fed_reordered (c : Generation.Config) {entries entries' : List Json}
    (hentries : entries.Perm entries') (hsnapshots : snapshots.Perm snapshots')
    (hpaths : (snapshots.map (·.path)).Nodup) (others others' : List (String × Json)) :
    (SymbolTable.SameOrder (fun p => p.lookupName) (entries.filterMap part?)
        (entries'.filterMap part?) →
      SameOutcome read c snapshots snapshots' (documentOf entries others)
        (documentOf entries' others')) ∧
    ((∀ p ∈ entries.filterMap part?, ∀ q ∈ entries.filterMap part?, p.lookupName = q.lookupName →
        p.qualifiedName = q.qualifiedName) →
      SymbolTable.SameOrder identity (entries.filterMap part?) (entries'.filterMap part?) →
      SameOutcome read c snapshots snapshots' (documentOf entries others)
        (documentOf entries' others')) := by
  refine ⟨fun horder => ?_, fun hnames horder => ?_⟩
  · exact sameOutcome hread c hentries hsnapshots hpaths others others' fun _ => horder
  · refine sameOutcome hread c hentries hsnapshots hpaths others others' fun hclash => ?_
    refine horder.of_identity (hentries.filterMap _) fun p hp q hq hname => ?_
    have hassembly : p.assembly = q.assembly := by
      by_contra hne
      exact hclash ⟨p, hp, q, hq, hname, hne⟩
    rw [identity, identity, hassembly, hnames p hp q hq hname]

end

def classEntry (name : String) (parameters : List Json) (field : String) : Json :=
  .object [("name", .text name), ("namespace", .text "Game"), ("assembly", .text "Game"),
    ("type_parameters", .list parameters),
    ("members", .list [.object [("kind", .text "field"), ("name", .text field)]])]

def poolEntry : Json := classEntry "Pool" [] "size"

def itemEntry : Json := classEntry "Item" [] "label"

def genericPoolEntry : Json := classEntry "Pool" [.text "T"] "first"

def emptyAsset (path : String) : Snapshot := ⟨path, "res://" ++ path, "", ""⟩

theorem run_fed_reordered_poolAndItem :
    SameOutcome reader { projectRoot := "/work" }
      [emptyAsset "project.godot", emptyAsset "main.tscn"]
      [emptyAsset "main.tscn", emptyAsset "project.godot"]
      (documentOf [poolEntry, itemEntry] []) (documentOf [itemEntry, poolEntry] []) := by
  have hreordered := run_fed_reordered readsEntries_reader { projectRoot := "/work" }
    (.swap itemEntry poolEntry []) (.swap (emptyAsset "main.tscn") (emptyAsset "project.godot") [])
    (by decide) [] []
  exact hreordered.2 (by decide) (.swap (by decide))

theorem pools_order_matters :
    SymbolTable.SameOrder identity
        ([poolEntry, genericPoolEntry].filterMap fun x => (part x).valid?)
        ([genericPoolEntry, poolEntry].filterMap fun x => (part x).valid?) ∧
      ¬ SameOutcome reader { projectRoot := "/work" } [] []
        (documentOf [poolEntry, genericPoolEntry] [])
        (documentOf [genericPoolEntry, poolEntry] []) := by
  refine ⟨.swap (by decide), ?_⟩
  rintro (⟨e, e', he, -⟩ | ⟨symbols, symbols', h, h', hsame, -⟩)
  · cases he
  · cases h
    cases h'
    have hparameters := congrArg (Option.map (·.typeParameters)) (hsame.get? "Game.Pool")
    exact absurd hparameters (by decide)

end Generator
end SceneCodegen
