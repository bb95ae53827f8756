import SceneCodegen.Proofs.Generation.Histories
import SceneCodegen.Proofs.Generation.Outlines
import SceneCodegen.Proofs.Graph.Renewal

/-!
# What orders change

Which inputs of a generation are new after an order: those of assets that were added, taken out or
given another snapshot, and those of types that are not what they were.
-/
namespace SceneCodegen
open SceneCodegen.Graph Generation

/-- What snapshots are told apart by. -/
def Snapshot.mark (s : Snapshot) : String × String × String := (s.path, s.resPath, s.digest)

theorem Snapshot.same_iff {a b : Option Snapshot} :
    (a == b) = true ↔ a.map Snapshot.mark = b.map Snapshot.mark := by
  cases a with
  | none =>
    cases b with
    | none => exact ⟨fun _ => rfl, fun _ => rfl⟩
    | some b => constructor <;> (intro h; cases h)
  | some a =>
    cases b with
    | none => constructor <;> (intro h; cases h)
    | some b =>
      show (a.path == b.path && a.resPath == b.resPath && a.digest == b.digest) = true ↔ _
      simp [mark, and_assoc]

namespace Generation

/-- Which inputs count as the same: snapshots that are not told apart, and any types. -/
def SameHeld : (k : Node) → Value k → Value k → Prop
  | .manifestFiles .keys => Eq
  | .manifestFiles (.item _) => fun a b => a.map Snapshot.mark = b.map Snapshot.mark
  | .sceneFiles .keys => Eq
  | .sceneFiles (.item _) => fun a b => a.map Snapshot.mark = b.map Snapshot.mark
  | .typeSymbols .keys => Eq
  | .typeSymbols (.item _) => fun a b => a.isSome = b.isSome
  | _ => fun _ _ => False

def holdings : Likeness Node Value where
  like := SameHeld
  symm {k v w} h := by
    cases k with
    | manifestFiles n | sceneFiles n | typeSymbols n => cases n <;> exact Eq.symm h
    | _ => cases h
  trans {k u v w} h h' := by
    cases k with
    | manifestFiles n | sceneFiles n | typeSymbols n => cases n <;> exact Eq.trans h h'
    | _ => cases h

end Generation

namespace Generator

theorem accepts_snapshots {f : Family Node Value (InputNode.Value String Snapshot)}
    (hf : f.Faithful) (hkeys : ∀ l, holdings.like (f.key .keys) (f.encode .keys l)
      (f.encode .keys l))
    (hitems : ∀ i a b, f.LikeItems holdings i a b ↔ a.map Snapshot.mark = b.map Snapshot.mark) :
    Accepts holdings Anything f where
  faithful := hf
  keys := hkeys
  absent i := (hitems i none none).mpr rfl
  self i _ _ := (hitems i _ _).mpr rfl
  same i x _ t _ _ _ h := (hitems i x (some t)).mpr (Snapshot.same_iff.mp h)

/-- Any snapshots and types may be supplied, and what is computed counts as its outline. -/
def Standard.coarse : Standard where
  values := outlines
  inputs := holdings
  snapshot := Anything
  type := Anything
  orderly _ := rules_orderly_outlines
  finer k v h := by
    cases k with
    | manifestFiles n | sceneFiles n | typeSymbols n => rfl
    | _ => cases h
  manifests := accepts_snapshots manifestFilesFamily_faithful (fun _ => rfl) fun _ _ _ => .rfl
  scenes := accepts_snapshots sceneFilesFamily_faithful (fun _ => rfl) fun _ _ _ => .rfl
  types :=
    { faithful := typeSymbolsFamily_faithful, keys := fun _ => rfl, absent := fun _ => rfl
      self := fun _ _ _ => rfl
      same := fun i x y t _ _ _ h => isSome_of_beq h }

/-- The declared type that a generator holds under a name. -/
def heldType (g : Generator) (name : String) : Option TypeSymbol :=
  typeSymbolsFamily.valueOf (.item name) g.store

theorem differ_congr {a a' b b' : Option Snapshot} (ha : a.map Snapshot.mark = a'.map Snapshot.mark)
    (hb : b.map Snapshot.mark = b'.map Snapshot.mark) : (a == b) = false ↔ (a' == b') = false := by
  rw [← Bool.not_eq_true, ← Bool.not_eq_true, Snapshot.same_iff, Snapshot.same_iff, ha, hb]

section
variable {S : Standard} {c : Config} {N : Nat} {given given' : Supplies} {g g' : Generator}

namespace Restocked

theorem refreshed (hg : Restocked S c given' g g') : Refreshed g.store g'.store := by
  obtain ⟨s, items, items', hs, hs'⟩ := hg.exists_replaced
  exact hs.refreshed.trans hs'.refreshed

theorem not_renewed_type (h : Holding S c N given g) (hg : Restocked S c given' g g')
    (n : InputNode String) : ¬ Renewed g.store g'.store (.typeSymbols n) := by
  obtain ⟨s, items, items', hs, hs'⟩ := hg.exists_replaced
  refine h.rest.dated.not_renewed ?_
  exact (hs'.inputs_other (by simp [sceneFilesFamily])).trans
    (hs.inputs_other (by simp [manifestFilesFamily]))

theorem types_same (hg : Restocked S c given' g g') (n : InputNode String) :
    g'.store.input? (.typeSymbols n) = g.store.input? (.typeSymbols n) := by
  obtain ⟨s, items, items', hs, hs'⟩ := hg.exists_replaced
  exact (hs'.other (by simp [sceneFilesFamily])).trans (hs.other (by simp [manifestFilesFamily]))

variable (h : Holding .coarse c N given g) (hg : Restocked .coarse c given' g g')
include h hg

/-- The manifests are new that are not what they were. -/
theorem renewed_manifest (path : String) :
    Renewed g.store g'.store (.manifestFiles (.item path)) ↔
      (given.manifest c path == given'.manifest c path) = false := by
  obtain ⟨s, items, items', hs, hs'⟩ := hg.exists_replaced
  have hafter : s.input? (.manifestFiles (.item path)) =
      g'.store.input? (.manifestFiles (.item path)) :=
    (hs'.other (by simp [sceneFilesFamily])).symm
  have hvalue : manifestFilesFamily.valueOf (.item path) s =
      manifestFilesFamily.valueOf (.item path) g'.store :=
    manifestFilesFamily.valueOf_congr hafter
  have hitem := hs.renewed_iff manifestFilesFamily_faithful h.manifests h.rest.dated
    (Nat.le_refl _) path rfl
  rw [renewed_congr (hs'.inputs_other (by simp [sceneFilesFamily]))]
  refine hitem.trans (differ_congr (h.manifests.like path) ?_)
  exact (hs.tallies.like path).symm.trans (hvalue ▸ hg.manifests.like path)

/-- The scenes are new that are not what they were. -/
theorem renewed_scene (path : String) :
    Renewed g.store g'.store (.sceneFiles (.item path)) ↔
      (given.scene c path == given'.scene c path) = false := by
  obtain ⟨s, items, items', hs, hs'⟩ := hg.exists_replaced
  have hbefore : s.inputs.get? (.sceneFiles (.item path)) =
      g.store.inputs.get? (.sceneFiles (.item path)) :=
    hs.inputs_other (by simp [manifestFilesFamily])
  have hscenes : sceneFilesFamily.Tallies holdings s (given.scene c) :=
    h.scenes.of_same fun n => hs.other (by simp [manifestFilesFamily, sceneFilesFamily])
  have hitem := hs'.renewed_iff sceneFilesFamily_faithful hscenes h.rest.dated
    hs.refreshed.revision path hbefore
  refine hitem.trans (differ_congr (hscenes.like path) ?_)
  exact (hs'.tallies.like path).symm.trans (hg.scenes.like path)

end Restocked

namespace Redeclared
variable {symbols : SymbolTable}

theorem refreshed (hg : Redeclared S symbols g g') : Refreshed g.store g'.store :=
  hg.replaced.refreshed

theorem not_renewed (h : Holding S c N given g) (hg : Redeclared S symbols g g') {k : Node}
    (hk : ∀ n, .typeSymbols n ≠ k) : ¬ Renewed g.store g'.store k :=
  h.rest.dated.not_renewed (hg.replaced.inputs_other hk)

/-- The types are new that are not what they were. -/
theorem renewed_type (h : Holding S c N given g) (hg : Redeclared S symbols g g') (name : String) :
    Renewed g.store g'.store (.typeSymbols (.item name)) ↔
      (g.heldType name == Table.get? name symbols) = false := by
  have hitem := hg.replaced.renewed_iff typeSymbolsFamily_faithful h.types h.rest.dated
    (Nat.le_refl _) name rfl
  refine hitem.trans ?_
  rw [get?_symbols, heldType]
  cases Table.get? name symbols <;> rfl

end Redeclared
end
end Generator
end SceneCodegen
