import SceneCodegen.Proofs.Generation.Levels
import SceneCodegen.Proofs.Scan.LikeTypes
import SceneCodegen.Proofs.Table

/-!
# Likeness of values of a generation

Declared types are like if scans see them as one, and the index of a join may hold its entries in
any order. All other values are like only if they are equal, so reads of like nodes lead to like
values everywhere.
-/
namespace SceneCodegen
open SceneCodegen.Graph

variable {K : Type} {V : K → Type} {L : Likeness K V}

section
variable {ι₁ ι₂ κ α β : Type} [BEq κ] [BEq β]
  (self : Family K V (JoinNode.Value ι₁ κ α β)) {left : Stream K V ι₁ α} {right : Stream K V ι₂ β}
  {leftKeys : α → Program K V (List κ)} {rightKey : β → Program K V κ}

theorem joinLookup_alike (key : κ) (hself : ∀ v w, L.like (self.key .index) v w →
      ∃ a b, self.decode .index v = .ok a ∧ self.decode .index w = .ok b ∧ Table.Same a b) :
    (joinProgram self left right leftKeys rightKey (.lookup key)).Alike L Eq Eq
      (joinProgram self left right leftKeys rightKey (.lookup key)) :=
  (Family.get_alike hself).bind fun _ _ hab => .done (by rw [hab.get?])

variable [LawfulBEq κ]

theorem joinIndex_alike {S : Sources K ι₂} {Q : (k : K) → V k → Prop} {J : ι₂ → Prop}
    (hright : right.Heeds S Q J) (hkey : ∀ b, (rightKey b).Safe NoNode (Unfailing K))
    (hQ : ∀ k v, Q k v) (hL : ∀ k, S.items J k → ∀ v w, L.like k v w → v = w) :
    (joinProgram self left right leftKeys rightKey .index).Alike L Eq Table.Same
      (joinProgram self left right leftKeys rightKey .index) := by
  refine ((hright.items.safe hQ).alike hL).bind fun items items' h => ?_
  subst h
  have hkeyed (x : ι₂ × β) : (do return (← rightKey x.2, x.2) : Program K V (κ × β)).Safe NoNode
      (Unfailing K) := (hkey x.2).bind fun _ => .done _
  refine ((Program.Safe.mapM hkeyed items).alike fun _ hk => hk.elim).bind fun keyed keyed' h => ?_
  subst h
  have hnodup := Table.nodup_foldl_push keyed (t := []) List.nodup_nil
  exact .done ⟨hnodup, hnodup, fun _ => rfl⟩

theorem same_of_sameEntries {ν : Type} [BEq ν] [LawfulBEq ν] {a b : Table κ ν}
    (ha : a.keys.Nodup) (hb : b.keys.Nodup) (h : Generation.sameEntries a b) :
    Table.Same a b := by
  obtain ⟨hlength, hall⟩ := (Bool.and_eq_true _ _).mp h
  have hfound {k : κ} {v : ν} (h : a.get? k = some v) : b.get? k = some v := by
    have hany := List.all_eq_true.mp hall (k, v) (Table.mem_of_get? h)
    cases hw : b.get? k with
    | none => simp [hw] at hany
    | some w =>
      simp only [hw, Option.any_some] at hany
      rw [eq_of_beq hany]
  refine ⟨ha, hb, fun k => ?_⟩
  cases hk : a.get? k with
  | some v => exact (hfound hk).symm
  | none =>
    -- a key of `b` alone would make `b` the longer table
    cases hkb : b.get? k with
    | none => rfl
    | some w =>
      have hnew := Table.get?_eq_none_iff.mp hk
      have hsub : k :: a.keys ⊆ b.keys := by
        intro l hl
        rcases List.mem_cons.mp hl with rfl | hl
        · exact List.mem_map_of_mem (f := Prod.fst) (Table.mem_of_get? hkb)
        · obtain ⟨⟨l', v⟩, hmem, rfl⟩ := List.mem_map.mp hl
          exact List.mem_map_of_mem (f := Prod.fst)
            (Table.mem_of_get? (hfound (Table.get?_of_mem ha hmem)))
      have hle := (List.nodup_cons.mpr ⟨hnew, ha⟩).length_le_of_subset hsub
      have hlength : a.length = b.length := eq_of_beq hlength
      simp only [List.length_cons, Table.keys, List.length_map] at hle
      omega

end

namespace Generation

/-- Which values of a node count as the same. -/
def Like : (k : Node) → Value k → Value k → Prop
  | .typeSymbols (.item _) => LikeTypes
  | .scannedClasses (.outcome _) => fun a b => a = b ∧ ∀ c, a.value = some c → c.IsPlain
  | .scannedClasses (.item _) => SameScan
  | .singletonPairs .index => Table.Same
  | .classConnections .index => Table.Same
  | _ => Eq

theorem eq_of_like {k : Node} (hk : ¬ IsLoose k) {v w : Value k} (h : Like k v w) : v = w := by
  cases k with
  | typeSymbols n =>
    cases n with
    | keys => exact h
    | item i => exact absurd trivial hk
  | scannedClasses n =>
    cases n with
    | outcome i | item i => exact h.1
    | diagnostics => exact h
  | singletonPairs n | classConnections n =>
    cases n with
    | index => exact absurd trivial hk
    | lookup key | item i => exact h
  | _ => exact h

theorem Like.symm {k : Node} {v w : Value k} (h : Like k v w) : Like k w v := by
  by_cases hk : IsLoose k
  · cases k with
    | typeSymbols n =>
      cases n with
      | keys => cases hk
      | item i => exact LikeTypes.symm h
    | singletonPairs n | classConnections n =>
      cases n with
      | index => exact Table.Same.symm h
      | lookup key | item i => cases hk
    | _ => cases hk
  · obtain rfl := eq_of_like hk h
    exact h

theorem Like.trans {k : Node} {u v w : Value k} (h : Like k u v) (h' : Like k v w) :
    Like k u w := by
  by_cases hk : IsLoose k
  · cases k with
    | typeSymbols n =>
      cases n with
      | keys => cases hk
      | item i => exact LikeTypes.trans h h'
    | singletonPairs n | classConnections n =>
      cases n with
      | index => exact Table.Same.trans h h'
      | lookup key | item i => cases hk
    | _ => cases hk
  · obtain rfl := eq_of_like hk h
    exact h'

def likeness : Likeness Node Value := ⟨Like, Like.symm, Like.trans⟩

end Generation
end SceneCodegen
