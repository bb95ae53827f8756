import SceneCodegen.Proofs.Generation.Feeding
import SceneCodegen.Proofs.Symbol.Merging

/-!
# Scanned classes of a project

Which classes are scanned of the types that were supplied, and what a scanned class has of its type.
-/
namespace SceneCodegen
open SceneCodegen.Graph Generation

namespace Generator.Supplies

/-- The types that were supplied, found by the names other types give for them. -/
def known (given : Supplies) : TypeResolver Id :=
  ⟨fun name => given.type (lookupNameOf name), given.symbols.length⟩

def scanned (given : Supplies) (name : String) : Option ScannedClass :=
  (given.type name).bind fun t => (Scan.scanClass given.known t).run

theorem exists_type_of_scanned {given : Supplies} {name : String} {cls : ScannedClass}
    (h : given.scanned name = some cls) :
    ∃ t, given.type name = some t ∧ cls = Scan.scannedAmong given.known t := by
  obtain ⟨t, ht, hscan⟩ := Option.bind_eq_some_iff.mp h
  rw [Scan.scanClass_run, Option.ite_none_right_eq_some] at hscan
  exact ⟨t, ht, (Option.some.inj hscan.2).symm⟩

end Generator.Supplies

namespace Project.Holds
variable {c : Generation.Config} {p : Project} {given : Generator.Supplies} (h : p.Holds c given)
  (hnodup : (Table.keys given.symbols).Nodup)
include h hnodup

theorem known_eq : p.known = given.known := by
  have hperm : p.types.keys.Perm (Table.keys given.symbols) := by
    refine (List.perm_ext_iff_of_nodup h.types.nodup_keys hnodup).mpr fun name => ?_
    rw [h.types.mem_keys, h.types.item, Generator.Supplies.type, Option.isSome_iff_ne_none, ne_eq,
      Table.get?_eq_none_iff, not_not]
  have hlength := hperm.length_eq
  rw [Table.keys, List.length_map] at hlength
  rw [Project.known, Generator.Supplies.known, h.types.item, hlength]

theorem scannedClasses_item : p.scannedClasses.item = given.scanned := by
  funext name
  rw [Project.scannedClasses, Listing.item_map, h.known_eq hnodup, h.types.item]
  rfl

omit hnodup in
theorem mem_scannedClasses_keys {name : String} {cls : ScannedClass}
    (hcls : given.scanned name = some cls) : name ∈ p.scannedClasses.keys := by
  obtain ⟨t, ht, -⟩ := Generator.Supplies.exists_type_of_scanned hcls
  have hkeys : p.scannedClasses.keys = p.types.keys := rfl
  rw [hkeys, h.types.mem_keys, h.types.item, ht]
  rfl

end Project.Holds
end SceneCodegen
