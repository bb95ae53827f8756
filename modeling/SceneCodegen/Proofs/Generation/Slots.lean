import SceneCodegen.Proofs.Generation.Assembling
import SceneCodegen.Proofs.Generation.Classes

/-!
# Slots of singletons

A registry holds one slot for each name that a manifest registers, in the order of the names. A slot
is typed if exactly one marked class has its name.
-/
namespace SceneCodegen
open SceneCodegen.Graph Generation

namespace Generator.Supplies

/-- The manifest of a path has an entry of this kind and name. -/
def HasEntry (c : Generation.Config) (given : Supplies) (kind : Manifest.EntryKind)
    (path name : String) : Prop :=
  ∃ s, given.manifest c path = some s ∧ ∃ e ∈ Manifest.parse s.lines, e.kind = kind ∧ e.name = name

/-- A singleton of this name is registered by a manifest. -/
def Registers (c : Generation.Config) (given : Supplies) (name : String) : Prop :=
  ∃ path s, given.manifest c path = some s ∧
    ∃ e ∈ Manifest.parse s.lines, e.kind = .singleton ∧ e.name = name

/-- The record of a marked class of this name. -/
def Candidate (given : Supplies) (name : String) (r : SingletonRecord) : Prop :=
  ∃ key cls, given.scanned key = some cls ∧ cls.singleton = some r ∧ cls.name = name

def SoleCandidate (given : Supplies) (name : String) (r : SingletonRecord) : Prop :=
  given.Candidate name r ∧ ∀ r', given.Candidate name r' → r' = r

end Generator.Supplies

namespace Generation

section
variable {α : Type} {nameOf : α → String} {l : List α}

/-- The first of each name among values, under its name. -/
def firsts (nameOf : α → String) (l : List α) : Table String α :=
  (l.map fun a => (nameOf a, a)).foldl (fun t p => Table.setNew p.1 p.2 t) []

theorem mem_firsts {name : String} {a : α} (h : (name, a) ∈ firsts nameOf l) :
    nameOf a = name ∧ a ∈ l := by
  have hfound := Table.get?_of_mem (Table.nodup_foldl_setNew _) h
  rw [Table.get?_foldl_setNew] at hfound
  obtain ⟨a', ha, he⟩ := List.mem_map.mp (Table.mem_of_get? hfound)
  cases he
  exact ⟨rfl, ha⟩

theorem names_firsts (nameOf : α → String) (l : List α) :
    (Table.values (firsts nameOf l)).map nameOf = (l.map nameOf).eraseDups := by
  have hkeys : (firsts nameOf l).keys = (l.map nameOf).eraseDups := by
    rw [firsts, Table.keys_foldl_setNew, List.map_map]
    rfl
  rw [← hkeys, Table.values, Table.keys, List.map_map]
  exact List.map_congr_left fun p hp => (mem_firsts hp).1

end

theorem uniqueEntries_eq (es : List Manifest.Entry) :
    uniqueEntries es = Table.values (firsts (·.name) es) := by
  rw [uniqueEntries, firsts, List.foldl_map]

section
variable {slots : List SingletonSlot}

theorem registryOf_eq (slots : List SingletonSlot) :
    registryOf slots = .ofSlots (Table.values (firsts (·.name) slots)) := by
  rw [registryOf, firsts, List.foldl_map]

theorem names_registryOf_perm (slots : List SingletonSlot) :
    ((registryOf slots).slots.map (·.name)).Perm (slots.map (·.name)).eraseDups := by
  rw [registryOf_eq, SingletonRegistry.ofSlots, ← names_firsts]
  exact (List.mergeSort_perm _ _).map _

theorem mem_registryOf_names {name : String} :
    name ∈ (registryOf slots).slots.map (·.name) ↔ name ∈ slots.map (·.name) := by
  rw [(names_registryOf_perm slots).mem_iff, List.mem_eraseDups]

theorem mem_of_mem_registryOf {slot : SingletonSlot} (h : slot ∈ (registryOf slots).slots) :
    slot ∈ slots := by
  rw [registryOf_eq, SingletonRegistry.ofSlots, List.mem_mergeSort] at h
  obtain ⟨⟨name, slot'⟩, hmem, rfl⟩ := List.mem_map.mp h
  exact (mem_firsts hmem).2

/-- The slots of a registry are in the order of their names, and no name is there twice. -/
theorem pairwise_registryOf (slots : List SingletonSlot) :
    ((registryOf slots).slots.map (·.name)).Pairwise (· < ·) := by
  have hnodup : ((registryOf slots).slots.map (·.name)).Nodup :=
    (names_registryOf_perm slots).nodup_iff.mpr (Table.nodup_eraseDups _)
  have hsorted : ((registryOf slots).slots.map (·.name)).Pairwise (· ≤ ·) := by
    rw [registryOf_eq, SingletonRegistry.ofSlots, List.pairwise_map]
    exact pairwise_mergeSort_names SingletonSlot.name _
  refine hsorted.imp₂ (fun a b hle hne => ?_) hnodup
  by_contra hlt
  exact hne (String.le_antisymm hle (String.not_lt.mp hlt))

end

end Generation

namespace Generation

/-- The record for which there is no other. -/
def soleOf : List SingletonRecord → Option SingletonRecord
  | [r] => some r
  | _ => none

theorem slotOf_value (c : Generation.Config) (e : Manifest.Entry) (rs : List SingletonRecord) :
    (slotOf c ⟨e, rs⟩).value = some { name := e.name, record := soleOf rs } := by
  match rs with
  | [] => rfl
  | [r] => rfl
  | r :: r' :: rs => rfl

theorem mem_slotOf_diagnostics {c : Generation.Config} {e : Manifest.Entry}
    {rs : List SingletonRecord} {d : Diagnostic} : d ∈ (slotOf c ⟨e, rs⟩).diagnostics ↔
      2 ≤ rs.length ∧ d = ambiguousSingleton c e.name rs := by
  match rs with
  | [] => simp [slotOf]
  | [r] => simp [slotOf]
  | r :: r' :: rs => simp [slotOf]

theorem soleOf_eq_some {rs : List SingletonRecord} (h : rs.Nodup) {r : SingletonRecord} :
    soleOf rs = some r ↔ r ∈ rs ∧ ∀ r' ∈ rs, r' = r := by
  match rs with
  | [] => simp [soleOf]
  | [r₁] => simp [soleOf, eq_comm]
  | r₁ :: r₂ :: rs =>
    have hne : r₁ ≠ r₂ := by
      have hnew := (List.nodup_cons.mp h).1
      exact fun he => hnew (he ▸ List.mem_cons_self)
    simp only [soleOf, reduceCtorEq, false_iff, not_and]
    intro _ hall
    exact hne ((hall r₁ (by simp)).trans (hall r₂ (by simp)).symm)

end Generation

namespace Project

def rivals (p : Project) (name : String) : List SingletonRecord :=
  p.singletonClasses.sharing [name] (·.name)

theorem nodup_rivals (p : Project) (name : String) : (p.rivals name).Nodup := Listing.nodup_sharing

def slot (p : Project) (name : String) : SingletonSlot :=
  { name, record := soleOf (p.rivals name) }

namespace Holds
variable {c : Generation.Config} {p : Project} {given : Generator.Supplies} (h : p.Holds c given)
include h

theorem mem_entries {path : String} {k : Manifest.EntryKind × String} {e : Manifest.Entry} :
    ((path, k), e) ∈ p.entries.items ↔ ∃ s, given.manifest c path = some s ∧
      ((Manifest.parse s.lines).map fun e => ((e.kind, e.name), e)).find? (·.1 == k) =
        some (k, e) := by
  have hitem : p.manifestEntries.item path =
      (given.manifest c path).map fun s => Manifest.parse s.lines := by
    rw [manifestEntries, Listing.item_map, h.manifests.item]
    cases given.manifest c path <;> rfl
  have hkeys : p.manifestEntries.keys = p.manifests.keys := rfl
  rw [entries, Listing.mem_items_flat fun _ _ => mem_sortedBy, hitem, hkeys, h.manifests.mem_keys,
    h.manifests.item]
  cases given.manifest c path <;> simp

theorem mem_entriesOf {kind : Manifest.EntryKind} {path : String} {k : Manifest.EntryKind × String}
    {e : Manifest.Entry} :
    ((path, k), e) ∈ (p.entries.map fun e => { value := ofKind kind e }).items ↔
      k = (kind, e.name) ∧ e.kind = kind ∧ ((path, k), e) ∈ p.entries.items := by
  have hkind {e' : Manifest.Entry} : ofKind kind e' = some e ↔ e' = e ∧ e.kind = kind := by
    simp only [ofKind, Option.ite_none_right_eq_some, Option.some.injEq, beq_iff_eq]
    exact ⟨fun ⟨hk, he⟩ => ⟨he, he ▸ hk⟩, fun ⟨he, hk⟩ => ⟨he ▸ hk, he⟩⟩
  simp only [Listing.mem_items_map, hkind]
  constructor
  · rintro ⟨e', hmem, rfl, rfl⟩
    refine ⟨?_, rfl, hmem⟩
    obtain ⟨s, -, hfound⟩ := h.mem_entries.mp hmem
    obtain ⟨e, -, hsame⟩ := List.mem_map.mp (List.mem_of_find?_eq_some hfound)
    obtain ⟨rfl, rfl⟩ := Prod.mk.inj hsame
    rfl
  · rintro ⟨-, hkind, hmem⟩
    exact ⟨e, hmem, rfl, hkind⟩

/-- The entries of a kind read from a manifest are those that it has. -/
theorem hasEntry_iff {kind : Manifest.EntryKind} {path name : String} :
    given.HasEntry c kind path name ↔
      ∃ e, ((path, (kind, name)), e) ∈
        (p.entries.map fun e => { value := ofKind kind e }).items := by
  simp only [h.mem_entriesOf, Prod.mk.injEq, true_and]
  constructor
  · rintro ⟨s, hs, e, he, rfl, rfl⟩
    -- the first entry of this kind and name stands for all others
    have hfound : ∃ x, ((Manifest.parse s.lines).map fun e => ((e.kind, e.name), e)).find?
        (·.1 == (e.kind, e.name)) = some x := by
      refine Option.isSome_iff_exists.mp (List.find?_isSome.mpr ?_)
      exact ⟨_, List.mem_map_of_mem he, by simp⟩
    obtain ⟨⟨k, e'⟩, hfound⟩ := hfound
    obtain rfl : k = (e.kind, e.name) := by simpa using List.find?_some hfound
    obtain ⟨e'', -, hsame⟩ := List.mem_map.mp (List.mem_of_find?_eq_some hfound)
    obtain ⟨hk, rfl⟩ := Prod.mk.inj hsame
    obtain ⟨hkind, hname⟩ := Prod.mk.inj hk
    exact ⟨e'', hname.symm, hkind, h.mem_entries.mpr ⟨s, hs, hfound⟩⟩
  · rintro ⟨e, rfl, hkind, hmem⟩
    obtain ⟨s, hs, hfound⟩ := h.mem_entries.mp hmem
    obtain ⟨e', he, hsame⟩ := List.mem_map.mp (List.mem_of_find?_eq_some hfound)
    obtain ⟨-, rfl⟩ := Prod.mk.inj hsame
    exact ⟨s, hs, e', he, hkind, rfl⟩

theorem exists_hasEntry_iff {kind : Manifest.EntryKind} {name : String} :
    (∃ path, given.HasEntry c kind path name) ↔
      ∃ key e, (key, e) ∈ (p.entries.map fun e => { value := ofKind kind e }).items ∧
        e.name = name := by
  constructor
  · rintro ⟨path, hentry⟩
    obtain ⟨e, he⟩ := h.hasEntry_iff.mp hentry
    exact ⟨_, e, he, (Prod.mk.inj (h.mem_entriesOf.mp he).1).2.symm⟩
  · rintro ⟨⟨path, k⟩, e, he, rfl⟩
    obtain ⟨rfl, -⟩ := h.mem_entriesOf.mp he
    exact ⟨path, h.hasEntry_iff.mpr ⟨e, he⟩⟩

/-- The singletons read from the manifests are those that are registered. -/
theorem registers_iff {name : String} :
    given.Registers c name ↔ ∃ key e, (key, e) ∈ p.singletonEntries.items ∧ e.name = name :=
  h.exists_hasEntry_iff

omit h in
theorem singleton_name {given : Generator.Supplies} {key : String} {cls : ScannedClass}
    {r : SingletonRecord} (hcls : given.scanned key = some cls) (hr : cls.singleton = some r) :
    r.name = cls.name := by
  obtain ⟨t, -, rfl⟩ := Generator.Supplies.exists_type_of_scanned hcls
  obtain ⟨-, rfl⟩ := (Scan.scannedAmong_singleton _ t).mp hr
  rfl

variable (hnodup : (Table.keys given.symbols).Nodup)
include hnodup

/-- The records that share a name are those of the marked classes of that name. -/
theorem mem_rivals {name : String} {r : SingletonRecord} :
    r ∈ p.rivals name ↔ given.Candidate name r := by
  have hitem (key : String) :
      p.singletonClasses.item key = (given.scanned key).bind (·.singleton) := by
    rw [singletonClasses, Listing.item_map, h.scannedClasses_item hnodup]
  have hkeys : p.singletonClasses.keys = p.scannedClasses.keys := rfl
  rw [rivals, Listing.mem_sharing, List.mem_singleton]
  constructor
  · rintro ⟨hname, key, -, hr⟩
    rw [hitem] at hr
    obtain ⟨cls, hcls, hr⟩ := Option.bind_eq_some_iff.mp hr
    exact ⟨key, cls, hcls, hr, (singleton_name hcls hr).symm.trans hname⟩
  · rintro ⟨key, cls, hcls, hr, rfl⟩
    refine ⟨singleton_name hcls hr, key, hkeys ▸ h.mem_scannedClasses_keys hcls, ?_⟩
    rw [hitem, hcls]
    exact hr

theorem slot_record {name : String} {r : SingletonRecord} :
    (p.slot name).record = some r ↔ given.SoleCandidate name r := by
  show soleOf (p.rivals name) = some r ↔ _
  rw [soleOf_eq_some (nodup_rivals p name), Generator.Supplies.SoleCandidate]
  simp only [h.mem_rivals hnodup]

end Holds

section
variable {c : Generation.Config} {p : Project}

theorem mem_singletonPairs {key : EntryKey} {pair : JoinPair Manifest.Entry SingletonRecord} :
    (key, pair) ∈ p.singletonPairs.items ↔
      ∃ e, (key, e) ∈ p.singletonEntries.items ∧ pair = ⟨e, p.rivals e.name⟩ :=
  Listing.mem_items_join

theorem mem_singletonSlots {key : EntryKey} {slot : SingletonSlot} :
    (key, slot) ∈ (p.singletonSlots c).items ↔
      ∃ e, (key, e) ∈ p.singletonEntries.items ∧ slot = p.slot e.name := by
  simp only [singletonSlots, Listing.mem_items_map, mem_singletonPairs]
  constructor
  · rintro ⟨_, ⟨e, he, rfl⟩, hslot⟩
    rw [slotOf_value] at hslot
    exact ⟨e, he, (Option.some.inj hslot).symm⟩
  · rintro ⟨e, he, rfl⟩
    exact ⟨_, ⟨e, he, rfl⟩, slotOf_value c e _⟩

/-- Every slot of a name is the same. -/
theorem mem_slots {slot : SingletonSlot} : slot ∈ (p.singletonSlots c).items.map Prod.snd ↔
    ∃ key e, (key, e) ∈ p.singletonEntries.items ∧ slot = p.slot e.name := by
  simp only [List.mem_map, Prod.exists, mem_singletonSlots, exists_eq_right]

theorem eq_slot_of_mem_registry {slot : SingletonSlot} (h : slot ∈ (p.registry c).slots) :
    slot = p.slot slot.name := by
  obtain ⟨key, e, -, rfl⟩ := mem_slots.mp (mem_of_mem_registryOf h)
  rfl

theorem mem_registry_names {name : String} : name ∈ (p.registry c).slots.map (·.name) ↔
    ∃ key e, (key, e) ∈ p.singletonEntries.items ∧ e.name = name := by
  rw [registry, mem_registryOf_names, List.mem_map]
  constructor
  · rintro ⟨slot, hslot, rfl⟩
    obtain ⟨key, e, he, rfl⟩ := mem_slots.mp hslot
    exact ⟨key, e, he, rfl⟩
  · rintro ⟨key, e, he, rfl⟩
    exact ⟨p.slot e.name, mem_slots.mpr ⟨key, e, he, rfl⟩, rfl⟩

theorem slot_mem_registry {name : String} (h : name ∈ (p.registry c).slots.map (·.name)) :
    p.slot name ∈ (p.registry c).slots := by
  obtain ⟨slot, hslot, rfl⟩ := List.mem_map.mp h
  rw [← eq_slot_of_mem_registry hslot]
  exact hslot

end
end Project
end SceneCodegen
