import SceneCodegen.Proofs.Generation.Naming
import SceneCodegen.Proofs.Generation.Reopening
import SceneCodegen.Symbol.Document

/-!
# Names of fragments and classes

The name of a fragment of a class tells the class, by what stands in front of the end that all
fragments of a kind have in common, and the kind, by this end.
-/
namespace SceneCodegen
open Generation

namespace Fragment

def ClassKind.ending : ClassKind → String
  | .helper => "_GodotHelper.g.cs"
  | .notify => "_GodotHelperNotify.g.cs"
  | .singleton => fillerEnd
  | .connectionList => "_GodotHelper_ConnectionTscn.g.cs"

theorem ClassKind.endApart {kind kind' : ClassKind} (h : kind ≠ kind') :
    EndApart kind.ending kind'.ending := by
  cases kind <;> cases kind' <;> first | exact absurd rfl h | decide

theorem ClassKind.endApart_shared (kind : ClassKind) :
    EndApart kind.ending registryHintName ∧ EndApart kind.ending inputActionHintName := by
  cases kind <;> decide

/-- The name of a fragment of a class. -/
theorem hintName_of_isMadeFor {known : TypeResolver Id} {s : TypeSymbol} {kind : ClassKind}
    {f : GeneratedFragment} (h : IsMadeFor (Scan.scannedAmong known s) kind f) :
    f.hintName = hintNameOf s.qualifiedName ++ kind.ending := by
  have hscanned : (Scan.scannedAmong known s).hintName = hintNameOf s.qualifiedName := rfl
  cases h with
  | helper h =>
    rw [helper_hintName (by rw [Project.helperOutcome, h]), hscanned, ClassKind.ending]
  | notify h => rw [notify_hintName h, hscanned, ClassKind.ending]
  | singleton hr hslot h =>
    obtain ⟨r, hrecord, rfl⟩ := renderSingleton_eq_some.mp h
    obtain rfl := Option.some.inj (hrecord.symm.trans hslot)
    obtain ⟨-, rfl⟩ := (Scan.scannedAmong_singleton known s).mp hr
    rfl
  | connectionList hr h =>
    obtain ⟨-, rfl⟩ := (Scan.scannedAmong_classRecord known s).mp hr
    simp only [renderConnectionList, Option.ite_none_left_eq_some, Option.some.injEq] at h
    rw [← h.2]
    rfl

/-- What is scanned of a type that is of interest. -/
theorem eq_scannedAmong {known : TypeResolver Id} {s : TypeSymbol} {cls : ScannedClass}
    (h : (Scan.scanClass known s).run = some cls) : cls = Scan.scannedAmong known s := by
  rw [Scan.scanClass_run, Option.ite_none_right_eq_some, Option.some.injEq] at h
  exact h.2.symm

end Fragment

namespace SymbolTable
open Fragment

/-- Among the plainly named types of a document, fragments have one name just if they are of one
kind and made for one class, and none has the name of the registry or that of the input actions. -/
theorem hint_names_apart {read : Reader} {document : Json} {t : SymbolTable}
    (ht : ofDocument read document = .ok t)
    (hplain : ∀ name s, (name, s) ∈ t → s.PlainlyNamed) (known : TypeResolver Id)
    {name name' : String} {s s' : TypeSymbol} (hs : (name, s) ∈ t) (hs' : (name', s') ∈ t)
    {cls cls' : ScannedClass} (hcls : (Scan.scanClass known s).run = some cls)
    (hcls' : (Scan.scanClass known s').run = some cls') {kind kind' : ClassKind}
    {f f' : GeneratedFragment} (hf : IsMadeFor cls kind f) (hf' : IsMadeFor cls' kind' f') :
    (f.hintName = f'.hintName ↔ name = name' ∧ kind = kind') ∧
      f.hintName ≠ registryHintName ∧ f.hintName ≠ inputActionHintName := by
  have hkeyed := keyed_ofDocument ht
  obtain rfl := eq_scannedAmong hcls
  obtain rfl := eq_scannedAmong hcls'
  have hname := hintName_of_isMadeFor hf
  have hname' := hintName_of_isMadeFor hf'
  obtain ⟨hregistry, haction⟩ := kind.endApart_shared
  refine ⟨⟨fun heq => ?_, ?_⟩, ?_, ?_⟩
  · rw [hname, hname'] at heq
    obtain rfl : kind = kind' := by
      by_contra hne
      obtain ⟨hkind, hkind'⟩ := ClassKind.endApart hne
      exact append_ne_append hkind hkind' heq
    have hsame := lookupName_eq_of_hintName (hplain name s hs) (hplain name' s' hs')
      ((String.append_left_inj _).mp heq)
    rw [hkeyed.lookupName name s hs, hkeyed.lookupName name' s' hs'] at hsame
    exact ⟨hsame, rfl⟩
  · rintro ⟨rfl, rfl⟩
    obtain rfl : s = s' := by
      have hget := Table.get?_of_mem hkeyed.nodup hs
      rw [Table.get?_of_mem hkeyed.nodup hs'] at hget
      exact (Option.some.inj hget).symm
    rw [hname, hname']
  · rw [hname, ← String.empty_append (s := registryHintName)]
    exact append_ne_append hregistry.1 hregistry.2
  · rw [hname, ← String.empty_append (s := inputActionHintName)]
    exact append_ne_append haction.1 haction.2

namespace Podium

def marked (name : String) (others : List (String × Json)) : Json :=
  .object (("name", .text name) :: ("markers", .list [.object [("name",
    .text Scan.singletonMarker)]]) :: others)

/-- Two marked classes: a podium with a type parameter and a step in it. -/
def document : Json :=
  .object [("types", .list [
    marked "Podium" [("namespace", .text "Game"), ("type_parameters", .list [.text "T"])],
    marked "Step" [("containing_type", .text "Game.Podium<T>")]])]

def podium : TypeSymbol :=
  { name := "Podium", nameSpace := "Game", typeParameters := ["T"],
    markers := [⟨Scan.singletonMarker, [], []⟩] }

def step : TypeSymbol :=
  { name := "Step", containingType := some "Game.Podium<T>",
    markers := [⟨Scan.singletonMarker, [], []⟩] }

def table : SymbolTable := [("Game.Podium", podium), ("Game.Podium<T>.Step", step)]

def known : TypeResolver Id := .ofTable table

theorem ofDocument_document : ofDocument Symbol.reader document = .ok table := by rfl

theorem plainlyNamed : ∀ name s, (name, s) ∈ table → s.PlainlyNamed := by
  intro name s h
  simp only [table, List.mem_cons, Prod.mk.injEq, List.not_mem_nil, or_false] at h
  rcases h with ⟨-, rfl⟩ | ⟨-, rfl⟩
  · exact ⟨by simp [podium, Bracketless], by simp [podium, Bracketless],
      by simp [podium, Unparenthesized], by simp [podium]⟩
  · exact ⟨by simp [step, Bracketless], by simp [step], by simp [step, Unparenthesized],
      by simp [step, Unparenthesized]⟩

/-- The fragment by which a marked class fills a slot. -/
def filler (s : TypeSymbol) : GeneratedFragment := slotFiller (Scan.singletonRecord s none)

theorem scanned {s : TypeSymbol} (h : Scan.isOfInterest known s = true) :
    (Scan.scanClass known s).run = some (Scan.scannedAmong known s) := by
  rw [Scan.scanClass_run, if_pos h]

theorem isMadeFor {s : TypeSymbol} (hmarked : Scan.isSingleton s) (hbase : s.baseType = none) :
    IsMadeFor (Scan.scannedAmong known s) .singleton (filler s) := by
  have hrecord : (Scan.scannedAmong known s).singleton = some (Scan.singletonRecord s none) := by
    refine (Scan.scannedAmong_singleton known s).mpr ⟨hmarked, ?_⟩
    rw [TypeResolver.baseOf, hbase]
    rfl
  let slot : SingletonSlot := ⟨s.name, some (Scan.singletonRecord s none)⟩
  exact .singleton hrecord (show slot.record = some _ from rfl) rfl

end Podium

theorem hint_names_apart_podium : ofDocument Symbol.reader Podium.document = .ok Podium.table ∧
    (∀ name s, (name, s) ∈ Podium.table → s.PlainlyNamed) ∧
    ("Game.Podium", Podium.podium) ∈ Podium.table ∧
    ("Game.Podium<T>.Step", Podium.step) ∈ Podium.table ∧
    IsMadeFor (Scan.scannedAmong Podium.known Podium.podium) .singleton
      (Podium.filler Podium.podium) ∧
    IsMadeFor (Scan.scannedAmong Podium.known Podium.step) .singleton
      (Podium.filler Podium.step) ∧
    (Podium.filler Podium.podium).hintName ≠ (Podium.filler Podium.step).hintName ∧
    (Podium.filler Podium.podium).hintName ≠ registryHintName := by
  have hpodium : ("Game.Podium", Podium.podium) ∈ Podium.table := by simp [Podium.table]
  have hstep : ("Game.Podium<T>.Step", Podium.step) ∈ Podium.table := by simp [Podium.table]
  have hmade := Podium.isMadeFor (s := Podium.podium) (by decide) rfl
  have hmade' := Podium.isMadeFor (s := Podium.step) (by decide) rfl
  obtain ⟨hnames, hregistry, -⟩ := hint_names_apart Podium.ofDocument_document
    Podium.plainlyNamed Podium.known hpodium hstep (Podium.scanned (by decide))
    (Podium.scanned (by decide)) hmade hmade'
  refine ⟨Podium.ofDocument_document, Podium.plainlyNamed, hpodium, hstep, hmade, hmade', ?_,
    hregistry⟩
  exact fun heq => absurd (hnames.mp heq).1 (by decide)

end SymbolTable
end SceneCodegen
