import SceneCodegen.Proofs.Generation.Registration
import SceneCodegen.Proofs.Scan.Nesting

/-!
# Classes reopened

Every fragment of a run that is neither that of the registry nor that of the input actions declares
members of a scanned class. Which class it opens is read off its text: a notify fragment opens its
own class, a helper fragment does as long as the types around the class are known, and a fragment of
a singleton or of a connection list does just if the class is outermost and has no type parameters.
-/
namespace SceneCodegen
open SceneCodegen.Graph Generation

namespace Fragment

inductive ClassKind | helper | notify | singleton | connectionList

/-- A fragment of some kind is made for a scanned class. -/
inductive IsMadeFor (cls : ScannedClass) : ClassKind → GeneratedFragment → Prop
  | helper {f : GeneratedFragment} (h : renderHelpers cls = .ok (some f)) : IsMadeFor cls .helper f
  | notify {f : GeneratedFragment} (h : renderNotify cls = some f) : IsMadeFor cls .notify f
  | singleton {slot : SingletonSlot} {r : SingletonRecord} {f : GeneratedFragment}
      (hr : cls.singleton = some r) (hslot : slot.record = some r)
      (h : renderSingleton slot = some f) : IsMadeFor cls .singleton f
  | connectionList {r : ClassRecord} {connections : List Scene.Connection} {f : GeneratedFragment}
      (hr : cls.classRecord = some r) (h : renderConnectionList r connections = some f) :
      IsMadeFor cls .connectionList f

/-- The class that a fragment of some kind opens. -/
structure Opened (known : TypeResolver Id) (t : TypeSymbol) (kind : ClassKind)
    (f : GeneratedFragment) : Prop where
  notify : kind = .notify → openedType f.text = t.qualifiedName
  helper : kind = .helper → Nests known t → openedType f.text = t.qualifiedName
  plain : kind = .singleton ∨ kind = .connectionList →
    (openedType f.text = t.qualifiedName ↔ t.typeParameters = [] ∧ t.AddsNothing)

variable {known : TypeResolver Id} {t : TypeSymbol}

theorem singletonRecord_names {r : SingletonRecord}
    (h : (Scan.scannedAmong known t).singleton = some r) :
    r.name = t.name ∧ r.nameSpace = t.nameSpace := by
  obtain ⟨-, rfl⟩ := (Scan.scannedAmong_singleton known t).mp h
  exact ⟨rfl, rfl⟩

theorem classRecord_names {r : ClassRecord}
    (h : (Scan.scannedAmong known t).classRecord = some r) :
    r.name = t.name ∧ r.nameSpace = t.nameSpace := by
  obtain ⟨-, rfl⟩ := (Scan.scannedAmong_classRecord known t).mp h
  exact ⟨rfl, rfl⟩

variable (hknown : known.FindsLegible) (ht : t.Legible)
include ht

/-- A head with the plain name of a class. -/
theorem opened_plain {kind : ClassKind} {f : GeneratedFragment}
    (hkind : kind = .singleton ∨ kind = .connectionList)
    (h : openedType f.text = Text.join "." (spaces t.nameSpace ++ [t.name])) :
    Opened known t kind f where
  notify hnotify := by rcases hkind with rfl | rfl <;> cases hnotify
  helper hhelper := by rcases hkind with rfl | rfl <;> cases hhelper
  plain _ := by
    rw [h, join_spaces]
    exact Symbol.Declaration.qualify_eq_qualifiedName_iff ht.toPlain

include hknown

theorem opened_of_isMadeFor {kind : ClassKind} {f : GeneratedFragment}
    (h : IsMadeFor (Scan.scannedAmong known t) kind f) : Opened known t kind f := by
  cases h with
  | helper h =>
    have haround := TypeResolver.mem_enclosing hknown ht.around
    have hopened := openedType_helpers (c := Scan.scannedAmong known t) ht.nameSpace
      (fun d hd => haround d (List.mem_reverse.mp hd)) ht.nameWithTypeParameters h
    refine ⟨fun hnotify => (by cases hnotify), fun _ hnests => ?_, by simp⟩
    rw [hopened]
    exact hnests.spelled_eq
  | notify h =>
    obtain ⟨hnested, hopened⟩ := openedType_notify (c := Scan.scannedAmong known t) ht.nameSpace
      ht.nameWithTypeParameters h
    have hempty : (Scan.scannedAmong known t).containingDeclarations = [] := by
      simpa [ScannedClass.isNested] using hnested
    have hnothing : (known.containingDeclarations t).run = [] := hempty
    have houtermost : t.containingType.getD "" = "" :=
      containingDeclarations_eq_nil_iff.mp hnothing
    refine ⟨fun _ => ?_, fun hhelper => (by cases hhelper), by simp⟩
    rw [hopened, ← (Nests.outermost houtermost).spelled_eq, spelled, hnothing,
      List.map_nil, List.append_nil]
    rfl
  | singleton hr hslot h =>
    obtain ⟨hname, hspace⟩ := singletonRecord_names hr
    have hopened := openedType_singleton hslot (hspace ▸ ht.nameSpace) (hname ▸ ht.ownName) h
    rw [hname, hspace] at hopened
    exact opened_plain ht (.inl rfl) hopened
  | connectionList hr h =>
    obtain ⟨hname, hspace⟩ := classRecord_names hr
    have hopened := openedType_connectionList (hspace ▸ ht.nameSpace) (hname ▸ ht.ownName) h
    rw [hname, hspace] at hopened
    exact opened_plain ht (.inr rfl) hopened

end Fragment

namespace Project.Holds
variable {c : Generation.Config} {p : Project} {given : Generator.Supplies} (h : p.Holds c given)
  (hnodup : (Table.keys given.symbols).Nodup)
include h hnodup

theorem scanned_of_mem {key : String} {cls : ScannedClass}
    (hmem : (key, cls) ∈ p.scannedClasses.items) : given.scanned key = some cls := by
  rw [← h.scannedClasses_item hnodup]
  exact (Listing.mem_items.mp hmem).2

/-- Each fragment is that of the registry, that of the input actions or made for a class. -/
theorem isMadeFor_of_mem {f : GeneratedFragment} (hf : f ∈ p.candidates c) :
    f.hintName = Fragment.registryHintName ∨ f.hintName = Fragment.inputActionHintName ∨
      ∃ key cls kind, given.scanned key = some cls ∧ Fragment.IsMadeFor cls kind f := by
  simp only [candidates, List.mem_append, Option.mem_toList, h.mem_singletonFragments hnodup,
    or_assoc] at hf
  rcases hf with hf | hf | ⟨name, r, -, ⟨⟨key, cls, hcls, hr, -⟩, -⟩, rfl⟩ | hf | hf | hf
  · left
    rw [(Fragment.renderRegistry_eq_some.mp hf).2]
    rfl
  · right; left
    simp only [inputActionFragment, Fragment.renderInputActions, Option.ite_none_left_eq_some,
      Option.some.injEq] at hf
    rw [← hf.2]
    rfl
  · have hslot : (SingletonSlot.mk r.name (some r)).record = some r := rfl
    exact .inr (.inr ⟨key, cls, .singleton, hcls, .singleton hr hslot rfl⟩)
  · obtain ⟨⟨key, f⟩, hmem, rfl⟩ := List.mem_map.mp hf
    obtain ⟨cls, hcls, hvalue⟩ := Listing.mem_items_map.mp hmem
    refine .inr (.inr ⟨key, cls, .helper, h.scanned_of_mem hnodup hcls, .helper ?_⟩)
    unfold helperOutcome at hvalue
    cases hrender : Fragment.renderHelpers cls with
    | error d => simp [hrender] at hvalue
    | ok fragment => simpa [hrender] using hvalue
  · obtain ⟨⟨key, f⟩, hmem, rfl⟩ := List.mem_map.mp hf
    obtain ⟨cls, hcls, hvalue⟩ := Listing.mem_items_map.mp hmem
    exact .inr (.inr ⟨key, cls, .notify, h.scanned_of_mem hnodup hcls, .notify hvalue⟩)
  · obtain ⟨⟨key, f⟩, hmem, rfl⟩ := List.mem_map.mp hf
    obtain ⟨pair, hpair, hvalue⟩ := Listing.mem_items_map.mp hmem
    obtain ⟨r, hr, rfl⟩ := Listing.mem_items_join.mp hpair
    obtain ⟨cls, hcls, hrecord⟩ := Listing.mem_items_map.mp hr
    refine .inr (.inr ⟨key, cls, .connectionList, h.scanned_of_mem hnodup hcls, ?_⟩)
    simp only [methodfulRecord, Option.filter_eq_some_iff] at hrecord
    simp only [connectionFragment, Option.ite_none_left_eq_some] at hvalue
    exact .connectionList hrecord.1 hvalue.2

end Project.Holds

namespace Generator

namespace Supplies
variable {given : Supplies} (h : ∀ name t, (name, t) ∈ given.symbols → t.Legible)
include h

theorem legible_of_type {name : String} {t : TypeSymbol} (ht : given.type name = some t) :
    t.Legible :=
  h name t (Table.mem_of_get? ht)

theorem findsLegible : given.known.FindsLegible := fun _ _ hs => legible_of_type h hs

end Supplies

/-- Every fragment of the run of a generator that was given legible types, but for the registry and
the input actions, is made for a scanned class, which tells what it opens. -/
theorem run_opens (c : Generation.Config) (snapshots : List Snapshot) (symbols : SymbolTable)
    (hnodup : (Table.keys symbols).Nodup)
    (hlegible : ∀ name t, (name, t) ∈ symbols → t.Legible) :
    ∃ result, ((fed c snapshots symbols).run none).1 = .ok result ∧
      ∀ f ∈ result.fragments,
        f.hintName = Fragment.registryHintName ∨ f.hintName = Fragment.inputActionHintName ∨
        ∃ key t cls kind, (Supplies.fed c snapshots symbols).type key = some t ∧
          (Supplies.fed c snapshots symbols).scanned key = some cls ∧
          Fragment.IsMadeFor cls kind f ∧
          Fragment.Opened (Supplies.fed c snapshots symbols).known t kind f := by
  obtain ⟨p, value, hp, hrun, -⟩ := run_fed c snapshots hnodup
  have hgiven : ∀ name t, (name, t) ∈ (Supplies.fed c snapshots symbols).symbols → t.Legible :=
    hlegible
  refine ⟨p.result c, hrun, fun f hf => ?_⟩
  obtain hregistry | haction | ⟨key, cls, kind, hcls, hmade⟩ :=
    hp.isMadeFor_of_mem hnodup (mem_of_mem_assemble hf)
  · exact .inl hregistry
  · exact .inr (.inl haction)
  · obtain ⟨t, ht, rfl⟩ := Supplies.exists_type_of_scanned hcls
    refine .inr (.inr ⟨key, t, _, kind, ht, hcls, hmade, ?_⟩)
    exact Fragment.opened_of_isMadeFor (Supplies.findsLegible hgiven)
      (Supplies.legible_of_type hgiven ht) hmade

namespace Mixer

def config : Generation.Config := { projectRoot := "/game" }

def manifest : Snapshot := .ofText config.directory "/game" "/game/project.godot"
  "[autoload]\nAudio=\"*res://Audio.cs\""

def audio : TypeSymbol :=
  { name := "Audio", containingType := some "Main", markers := [⟨Scan.singletonMarker, [], []⟩] }

def symbols : SymbolTable := [("Main", { name := "Main" }), ("Main.Audio", audio)]

def given : Supplies := .fed config [manifest] symbols

theorem keyed : symbols.Keyed where
  nodup := by decide
  lookupName name t h := by
    simp only [symbols, List.mem_cons, Prod.mk.injEq, List.not_mem_nil, or_false] at h
    rcases h with ⟨rfl, rfl⟩ | ⟨rfl, rfl⟩ <;> rfl

theorem legible : ∀ name t, (name, t) ∈ symbols → t.Legible := by
  intro name t h
  simp only [symbols, List.mem_cons, Prod.mk.injEq, List.not_mem_nil, or_false] at h
  rcases h with ⟨-, rfl⟩ | ⟨-, rfl⟩
  · exact ⟨⟨by simp, by simp⟩, by simp [Fragment.Legible], by simp [Fragment.Legible], by simp,
      by simp [Fragment.Legible]⟩
  · exact ⟨⟨by simp [audio], by simp [audio]⟩, by simp [audio, Fragment.Legible],
      by simp [audio, Fragment.Legible], by simp [audio], by simp [audio, Fragment.Legible]⟩

theorem plainlyNamed : ∀ name t, (name, t) ∈ symbols → t.PlainlyNamed := by
  intro name t h
  simp only [symbols, List.mem_cons, Prod.mk.injEq, List.not_mem_nil, or_false] at h
  rcases h with ⟨-, rfl⟩ | ⟨-, rfl⟩
  · exact ⟨by simp [Bracketless], by simp, by simp [Unparenthesized], by simp⟩
  · exact ⟨by simp [audio, Bracketless], by simp [audio], by simp [audio, Unparenthesized],
      by simp [audio, Unparenthesized]⟩

theorem scanned_audio : given.scanned "Main.Audio" =
    some (Scan.scannedAmong given.known audio) := by
  have hinterest : Scan.isOfInterest given.known audio = true := by decide
  show (Scan.scanClass given.known audio).run = _
  rw [Scan.scanClass_run, if_pos hinterest]

def record : SingletonRecord := Scan.singletonRecord audio none

theorem candidate : given.Candidate "Audio" record :=
  ⟨"Main.Audio", _, scanned_audio, rfl, rfl⟩

theorem soleCandidate : given.SoleCandidate "Audio" record := by
  constructor
  · exact candidate
  · rintro r ⟨key, cls, hcls, hr, -⟩
    obtain ⟨t, ht, rfl⟩ := Supplies.exists_type_of_scanned hcls
    obtain ⟨hmarked, rfl⟩ := (Scan.scannedAmong_singleton _ t).mp hr
    have hmem : (key, t) ∈ symbols := Table.mem_of_get? ht
    simp only [symbols, List.mem_cons, Prod.mk.injEq, List.not_mem_nil, or_false] at hmem
    rcases hmem with ⟨-, rfl⟩ | ⟨-, rfl⟩
    · exact absurd hmarked (by decide)
    · rfl

theorem registers : given.Registers config "Audio" := by
  have hmanifest : given.manifest config "/game/project.godot" = some manifest := by decide +kernel
  have hparse : Manifest.parse manifest.lines =
      [⟨.singleton, "Audio", "*res://Audio.cs"⟩] := by decide
  exact ⟨_, manifest, hmanifest, _, by rw [hparse]; exact List.mem_singleton_self _, rfl, rfl⟩

end Mixer

theorem run_opens_mixer : (Table.keys Mixer.symbols).Nodup ∧
    (∀ name t, (name, t) ∈ Mixer.symbols → t.Legible) ∧
    ∃ result, ((fed Mixer.config [Mixer.manifest] Mixer.symbols).run none).1 = .ok result ∧
      ∀ f ∈ result.fragments,
        f.hintName = Fragment.registryHintName ∨ f.hintName = Fragment.inputActionHintName ∨
        ∃ key t cls kind, Mixer.given.type key = some t ∧ Mixer.given.scanned key = some cls ∧
          Fragment.IsMadeFor cls kind f ∧ Fragment.Opened Mixer.given.known t kind f :=
  ⟨Mixer.keyed.nodup, Mixer.legible,
    run_opens Mixer.config [Mixer.manifest] Mixer.symbols Mixer.keyed.nodup Mixer.legible⟩

/-- The fragment of a marked class within another opens another class than its own. -/
theorem mixer_not_reopened :
    ∃ result f, ((fed Mixer.config [Mixer.manifest] Mixer.symbols).run none).1 = .ok result ∧
      f ∈ result.fragments ∧
      Fragment.IsMadeFor (Scan.scannedAmong Mixer.given.known Mixer.audio) .singleton f ∧
      Fragment.openedType f.text ≠ Mixer.audio.qualifiedName := by
  obtain ⟨p, value, hp, hrun, -⟩ := run_fed Mixer.config [Mixer.manifest] Mixer.keyed.nodup
  have hslot : (SingletonSlot.mk "Audio" (some Mixer.record)).record = some Mixer.record := rfl
  have hmade : Fragment.IsMadeFor (Scan.scannedAmong Mixer.given.known Mixer.audio) .singleton
      (slotFiller Mixer.record) :=
    .singleton rfl hslot rfl
  have hfiller := (hp.slotFiller_iff Mixer.keyed Mixer.plainlyNamed Mixer.candidate).mpr
    ⟨Mixer.registers, Mixer.soleCandidate, rfl⟩
  refine ⟨p.result Mixer.config, slotFiller Mixer.record, hrun, hfiller.1, hmade, fun heq => ?_⟩
  have hfound : Mixer.given.known.FindsLegible := Supplies.findsLegible Mixer.legible
  have haudio : Mixer.audio.Legible := Mixer.legible "Main.Audio" Mixer.audio
    (by simp [Mixer.symbols])
  have hopened := Fragment.opened_of_isMadeFor hfound haudio hmade
  obtain ⟨-, hnothing⟩ := (hopened.plain (.inl rfl)).mp heq
  rcases hnothing with hempty | hspace
  · exact absurd hempty (by decide)
  · exact absurd hspace (by decide)

end Generator
end SceneCodegen
