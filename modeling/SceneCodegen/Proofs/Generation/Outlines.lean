import SceneCodegen.Proofs.Generation.Orderly

/-!
# Outlines of scanned classes

A likeness for which any types and snapshots are like themselves: scanned classes count as the same
whatever arguments their markers have, and fragments made from these arguments are not compared.
What each query reads does not hang on more than that.
-/
namespace SceneCodegen
open SceneCodegen.Graph

namespace Graph
variable {K : Type} {V : K → Type} {L : Likeness K V} {α β ι : Type}

theorem Family.get_alike_any {N : Type} {W : N → Type} {f : Family K V W} (hf : f.Total) (n : N) :
    (f.get n).Alike L Eq (fun _ _ => True) (f.get n) := by
  refine Family.get_alike fun v w _ => ?_
  obtain ⟨a, ha⟩ := hf n v
  obtain ⟨b, hb⟩ := hf n w
  exact ⟨a, b, ha, hb, trivial⟩

theorem Stream.items_alike {s : Stream K V ι α} {R : Option α → Option α → Prop}
    (hkeys : s.keys.Alike L Eq Eq s.keys) (hitem : ∀ i, (s.item i).Alike L Eq R (s.item i)) :
    s.items.Alike L Eq (fun _ _ => True) s.items := by
  have hread (i : ι) : (do return (← s.item i).map (i, ·) :
      Program K V (Option (ι × α))).Alike L Eq (fun _ _ => True)
        (do return (← s.item i).map (i, ·)) := (hitem i).bind fun _ _ _ => .done trivial
  refine hkeys.bind fun keys keys' h => ?_
  subst h
  exact (Program.Alike.mapM fun i _ => hread i).bind fun _ _ _ => .done trivial

section
variable [Node K] [ItemKey ι] (self : Family K V (MapNode.Value ι β)) {source : Stream K V ι α}
  {handler : α → Program K V (Outcome β)} {i : ι}

theorem mapOutcome_alike {R : Option α → Option α → Prop} {S : Outcome β → Outcome β → Prop}
    (hitem : (source.item i).Alike L Eq R (source.item i))
    (hisSome : ∀ a b, R a b → a.isSome = b.isSome) (hnone : S {} {})
    (hhandler : ∀ a b, R (some a) (some b) → (isolate (ItemKey.label i) (handler a)).Alike L Eq S
      (isolate (ItemKey.label i) (handler b))) :
    (mapProgram self source handler (.outcome i)).Alike L Eq S
      (mapProgram self source handler (.outcome i)) := by
  refine hitem.bind fun a b hab => ?_
  have hsome := hisSome a b hab
  cases a with
  | none =>
    cases b with
    | none => exact .done hnone
    | some b => cases hsome
  | some a =>
    cases b with
    | none => cases hsome
    | some b => exact hhandler a b hab

theorem mapDiagnostics_alike {D S : List Diagnostic → List Diagnostic → Prop}
    (hinherited : source.diagnostics.Alike L Eq Eq source.diagnostics)
    (hkeys : source.keys.Alike L Eq Eq source.keys)
    (hown : ∀ i, (self.get (.outcome i)).Alike L Eq (fun a b => D a.diagnostics b.diagnostics)
      (self.get (.outcome i)))
    (hall : ∀ l m m', List.Forall₂ D m m' → S (Diagnostic.sorted (l ++ m.flatten))
      (Diagnostic.sorted (l ++ m'.flatten))) :
    (mapProgram self source handler .diagnostics).Alike L Eq S
      (mapProgram self source handler .diagnostics) := by
  have hread (i : ι) : (do return (← self.get (.outcome i)).diagnostics :
      Program K V (List Diagnostic)).Alike L Eq D
        (do return (← self.get (.outcome i)).diagnostics) := (hown i).bind fun _ _ h => .done h
  refine hinherited.bind fun l l' h => ?_
  subst h
  refine hkeys.bind fun keys keys' h => ?_
  subst h
  exact (Program.Alike.mapM fun i _ => hread i).bind fun m m' hm => .done (hall l m m' hm)

end
end Graph

def DeclaredMember.outline (m : DeclaredMember) : DeclaredMember := { m with markerArgs := [] }

/-- A class without the arguments of its markers. -/
def ScannedClass.outline (s : ScannedClass) : ScannedClass :=
  { s with members := s.members.map DeclaredMember.outline }

theorem DeclaredMember.outline_of_same {m m' : DeclaredMember} (h : m == m') :
    m.outline = m'.outline := by
  obtain ⟨hkind, howner, hname, htype, -, hsymbol, hparameters, hlocation⟩ :=
    DeclaredMember.beq_iff.mp h
  cases m
  cases m'
  simp_all [outline]

theorem ScannedClass.outline_of_same {s s' : ScannedClass} (h : s == s') :
    s.outline = s'.outline := by
  obtain ⟨hqualified, hname, hspace, hparameters, hhint, haround, hroot, hmembers, hsingleton,
    hrecord⟩ := ScannedClass.beq_iff.mp h
  have hmembers := map_eq_of_same hmembers fun x _ y _ => DeclaredMember.outline_of_same
  cases s
  cases s'
  simp_all [outline]

theorem ScannedClass.outlines_of_same {a b : Option ScannedClass} (h : (a == b) = true) :
    a.map outline = b.map outline := by
  cases a with
  | none =>
    cases b with
    | none => rfl
    | some b => cases h
  | some a =>
    cases b with
    | none => cases h
    | some b => exact congrArg some (outline_of_same h)

namespace Generation

theorem checkRegistered_outline (c : Config) (s : ScannedClass)
    (registered : List (EntryKey × Manifest.Entry)) :
    checkRegistered c s.outline registered = checkRegistered c s registered := by
  have hmembers : s.outline.membersOf .singletonClass =
      (s.membersOf .singletonClass).map DeclaredMember.outline := by
    rw [ScannedClass.membersOf, ScannedClass.outline, List.filter_map]
    rfl
  have hreport : unregistered c s.outline = unregistered c s := by
    unfold unregistered
    rw [hmembers, List.head?_map, Option.map_map]
    rfl
  unfold checkRegistered
  rw [hreport]
  rfl

/-- Nodes of which different values may count as the same. -/
def IsBlurred : Node → Prop
  | .scannedClasses (.outcome _) | .scannedClasses (.item _) | .helperFragments _
  | .notifyFragments _ | .fragmentList .helper | .fragmentList .notify | .generatedFragments
  | .pipelineDiagnostics | .singletonPairs .index | .classConnections .index => True
  | _ => False

/-- Nodes that read such ones. -/
def ReadsBlurred : Node → Prop
  | .scannedClasses (.item _) | .scannedClasses .diagnostics | .singletonClasses (.outcome _)
  | .classRecords (.outcome _) | .helperFragments _ | .notifyFragments _
  | .unregisteredSingletons (.outcome _) | .fragmentList .helper | .fragmentList .notify
  | .generatedFragments | .pipelineDiagnostics | .singletonPairs (.lookup _)
  | .classConnections (.lookup _) => True
  | _ => False

theorem readsBlurred_of_reads {κ : Kinds} {k d : Node} (h : Reads κ k d) (hd : IsBlurred d) :
    ReadsBlurred k := by
  cases k with
  | manifestFiles n | sceneFiles n | typeSymbols n => cases h
  | helperFragments n | notifyFragments n | generatedFragments | pipelineDiagnostics => trivial
  | manifestEntries n | sceneAssets n | singletonEntries n | inputActionEntries n
  | singletonFragments n =>
    cases n with
    | outcome i => rcases h with h | h <;> cases h <;> cases hd
    | item i => cases h; cases hd
    | diagnostics => rcases h with h | h | ⟨i, -, h⟩ <;> cases h <;> cases hd
  | singletonClasses n | classRecords n | unregisteredSingletons n =>
    cases n with
    | outcome i => trivial
    | item i => cases h; cases hd
    | diagnostics => rcases h with h | h | ⟨i, -, h⟩ <;> cases h <;> cases hd
  | scannedClasses n =>
    cases n with
    | outcome i => rcases h with h | ⟨name, h⟩ <;> (cases h; cases hd)
    | item i | diagnostics => trivial
  | singletonSlots n | connectionFragments n =>
    cases n with
    | outcome i => rcases h with h | h <;> cases h <;> cases hd
    | item i => cases h; cases hd
    | diagnostics => rcases h with (h | h) | h | ⟨i, -, h⟩ <;> cases h <;> cases hd
  | manifestEntry n | sceneConnections n =>
    cases n with
    | parts i | item key => cases h; cases hd
    | keys => rcases h with h | ⟨i, -, h⟩ <;> cases h <;> cases hd
  | singletonPairs n | classConnections n =>
    cases n with
    | index => rcases h with h | ⟨i, -, h⟩ <;> cases h <;> cases hd
    | lookup key => trivial
    | item i => rcases h with h | ⟨key, h⟩ <;> cases h <;> cases hd
  | singletonEntryList | inputActionList | singletonSlotList =>
    rcases h with h | ⟨i, -, h⟩ <;> cases h <;> cases hd
  | singletonRegistry | registryFragment | inputActionFragment => cases h; cases hd
  | fragmentList kind =>
    cases kind with
    | helper | notify => trivial
    | singleton | connection => rcases h with h | ⟨i, -, h⟩ <;> (cases h; cases hd)

/-- Which values of a node count as the same as far as outlines go. -/
def SameOutline : (k : Node) → Value k → Value k → Prop
  | .scannedClasses (.outcome _) => fun a b =>
    a.value.map ScannedClass.outline = b.value.map ScannedClass.outline ∧
      a.diagnostics = b.diagnostics
  | .scannedClasses (.item _) => fun a b =>
    a.map ScannedClass.outline = b.map ScannedClass.outline
  | .singletonPairs .index => Table.Same
  | .classConnections .index => Table.Same
  | .helperFragments _ | .notifyFragments _ | .fragmentList .helper | .fragmentList .notify
  | .generatedFragments | .pipelineDiagnostics => fun _ _ => True
  | _ => Eq

theorem eq_of_sameOutline {k : Node} (hk : ¬ IsBlurred k) {v w : Value k} (h : SameOutline k v w) :
    v = w := by
  cases k with
  | helperFragments n | notifyFragments n | generatedFragments | pipelineDiagnostics =>
    exact absurd trivial hk
  | scannedClasses n =>
    cases n with
    | outcome i | item i => exact absurd trivial hk
    | diagnostics => exact h
  | singletonPairs n | classConnections n =>
    cases n with
    | index => exact absurd trivial hk
    | lookup key | item i => exact h
  | fragmentList kind =>
    cases kind with
    | helper | notify => exact absurd trivial hk
    | singleton | connection => exact h
  | _ => exact h

theorem SameOutline.symm {k : Node} {v w : Value k} (h : SameOutline k v w) :
    SameOutline k w v := by
  by_cases hk : IsBlurred k
  · cases k with
    | helperFragments n | notifyFragments n | generatedFragments | pipelineDiagnostics => trivial
    | scannedClasses n =>
      cases n with
      | outcome i => exact ⟨h.1.symm, h.2.symm⟩
      | item i => exact Eq.symm h
      | diagnostics => cases hk
    | singletonPairs n | classConnections n =>
      cases n with
      | index => exact Table.Same.symm h
      | lookup key | item i => cases hk
    | fragmentList kind =>
      cases kind with
      | helper | notify => trivial
      | singleton | connection => cases hk
    | _ => cases hk
  · obtain rfl := eq_of_sameOutline hk h
    exact h

theorem SameOutline.trans {k : Node} {u v w : Value k} (h : SameOutline k u v)
    (h' : SameOutline k v w) : SameOutline k u w := by
  by_cases hk : IsBlurred k
  · cases k with
    | helperFragments n | notifyFragments n | generatedFragments | pipelineDiagnostics => trivial
    | scannedClasses n =>
      cases n with
      | outcome i => exact ⟨h.1.trans h'.1, h.2.trans h'.2⟩
      | item i => exact Eq.trans h h'
      | diagnostics => cases hk
    | singletonPairs n | classConnections n =>
      cases n with
      | index => exact Table.Same.trans h h'
      | lookup key | item i => cases hk
    | fragmentList kind =>
      cases kind with
      | helper | notify => trivial
      | singleton | connection => cases hk
    | _ => cases hk
  · obtain rfl := eq_of_sameOutline hk h
    exact h'

def outlines : Likeness Node Value := ⟨SameOutline, SameOutline.symm, SameOutline.trans⟩

theorem like_self {k : Node} (hk : ¬ IsBlurred k) (ht : ∀ n, k ≠ .typeSymbols n) (v : Value k) :
    Like k v v := by
  cases k with
  | typeSymbols n => exact absurd rfl (ht n)
  | scannedClasses n =>
    cases n with
    | outcome i | item i => exact absurd trivial hk
    | diagnostics => exact rfl
  | singletonPairs n | classConnections n =>
    cases n with
    | index => exact absurd trivial hk
    | lookup key | item i => exact rfl
  | _ => exact rfl

theorem sameOutline_of_beq (k : Node) {v w : Value k} (hv : SameOutline k v v)
    (hw : SameOutline k w w) (hk : ∀ i, k ≠ .typeSymbols i) (hm : ∀ i, k ≠ .manifestFiles i)
    (hs : ∀ i, k ≠ .sceneFiles i) (h : v == w) : SameOutline k v w := by
  by_cases hb : IsBlurred k
  · cases k with
    | helperFragments n | notifyFragments n | generatedFragments | pipelineDiagnostics => trivial
    | scannedClasses n =>
      cases n with
      | outcome i =>
        rcases v with ⟨a, ds⟩
        rcases w with ⟨b, es⟩
        obtain ⟨hvalue, hdiag⟩ := (Bool.and_eq_true _ _).mp h
        exact ⟨ScannedClass.outlines_of_same hvalue, eq_of_beq hdiag⟩
      | item i => exact ScannedClass.outlines_of_same h
      | diagnostics => cases hb
    | singletonPairs n | classConnections n =>
      cases n with
      | index => exact same_of_sameEntries (Table.Same.left hv) (Table.Same.left hw) h
      | lookup key | item i => cases hb
    | fragmentList kind =>
      cases kind with
      | helper | notify => trivial
      | singleton | connection => cases hb
    | _ => cases hb
  · have hloose : ¬ IsLoose k := by
      intro hl
      cases k with
      | typeSymbols n => exact hk n rfl
      | singletonPairs n | classConnections n =>
        cases n with
        | index => exact hb trivial
        | lookup key | item i => cases hl
      | _ => cases hl
    obtain rfl := eq_of_like hloose
      (like_of_beq k (like_self hb hk v) (like_self hb hk w) hk hm hs h)
    exact hv

section
variable {α : Type}

/-- Queries that read no blurred nodes. -/
theorem sharp_alike {k : Node} {p : Query α} (hp : p.Safe (Reads anyKinds k) (Unfailing Node))
    (hk : ¬ ReadsBlurred k) : p.Alike outlines Eq Eq p :=
  hp.alike fun _ hd _ _ h => eq_of_sameOutline (fun hb => hk (readsBlurred_of_reads hd hb)) h

theorem alike_of_kind {R : α → α → Prop} {p q : Query α} (h : p.Alike outlines Eq R q) :
    p.Alike outlines SameKind R q := h.mono (fun _ _ he => by rw [he]; rfl) fun _ _ h => h

theorem read_alike (k : Node) : (readNode k).Alike outlines Eq (SameOutline k) (readNode k) :=
  .read fun _ _ hvw => .done hvw

theorem sharp_read {k : Node} (hk : ¬ IsBlurred k) :
    (readNode k).Alike outlines Eq Eq (readNode k) :=
  (read_alike k).mono (fun _ _ h => h) fun _ _ h => eq_of_sameOutline hk h

end

theorem typeKeys_alike : typeSymbols.keys.Alike outlines Eq Eq typeSymbols.keys :=
  Family.get_alike (f := typeSymbolsFamily) (n := .keys) fun v w hvw => ⟨v, w, rfl, rfl, hvw⟩

theorem scannedItem_alike (i : String) : (scannedClasses.item i).Alike outlines Eq
    (fun a b => a.map ScannedClass.outline = b.map ScannedClass.outline)
      (scannedClasses.item i) :=
  Family.get_alike (f := scannedClassesFamily) (n := .item i) fun v w hvw => ⟨v, w, rfl, rfl, hvw⟩

theorem scannedDiagnostics_alike :
    scannedClasses.diagnostics.Alike outlines Eq Eq scannedClasses.diagnostics :=
  Family.get_alike (f := scannedClassesFamily) (n := .diagnostics)
    fun v w hvw => ⟨v, w, rfl, rfl, hvw⟩

theorem isSome_of_outlines {a b : Option ScannedClass}
    (h : a.map ScannedClass.outline = b.map ScannedClass.outline) : a.isSome = b.isSome := by
  rw [← Option.isSome_map (f := ScannedClass.outline), h, Option.isSome_map]

section
variable {β : Type} (self : Family Node Value (MapNode.Value String β))
  {handler : ScannedClass → Query (Outcome β)}

/-- What is made of the outline of a class. -/
theorem fromOutline_alike (i : String)
    (hhandler : ∀ a b, a.outline = b.outline → (handler a).Alike outlines Eq Eq (handler b)) :
    (mapProgram self scannedClasses handler (.outcome i)).Alike outlines Eq Eq
      (mapProgram self scannedClasses handler (.outcome i)) := by
  refine mapOutcome_alike self (scannedItem_alike i) (fun _ _ => isSome_of_outlines) rfl ?_
  intro a b hab
  refine (hhandler a b (Option.some.inj hab)).catching fun e e' he => ?_
  subst he
  cases e with
  | cancelled g => exact .fail rfl
  | _ => exact .done rfl

/-- What is made of a class by a program that reads nothing, and is not compared. -/
theorem uncompared_alike (hself : self.Total)
    (hhandler : ∀ label s, ∃ o, isolate label (handler s) = .done o) (n : MapNode String) :
    (mapProgram self scannedClasses handler n).Alike outlines Eq (fun _ _ => True)
      (mapProgram self scannedClasses handler n) := by
  cases n with
  | outcome i =>
    refine mapOutcome_alike self (scannedItem_alike i) (fun _ _ => isSome_of_outlines) trivial ?_
    intro a b _
    obtain ⟨o, ho⟩ := hhandler (ItemKey.label i) a
    obtain ⟨o', ho'⟩ := hhandler (ItemKey.label i) b
    rw [ho, ho']
    exact .done trivial
  | item i => exact (Family.get_alike_any hself (.outcome i)).bind fun _ _ _ => .done trivial
  | diagnostics =>
    exact mapDiagnostics_alike (D := fun _ _ => True) self scannedDiagnostics_alike typeKeys_alike
      (fun i => Family.get_alike_any hself (.outcome i)) fun _ _ _ _ => trivial

end

theorem isolate_renderHelpers (registry : Fragment.EmitterRegistry) (label : String)
    (s : ScannedClass) : ∃ o, isolate label (renderHelpersProgram registry s) = .done o := by
  unfold renderHelpersProgram
  split
  · exact ⟨_, rfl⟩
  · exact ⟨_, rfl⟩

theorem scannedClasses_alike (c : Config) (size : Nat) (n : MapNode String) :
    (mapProgram scannedClassesFamily typeSymbols
      (fun s => do quiet (← Scan.scanClass (resolver size) s)) n).Alike outlines Eq
        (SameOutline (.scannedClasses n))
      (mapProgram scannedClassesFamily typeSymbols
        (fun s => do quiet (← Scan.scanClass (resolver size) s)) n) := by
  have hget (i : String) : (scannedClassesFamily.get (.outcome i)).Alike outlines Eq
      (SameOutline (.scannedClasses (.outcome i))) (scannedClassesFamily.get (.outcome i)) :=
    Family.get_alike (f := scannedClassesFamily) (n := .outcome i)
      fun v w hvw => ⟨v, w, rfl, rfl, hvw⟩
  cases n with
  | outcome i =>
    have hrule : rules c size (.scannedClasses (.outcome i)) = .query _ := rfl
    have hsafe := rules_safe c size (.scannedClasses (.outcome i)) _ hrule
    exact (sharp_alike hsafe (by simp [ReadsBlurred])).mono (fun _ _ h => h)
      fun a b hab => by subst hab; exact ⟨rfl, rfl⟩
  | item i => exact (hget i).bind fun a b hab => .done hab.1
  | diagnostics =>
    refine mapDiagnostics_alike (D := Eq) scannedClassesFamily (.done rfl) typeKeys_alike
      (fun i => (hget i).mono (fun _ _ h => h) fun _ _ h => h.2) fun l m m' h => ?_
    rw [List.forall₂_eq_eq_eq] at h
    subst h
    rfl

theorem fragmentsOf_alike (kind : FragmentKind) :
    (fragmentsOf kind).Alike outlines Eq (fun _ _ => True) (fragmentsOf kind) :=
  (read_alike (.fragmentList kind)).bind fun _ _ _ => .done trivial

theorem assembledProgram_alike :
    assembledProgram.Alike outlines Eq (fun _ _ => True) assembledProgram :=
  (read_alike .registryFragment).bind fun _ _ _ =>
    (read_alike .inputActionFragment).bind fun _ _ _ =>
    (fragmentsOf_alike _).bind fun _ _ _ => (fragmentsOf_alike _).bind fun _ _ _ =>
    (fragmentsOf_alike _).bind fun _ _ _ => (fragmentsOf_alike _).bind fun _ _ _ => .done trivial

theorem diagnosticsProgram_alike :
    diagnosticsProgram.Alike outlines Eq (fun _ _ => True) diagnosticsProgram := by
  have hget {ι β : Type} (f : Family Node Value (MapNode.Value ι β)) (hf : f.Total) :
      (f.get .diagnostics).Alike outlines Eq (fun _ _ => True) (f.get .diagnostics) :=
    Family.get_alike_any hf .diagnostics
  exact (hget manifestEntriesFamily fun _ v => ⟨v, rfl⟩).bind fun _ _ _ =>
    (hget sceneAssetsFamily fun _ v => ⟨v, rfl⟩).bind fun _ _ _ =>
    (hget scannedClassesFamily fun _ v => ⟨v, rfl⟩).bind fun _ _ _ =>
    (hget singletonSlotsFamily fun _ v => ⟨v, rfl⟩).bind fun _ _ _ =>
    (hget unregisteredSingletonsFamily fun _ v => ⟨v, rfl⟩).bind fun _ _ _ =>
    (hget singletonFragmentsFamily fun _ v => ⟨v, rfl⟩).bind fun _ _ _ =>
    (hget helperFragmentsFamily fun _ v => ⟨v, rfl⟩).bind fun _ _ _ =>
    (hget notifyFragmentsFamily fun _ v => ⟨v, rfl⟩).bind fun _ _ _ =>
    (hget connectionFragmentsFamily fun _ v => ⟨v, rfl⟩).bind fun _ _ _ =>
    (read_alike .generatedFragments).bind fun _ _ _ => .done trivial

theorem rules_alike_outlines {registry : Fragment.EmitterRegistry} (c : Config) (size : Nat)
    (k : Node)
    (p : Query (Value k)) (hk : rulesWith registry c size k = .query p) :
    p.Alike outlines Eq (outlines.like k) p := by
  have hsafe := rules_safe c size k p hk
  cases k with
  | manifestFiles n | sceneFiles n | typeSymbols n => cases hk
  | scannedClasses n =>
    cases hk
    exact scannedClasses_alike c size n
  | singletonClasses n =>
    cases n with
    | outcome i =>
      cases hk
      exact fromOutline_alike singletonClassesFamily i fun a b hab =>
        .done (congrArg (fun s : ScannedClass => ({ value := s.singleton } : Outcome _)) hab :)
    | item i | diagnostics => exact sharp_alike hsafe (by simp [ReadsBlurred])
  | classRecords n =>
    cases n with
    | outcome i =>
      cases hk
      exact fromOutline_alike classRecordsFamily i fun a b hab =>
        .done (congrArg (fun s => ({ value := methodfulRecord s } : Outcome _)) hab :)
    | item i | diagnostics => exact sharp_alike hsafe (by simp [ReadsBlurred])
  | unregisteredSingletons n =>
    cases n with
    | outcome i =>
      cases hk
      refine fromOutline_alike unregisteredSingletonsFamily i fun a b hab => ?_
      refine (sharp_read (k := .singletonEntryList) (by simp [IsBlurred])).bind fun es es' he => ?_
      refine .done ?_
      rw [he, ← checkRegistered_outline c a, hab, checkRegistered_outline]
    | item i | diagnostics => exact sharp_alike hsafe (by simp [ReadsBlurred])
  | helperFragments n =>
    cases hk
    exact uncompared_alike helperFragmentsFamily (fun _ v => ⟨v, rfl⟩)
      (isolate_renderHelpers registry) n
  | notifyFragments n =>
    cases hk
    exact uncompared_alike notifyFragmentsFamily (fun _ v => ⟨v, rfl⟩)
      (fun _ _ => ⟨_, rfl⟩) n
  | singletonPairs n =>
    cases n with
    | index =>
      cases hk
      exact joinIndex_alike singletonPairsFamily (singletonClasses_heeds anyKinds)
        (fun _ => .done _) expected_anyKinds fun d hd _ _ h => eq_of_sameOutline
          (fun hb => readsBlurred_of_reads (κ := anyKinds) (k := .singletonPairs .index) hd hb) h
    | lookup key =>
      cases hk
      exact joinLookup_alike singletonPairsFamily key fun v w hvw => ⟨v, w, rfl, rfl, hvw⟩
    | item i => exact sharp_alike hsafe (by simp [ReadsBlurred])
  | classConnections n =>
    cases n with
    | index =>
      cases hk
      exact joinIndex_alike classConnectionsFamily (connections_heeds anyKinds)
        (fun _ => .done _) expected_anyKinds fun d hd _ _ h => eq_of_sameOutline
          (fun hb => readsBlurred_of_reads (κ := anyKinds) (k := .classConnections .index) hd hb) h
    | lookup key =>
      cases hk
      exact joinLookup_alike classConnectionsFamily key fun v w hvw => ⟨v, w, rfl, rfl, hvw⟩
    | item i => exact sharp_alike hsafe (by simp [ReadsBlurred])
  | fragmentList kind =>
    cases kind with
    | helper =>
      cases hk
      exact Stream.items_alike (R := fun _ _ => True) typeKeys_alike fun i =>
        Family.get_alike_any (f := helperFragmentsFamily) (fun _ v => ⟨v, rfl⟩) (.item i)
    | notify =>
      cases hk
      exact Stream.items_alike (R := fun _ _ => True) typeKeys_alike fun i =>
        Family.get_alike_any (f := notifyFragmentsFamily) (fun _ v => ⟨v, rfl⟩) (.item i)
    | singleton | connection => exact sharp_alike hsafe (by simp [ReadsBlurred])
  | generatedFragments =>
    cases hk
    exact assembledProgram_alike
  | pipelineDiagnostics =>
    cases hk
    exact diagnosticsProgram_alike
  | _ => exact sharp_alike hsafe (by simp [ReadsBlurred])

theorem rules_orderly_outlines {registry : Fragment.EmitterRegistry} (c : Config) (size : Nat) :
    Orderly (rulesWith registry c size) outlines where
  absent k a hk := by
    cases k with
    | manifestFiles n | sceneFiles n | typeSymbols n => rfl
    | fragmentList kind => cases kind <;> cases hk
    | _ => cases hk
  alike k p hk := alike_of_kind (rules_alike_outlines c size k p hk)
  relays := (rules_leveled c size).relays
  faithful k p v w hk hv hw h :=
    sameOutline_of_beq k hv hw (by rintro i rfl; cases hk) (by rintro i rfl; cases hk)
      (by rintro i rfl; cases hk) h

end Generation
end SceneCodegen
