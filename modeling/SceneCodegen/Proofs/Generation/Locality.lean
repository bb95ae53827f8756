import SceneCodegen.Proofs.Generation.Completion
import SceneCodegen.Proofs.Generation.Reads
import SceneCodegen.Proofs.Graph.Rerun

/-!
# What changes reach

After a completed run to which nothing is missing, a change of assets makes the next run read anew
only the manifests and the scenes that were added or given another snapshot, and nothing that is
made of types alone. A change of types makes it scan again only types that were changed or added and
those whose last scan looked up a type that was changed, added or taken out, and read no asset. A
scan comes to the names under which it finds types from the type that it scans, along the bases or
along the enclosing types, so its record names that type and no others than these.
-/
namespace SceneCodegen
open SceneCodegen.Graph Generation

namespace Scan

/-- Names of types to which the names that types give lead from a type. -/
inductive Along (held : String → Option TypeSymbol) (next : TypeSymbol → Option String)
    (t : TypeSymbol) : String → Prop
  | first {name : String} (h : next t = some name) : Along held next t (lookupNameOf name)
  | step {key name : String} {s : TypeSymbol} (h : Along held next t key) (hs : held key = some s)
      (hn : next s = some name) : Along held next t (lookupNameOf name)

/-- Names to which a scan comes. -/
def ComesTo (held : String → Option TypeSymbol) (t : TypeSymbol) (key : String) : Prop :=
  Along held (·.baseType) t key ∨ Along held (·.containingType) t key

/-- Reads of types give the types that are held. -/
def Found (held : String → Option TypeSymbol) : (k : Node) → Value k → Prop
  | .typeSymbols (.item name) => fun s => s = held name
  | _ => Anything

/-- A scan of a type reads the types it comes to. -/
def ScanReads (held : String → Option TypeSymbol) (t : TypeSymbol) (d : Node) : Prop :=
  ∃ key, ComesTo held t key ∧ d = .typeSymbols (.item key)

variable {held : String → Option TypeSymbol} {t : TypeSymbol} {E : Failure Node → Prop}

theorem item_heeds (key : String) : (typeSymbols.item key).Heeds (· = .typeSymbols (.item key))
    (Found held) E (· = held key) :=
  Family.heeds_get (f := typeSymbolsFamily) (fun _ v => ⟨v, rfl⟩) fun v w hv hw => by
    cases hw
    exact hv

theorem leads_along (next : TypeSymbol → Option String) (count : Nat)
    (hreads : ∀ key, Along held next t key → ScanReads held t (.typeSymbols (.item key))) :
    (resolver count).Leads (ScanReads held t) (Found held) E next
      (fun name => Along held next t (lookupNameOf name))
      fun s => ∀ name, next s = some name → Along held next t (lookupNameOf name) where
  find name hname := by
    refine (item_heeds (lookupNameOf name)).mono ?_ (fun _ he => he) ?_
    · rintro d rfl
      exact hreads _ hname
    · rintro x rfl s hs other hother
      exact .step hname hs hother
  next s hs := hs

/-- A scan reads no other types than those it comes to. -/
theorem scan_heeds (count : Nat) : (do quiet (← scanClass (resolver count) t) :
    Query (Outcome ScannedClass)).Heeds (ScanReads held t) (Found held) E Anything := by
  have hscan : (scanClass (resolver count) t).Heeds (ScanReads held t) (Found held) E Anything :=
    scanClass_heeds (leads_along (·.baseType) count fun key hkey => ⟨key, .inl hkey, rfl⟩)
      (leads_along (·.containingType) count fun key hkey => ⟨key, .inr hkey, rfl⟩)
      (fun _ h => .first h) fun _ h => .first h
  exact hscan.bind fun _ _ => .done trivial

end Scan

namespace Generation
open Scan

/-- The node of a scan reads the type that is scanned and those to which the scan comes. -/
theorem scanOutcome_heeds (held : String → Option TypeSymbol) (count : Nat) (name : String) :
    (mapProgram scannedClassesFamily typeSymbols
      (fun s => do quiet (← scanClass (resolver count) s)) (.outcome name)).Heeds
        (fun d => d = .typeSymbols (.item name) ∨ ∃ t, held name = some t ∧ ScanReads held t d)
        (Found held) (Unfailing Node) Anything := by
  refine ((item_heeds name).widen fun d hd => .inl hd).bind fun x hx => ?_
  cases x with
  | none => exact .done trivial
  | some t =>
    exact isolate_heeds _ ((Scan.scan_heeds count).widen fun d hd => .inr ⟨t, hx.symm, hd⟩)

variable {c : Config} {N : Nat} {L : Likeness Node Value} {s : Store Node Value}

theorem found_of_settle {inputs : Inputs Node Value} {held : String → Option TypeSymbol}
    (hheld : ∀ name, held name = (inputs (.typeSymbols (.item name))).getD none) (n : Nat)
    (k : Node)
    (v : Value k) (hv : settle (rules c N) inputs n k = .ok v) : Found held k v := by
  cases k with
  | typeSymbols m =>
    cases m with
    | keys => trivial
    | item name =>
      rw [settle_input rfl] at hv
      cases hv
      exact (hheld name).symm
  | _ => trivial

/-- What is recorded of a scan that is valid now. -/
theorem reads_of_scan (hs : AtRest (rules c N) L s) {held : String → Option TypeSymbol}
    (hheld : ∀ name, held name = (s.input? (.typeSymbols (.item name))).getD none) {name : String}
    {m : Memo Node (Value (.scannedClasses (.outcome name)))}
    (hm : s.memos.get? (.scannedClasses (.outcome name)) = some m) (hv : m.verifiedAt = s.revision)
    {d : Node} (hd : d ∈ m.reads) :
    d = .typeSymbols (.item name) ∨ ∃ t key, held name = some t ∧ ComesTo held t key ∧
      d = .typeSymbols (.item key) := by
  obtain ⟨p, n, ks, v, hp, hsettle, hreads⟩ := hs.recorded_now hm hv
  cases hp
  have hheeds := scanOutcome_heeds held N name
  obtain ⟨hks, -⟩ := hheeds.settleWith (fun k _ v hv => found_of_settle hheld n k v hv) hsettle
  rcases hks d ((hreads d).mp hd) with hown | ⟨t, ht, key, hkey, hother⟩
  · exact .inl hown
  · exact .inr ⟨t, key, ht, hkey, hother⟩

end Generation

section
variable {K ι : Type} {V : K → Type}

/-- What is counted, by its keys. -/
theorem exists_keys_of_countP {f : ι → K} (hf : ∀ i j, f i = f j → i = j) {p : K → Bool}
    (hp : ∀ k, p k = true ↔ ∃ i, f i = k) {ks : List K} (hnodup : ks.Nodup) :
    ∃ keys : List ι, keys.Nodup ∧ (∀ i, i ∈ keys ↔ f i ∈ ks) ∧ ks.countP p = keys.length := by
  induction ks with
  | nil => exact ⟨[], List.nodup_nil, by simp, rfl⟩
  | cons k ks ih =>
    obtain ⟨hk, hrest⟩ := List.nodup_cons.mp hnodup
    obtain ⟨keys, hkeys, hmem, hcount⟩ := ih hrest
    by_cases hpk : p k = true
    · obtain ⟨i, rfl⟩ := (hp k).mp hpk
      have hi : i ∉ keys := fun hi => hk ((hmem i).mp hi)
      refine ⟨i :: keys, List.nodup_cons.mpr ⟨hi, hkeys⟩, fun j => ?_, ?_⟩
      · rw [List.mem_cons, List.mem_cons, hmem]
        constructor
        · rintro (rfl | hj)
          · exact .inl rfl
          · exact .inr hj
        · rintro (hj | hj)
          · exact .inl (hf j i hj)
          · exact .inr hj
      · rw [List.countP_cons_of_pos hpk, hcount, List.length_cons]
    · refine ⟨keys, hkeys, fun j => ?_, ?_⟩
      · rw [List.mem_cons, hmem]
        refine ⟨.inr, fun hj => hj.resolve_left fun heq => hpk ((hp k).mpr ⟨j, heq⟩)⟩
      · rw [List.countP_cons_of_neg hpk, hcount]

variable [Node K] {s s' : Store K V} {ks : List K}

theorem executions_append (h : s'.executed = ks ++ s.executed) (name : String) :
    s'.executions name = s.executions name + ks.countP (Node.queryName · == name) := by
  rw [Store.executions, h, List.countP_append, Nat.add_comm]
  rfl

theorem executions_same (h : s'.executed = ks ++ s.executed) {name : String}
    (hks : ∀ k ∈ ks, Node.queryName k ≠ name) : s'.executions name = s.executions name := by
  have hnone : ks.countP (Node.queryName · == name) = 0 := by
    rw [List.countP_eq_zero]
    intro k hk
    simpa using hks k hk
  rw [executions_append h, hnone, Nat.add_zero]

end

namespace Generation
open Node

/-- The nodes with what is made of one type alone. -/
inductive MadeOfType (name : String) : Node → Prop
  | scan : MadeOfType name (.scannedClasses (.outcome name))
  | singleton : MadeOfType name (.singletonClasses (.outcome name))
  | record : MadeOfType name (.classRecords (.outcome name))
  | helper : MadeOfType name (.helperFragments (.outcome name))
  | notify : MadeOfType name (.notifyFragments (.outcome name))

def typeCounters : List String :=
  ["scanned_classes.outcome", "singleton_classes.outcome", "class_records.outcome",
    "helper_fragments.outcome", "notify_fragments.outcome"]

def manifestCounter : String := "manifest_entries.outcome"

def sceneCounter : String := "scene_assets.outcome"

/-- What counters count. -/
theorem counted {k : Node} (h : k.name ∈ manifestCounter :: sceneCounter :: typeCounters) :
    (k.name = manifestCounter ∧ ∃ path, .manifestEntries (.outcome path) = k) ∨
      (k.name = sceneCounter ∧ ∃ path, .sceneAssets (.outcome path) = k) ∨
      (k.name ∉ [manifestCounter, sceneCounter] ∧ ∃ name, MadeOfType name k) := by
  unfold manifestCounter sceneCounter typeCounters at h
  cases k with
  | manifestEntries n =>
    cases n with
    | outcome path => exact .inl ⟨rfl, path, rfl⟩
    | _ => simp [Node.name, mapName] at h
  | sceneAssets n =>
    cases n with
    | outcome path => exact .inr (.inl ⟨rfl, path, rfl⟩)
    | _ => simp [Node.name, mapName] at h
  | scannedClasses n | singletonClasses n | classRecords n | helperFragments n
  | notifyFragments n =>
    cases n with
    | outcome name =>
      refine .inr (.inr ⟨?_, name, by constructor⟩)
      simp [manifestCounter, sceneCounter, Node.name, mapName, fragmentsName]
    | _ => simp [Node.name, mapName, fragmentsName] at h
  | fragmentList kind => cases kind <;> simp [Node.name, fragmentsName] at h
  | manifestFiles n | sceneFiles n | typeSymbols n | manifestEntry n | singletonEntries n
  | inputActionEntries n | sceneConnections n | singletonPairs n | singletonSlots n
  | classConnections n | singletonFragments n | connectionFragments n | unregisteredSingletons n =>
    cases n <;> simp [Node.name, inputName, mapName, flatName, joinName, fragmentsName] at h
  | _ => simp [Node.name] at h

theorem name_eq_manifestCounter {k : Node} :
    k.name = manifestCounter ↔ ∃ path, .manifestEntries (.outcome path) = k := by
  constructor
  · intro h
    rcases counted (k := k) (by simp [h]) with ⟨-, hk⟩ | ⟨hname, -⟩ | ⟨hname, -⟩
    · exact hk
    · exact absurd (h.symm.trans hname) (by decide)
    · exact absurd (by simp [h]) hname
  · rintro ⟨path, rfl⟩
    rfl

theorem name_eq_sceneCounter {k : Node} :
    k.name = sceneCounter ↔ ∃ path, .sceneAssets (.outcome path) = k := by
  constructor
  · intro h
    rcases counted (k := k) (by simp [h]) with ⟨hname, -⟩ | ⟨-, hk⟩ | ⟨hname, -⟩
    · exact absurd (h.symm.trans hname) (by decide)
    · exact hk
    · exact absurd (by simp [h]) hname
  · rintro ⟨path, rfl⟩
    rfl

theorem madeOfType_of_name {k : Node} (h : k.name ∈ typeCounters) : ∃ name, MadeOfType name k := by
  rcases counted (k := k) (by simp [h]) with ⟨hname, -⟩ | ⟨hname, -⟩ | ⟨-, hk⟩
  · exact absurd (hname ▸ h) (by decide)
  · exact absurd (hname ▸ h) (by decide)
  · exact hk

section
variable {c : Config} {N : Nat} {L : Likeness Node Value} {s : Store Node Value} {k d : Node}

theorem reads_of_memo (hs : AtRest (rules c N) L s) {m : Memo Node (Value k)}
    (hm : s.memos.get? k = some m) (hd : d ∈ m.reads) : Reads anyKinds k d := by
  obtain ⟨p, below, ks, v, hp, hsettle, hreads⟩ := hs.recorded hm
  have hheeds := rules_heeds anyKinds c N k p hp
  exact (hheeds.settleWith (fun k _ v _ => expected_anyKinds k v) hsettle).1 d ((hreads d).mp hd)

/-- What is made of types alone rests on nothing else. -/
theorem ofTypes_restsOn (hs : AtRest (rules c N) L s) (h : RestsOn s k d) (hk : OfTypes k) :
    OfTypes d := by
  induction h with
  | self k => exact hk
  | read hm hd _ ih => exact ih (ofTypes_reads (reads_of_memo hs hm hd) hk)

theorem MadeOfType.ofTypes {name : String} (h : MadeOfType name k) : OfTypes k := by
  cases h <;> trivial

theorem MadeOfType.present {κ : Kinds} {name : String} (h : MadeOfType name k) (hk : k.Of κ) :
    κ.type name := by
  cases h <;> exact hk

end

end Generation

namespace Generator
section
variable {c : Config} {N : Nat} {given given' : Supplies} {g g' : Generator} {k d : Node}

namespace Completed
variable (h : Completed c N given g)
include h

theorem needs (hk : Grounded (Generation.rules c N) g.store k) (hd : Needs (given.kinds c) k d) :
    Grounded (Generation.rules c N) g.store d :=
  hd.grounded h.holding.kinds_listed h.holding.rest hk

theorem reported (hd : Needs (given.kinds c) .pipelineDiagnostics d) :
    Grounded (Generation.rules c N) g.store d :=
  h.needs (h.finished _ (.inr rfl)) hd

theorem manifest_read {path : String} (hpath : (given.manifest c path).isSome) :
    Grounded (Generation.rules c N) g.store (.manifestEntries (.outcome path)) :=
  h.needs (h.reported .manifestReports) (.entries hpath)

theorem scene_read {path : String} (hpath : (given.scene c path).isSome) :
    Grounded (Generation.rules c N) g.store (.sceneAssets (.outcome path)) :=
  h.needs (h.reported .sceneReports) (.asset hpath)

theorem type_read {name : String} (hname : (given.type name).isSome) (hk : MadeOfType name k) :
    Grounded (Generation.rules c N) g.store k := by
  cases hk with
  | scan => exact h.needs (h.reported .scanReports) (.scan hname)
  | singleton =>
    exact h.needs (h.needs (h.reported .slotReports) .singletonReports) (.singleton hname)
  | record =>
    exact h.needs (h.needs (h.reported .connectionReports) .recordReports) (.record hname)
  | helper => exact h.needs (h.reported .helperReports) (.helper hname)
  | notify => exact h.needs (h.reported .notifyReports) (.notify hname)

/-- The query of a node that was read has left a valid memo, in which its reads are recorded. -/
theorem exists_memo (hk : Grounded (Generation.rules c N) g.store k)
    (hd : Needs (given.kinds c) k d) :
    ∃ m, g.store.memos.get? k = some m ∧ m.verifiedAt = g.store.revision ∧ d ∈ m.reads := by
  obtain ⟨p, hp, hdemands⟩ := hd.demands c N
  obtain ⟨m, hm, hv⟩ := hk.exists_memo hp
  obtain ⟨q, n, ks, v, hq, hsettle, hreads⟩ := h.holding.rest.recorded_now hm hv
  cases hp.symm.trans hq
  exact ⟨m, hm, hv, (hreads d).mpr
    (hdemands.mem_reads (fun k v hv => settles_covers h.holding.kinds_listed n k v hv) hsettle)⟩

end Completed

theorem renewed_run (s : Store Node Value) (token : Option Token) (g : Generator) (k : Node) :
    Renewed s (g.run token).2.store k ↔ Renewed s g.store k :=
  renewed_congr (by rw [inputs_run])

namespace Reruns
variable {ks : List Node} (h : Completed c N given g) (h' : Completed c N given' g')
  (hks : Reruns c N given' ks g g')
include h h' hks

/-- What is read of one file is read anew just if the file was added or is another than before. -/
theorem executed_iff {before after : Option Snapshot}
    (hneed : ∀ {given : Supplies}, Needs (given.kinds c) k d)
    (hreads : ∀ e, Reads anyKinds k e → e = d)
    (hinput : ∃ absent, Generation.rules c N d = .input absent)
    (hbefore : before.isSome → Grounded (Generation.rules c N) g.store k)
    (hafter : after.isSome → Grounded (Generation.rules c N) g'.store k)
    (hpresent : k.Of (given'.kinds c) → after.isSome)
    (hrenewed : Renewed g.store g'.store d ↔ (before == after) = false) :
    k ∈ ks ↔ after.isSome ∧ (before == after) = false := by
  constructor
  · intro hk
    have hsome := hpresent (hks.within k hk)
    refine ⟨hsome, ?_⟩
    cases before with
    | none =>
      cases after with
      | none => cases hsome
      | some s => rfl
    | some s =>
      obtain ⟨m, hm, hv, -⟩ := h.exists_memo (hbefore rfl) hneed
      have honly (e : Node) (he : e ∈ m.reads) : e = d :=
        hreads e (reads_of_memo h.holding.rest hm he)
      obtain ⟨e, he, hnew⟩ := hks.cause k hk m hm hv fun e he => honly e he ▸ hinput
      exact hrenewed.mp (honly e he ▸ hnew)
  · rintro ⟨hsome, hdiffer⟩
    obtain ⟨m, hm, hv, hd⟩ := h'.exists_memo (hafter hsome) hneed
    obtain ⟨absent, habsent⟩ := hinput
    exact hks.effect k m hm hv d hd absent habsent (hrenewed.mpr hdiffer)

theorem manifest_executed_iff {path : String}
    (hrenewed : Renewed g.store g'.store (.manifestFiles (.item path)) ↔
      (given.manifest c path == given'.manifest c path) = false) :
    .manifestEntries (.outcome path) ∈ ks ↔ (given'.manifest c path).isSome ∧
      (given.manifest c path == given'.manifest c path) = false :=
  executed_iff h h' hks (.manifestFile path) (fun _ he => he.elim id False.elim) ⟨_, rfl⟩
    h.manifest_read h'.manifest_read (fun hpath => hpath) hrenewed

theorem scene_executed_iff {path : String}
    (hrenewed : Renewed g.store g'.store (.sceneFiles (.item path)) ↔
      (given.scene c path == given'.scene c path) = false) :
    .sceneAssets (.outcome path) ∈ ks ↔ (given'.scene c path).isSome ∧
      (given.scene c path == given'.scene c path) = false :=
  executed_iff h h' hks (.sceneFile path) (fun _ he => he.elim id False.elim) ⟨_, rfl⟩
    h.scene_read h'.scene_read (fun hpath => hpath) hrenewed

omit h' in
/-- What is made of types alone is not made anew while the types are as they were. -/
theorem not_madeOfType (htypes : given'.type = given.type)
    (hsame : ∀ n, ¬ Renewed g.store g'.store (.typeSymbols n)) {name : String}
    (hk : MadeOfType name k) : k ∉ ks := by
  intro hmem
  have hname : (given.type name).isSome := by
    rw [← htypes]
    exact hk.present (hks.within k hmem)
  have hgrounded := h.type_read hname hk
  refine hks.idle k hgrounded (fun d absent hd habsent => ?_) hmem
  have hd := ofTypes_restsOn h.holding.rest hd hk.ofTypes
  cases d with
  | typeSymbols n => exact hsame n
  | scannedClasses n | singletonClasses n | classRecords n | helperFragments n
  | notifyFragments n => cases habsent
  | _ => cases hd

end Reruns

/-- A file was added or given another snapshot. -/
def Supplied (before after : String → Option Snapshot) (path : String) : Prop :=
  (after path).isSome ∧ (before path == after path) = false

/-- No more was executed of the outcomes of files and types than the read of each file that was
supplied. -/
structure ReadsSupplied (c : Config) (given given' : Supplies) (g g' : Generator) : Prop where
  types : ∀ counter ∈ typeCounters, g'.store.executions counter = g.store.executions counter
  manifests : ∃ paths : List String, paths.Nodup ∧
    (∀ path, path ∈ paths ↔ Supplied (given.manifest c) (given'.manifest c) path) ∧
    g'.store.executions manifestCounter = g.store.executions manifestCounter + paths.length
  scenes : ∃ paths : List String, paths.Nodup ∧
    (∀ path, path ∈ paths ↔ Supplied (given.scene c) (given'.scene c) path) ∧
    g'.store.executions sceneCounter = g.store.executions sceneCounter + paths.length

theorem Completed.readsSupplied (h : Completed c N given g) (hg : Restocked .coarse c given' g g')
    (hsymbols : given'.symbols = given.symbols) {token : Option Token} {r : GenerationResult}
    (hr : (g'.run token).1 = .ok r) : ReadsSupplied c given given' g (g'.run token).2 := by
  have hheld := h.holding.restocked hg (fun _ _ _ => trivial) hsymbols
  obtain ⟨ks, hks⟩ := h.exists_reruns hheld hg.refreshed hr
  have h' : Completed c N given' (g'.run token).2 := ⟨hheld.run token, hks.finished⟩
  have htypes : given'.type = given.type := by
    funext name
    rw [Supplies.type, Supplies.type, hsymbols]
  constructor
  · intro counter hcounter
    refine executions_same hks.executed fun k hk hname => ?_
    have hname : k.name = counter := hname
    obtain ⟨name, hmade⟩ := madeOfType_of_name (k := k) (by rw [hname]; exact hcounter)
    refine Reruns.not_madeOfType h hks htypes (fun n => ?_) hmade hk
    rw [renewed_run]
    exact hg.not_renewed_type h.holding n
  · obtain ⟨paths, hnodup, hmem, hcount⟩ := exists_keys_of_countP
      (f := fun path => Node.manifestEntries (.outcome path)) (fun i j hij => by cases hij; rfl)
      (p := (Graph.Node.queryName · == manifestCounter))
      (fun k => beq_iff_eq.trans name_eq_manifestCounter) hks.nodup
    refine ⟨paths, hnodup, fun path => (hmem path).trans ?_, ?_⟩
    · refine Reruns.manifest_executed_iff h h' hks ?_
      rw [renewed_run]
      exact hg.renewed_manifest h.holding path
    · rw [executions_append hks.executed, hcount]
  · obtain ⟨paths, hnodup, hmem, hcount⟩ := exists_keys_of_countP
      (f := fun path => Node.sceneAssets (.outcome path)) (fun i j hij => by cases hij; rfl)
      (p := (Graph.Node.queryName · == sceneCounter))
      (fun k => beq_iff_eq.trans name_eq_sceneCounter) hks.nodup
    refine ⟨paths, hnodup, fun path => (hmem path).trans ?_, ?_⟩
    · refine Reruns.scene_executed_iff h h' hks ?_
      rw [renewed_run]
      exact hg.renewed_scene h.holding path
    · rw [executions_append hks.executed, hcount]

/-- The last scan of a type looked a name up, to which it came along bases or enclosing types. -/
structure LookedUp (g : Generator) (name key : String) : Prop where
  recorded : ∃ m, g.store.memos.get? (.scannedClasses (.outcome name)) = some m ∧
    .typeSymbols (.item key) ∈ m.reads
  comesTo : ∃ t, g.heldType name = some t ∧ Scan.ComesTo g.heldType t key

/-- The type under a name is not what the generator holds. -/
def Altered (g : Generator) (symbols : SymbolTable) (name : String) : Prop :=
  (g.heldType name == Table.get? name symbols) = false

/-- A type has to be scanned: it was changed or added, or its last scan looked up a type that was
changed, added or taken out. -/
def Unscanned (g : Generator) (symbols : SymbolTable) (name : String) : Prop :=
  (Table.get? name symbols).isSome ∧
    (Altered g symbols name ∨ ∃ key, LookedUp g name key ∧ Altered g symbols key)

/-- No asset was read, and no type scanned that did not have to be. -/
structure ScansAltered (symbols : SymbolTable) (g g' : Generator) : Prop where
  manifests : g'.store.executions manifestCounter = g.store.executions manifestCounter
  scenes : g'.store.executions sceneCounter = g.store.executions sceneCounter
  scans : ∃ ks, g'.store.executed = ks ++ g.store.executed ∧ ks.Nodup ∧
    ∀ name, .scannedClasses (.outcome name) ∈ ks → Unscanned g symbols name

theorem Completed.unscanned (h : Completed c N given g) {ks : List Node} {symbols : SymbolTable}
    (hks : Reruns c N given' ks g g') (htypes : given'.type = fun name => Table.get? name symbols)
    (hrenewed : ∀ name, Renewed g.store g'.store (.typeSymbols (.item name)) ↔
      Altered g symbols name) {name : String} (hk : .scannedClasses (.outcome name) ∈ ks) :
    Unscanned g symbols name := by
  have hpresent : (Table.get? name symbols).isSome := by
    rw [← congrFun htypes name]
    exact hks.within _ hk
  refine ⟨hpresent, ?_⟩
  cases hheld : g.heldType name with
  | none =>
    left
    obtain ⟨t, ht⟩ := Option.isSome_iff_exists.mp hpresent
    rw [Altered, hheld, ht]
    rfl
  | some t =>
    have hgiven : (given.type name).isSome := by
      rw [← h.holding.types.isSome name]
      exact Option.isSome_iff_exists.mpr ⟨t, hheld⟩
    have hgrounded := h.type_read hgiven .scan
    obtain ⟨m, hm, hv⟩ := hgrounded.exists_memo rfl
    have hvalue (name : String) :
        g.heldType name = (g.store.input? (.typeSymbols (.item name))).getD none :=
      typeSymbolsFamily_faithful.valueOf_eq (.item name) g.store
    have hreads {d : Node} (hd : d ∈ m.reads) := reads_of_scan h.holding.rest hvalue hm hv hd
    obtain ⟨d, hd, hnew⟩ := hks.cause _ hk m hm hv fun d hd => by
      rcases hreads hd with rfl | ⟨t, key, -, -, rfl⟩ <;> exact ⟨_, rfl⟩
    rcases hreads hd with rfl | ⟨t', key, ht, hcomes, rfl⟩
    · exact .inl ((hrenewed name).mp hnew)
    · exact .inr ⟨key, ⟨⟨m, hm, hd⟩, t', ht, hcomes⟩, (hrenewed key).mp hnew⟩

theorem Completed.scansAltered (h : Completed c N given g) {symbols : SymbolTable}
    (hnodup : (Table.keys symbols).Nodup) (hfew : symbols.length ≤ N) {token : Option Token}
    {r : GenerationResult} (hr : ((g.replaceSymbols symbols).2.run token).1 = .ok r) :
    ScansAltered symbols g ((g.replaceSymbols symbols).2.run token).2 := by
  have hg := h.holding.replaceSymbols_redeclared hnodup fun _ _ _ => trivial
  have hheld := h.holding.replaceSymbols hnodup (fun _ _ _ => trivial) hfew
  obtain ⟨ks, hks⟩ := h.exists_reruns hheld hg.refreshed hr
  have h' : Completed c N (given.after c (.replaceSymbols symbols))
      ((g.replaceSymbols symbols).2.run token).2 := ⟨hheld.run token, hks.finished⟩
  have hsame (s : Option Snapshot) : ¬ (s == s) = false := by
    have hs : (s == s) = true := Snapshot.same_iff.mpr rfl
    simp [hs]
  constructor
  · refine executions_same hks.executed fun k hk hname => ?_
    obtain ⟨path, rfl⟩ := name_eq_manifestCounter.mp hname
    have hold : ¬ Renewed g.store ((g.replaceSymbols symbols).2.run token).2.store
        (.manifestFiles (.item path)) := by
      rw [renewed_run]
      exact hg.not_renewed h.holding (by simp)
    have hexecuted := (Reruns.manifest_executed_iff h h' hks
      (iff_of_false hold (hsame (given.manifest c path)))).mp hk
    exact hsame _ hexecuted.2
  · refine executions_same hks.executed fun k hk hname => ?_
    obtain ⟨path, rfl⟩ := name_eq_sceneCounter.mp hname
    have hold : ¬ Renewed g.store ((g.replaceSymbols symbols).2.run token).2.store
        (.sceneFiles (.item path)) := by
      rw [renewed_run]
      exact hg.not_renewed h.holding (by simp)
    have hexecuted := (Reruns.scene_executed_iff h h' hks
      (iff_of_false hold (hsame (given.scene c path)))).mp hk
    exact hsame _ hexecuted.2
  · refine ⟨ks, hks.executed, hks.nodup, fun name hk => ?_⟩
    refine h.unscanned hks rfl (fun name => ?_) hk
    rw [renewed_run]
    exact hg.renewed_type h.holding name

end

def Order.IsOfAssets : Order → Prop
  | .replaceAssets _ | .updateAssets _ _ => True
  | _ => False

/-- A change of assets or of types makes the next run execute only what it reaches. -/
structure Local (c : Config) (given : Supplies) (g : Generator) : Prop where
  ends : ∀ order : Order, (∀ t, order = .replaceSymbols t → (Table.keys t).Nodup) →
    ∃ r, ((order.apply g).run none).1 = .ok r
  assets : ∀ order : Order, order.IsOfAssets → ∀ token r, ((order.apply g).run token).1 = .ok r →
    ReadsSupplied c given (given.after c order) g ((order.apply g).run token).2
  types : ∀ symbols : SymbolTable, (Table.keys symbols).Nodup →
    ∀ token r, ((g.replaceSymbols symbols).2.run token).1 = .ok r →
      ScansAltered symbols g ((g.replaceSymbols symbols).2.run token).2

theorem local_of_completed {c : Config} {given : Supplies} {g : Generator} {n : Nat}
    (h : ∀ N, n ≤ N → Completed c N given g) : Local c given g where
  ends order hnodup := by
    cases order with
    | replaceSymbols symbols =>
      have hcompleted := h (max n symbols.length) (Nat.le_max_left _ _)
      exact (hcompleted.holding.replaceSymbols (hnodup symbols rfl) (fun _ _ _ => trivial)
        (Nat.le_max_right _ _)).exists_result
    | replaceAssets _ | updateAssets _ _ | run _ =>
      exact ((h n (Nat.le_refl n)).holding.apply (fun _ _ => trivial)
        fun t ht => by cases ht).exists_result
  assets order horder token r hr := by
    have hcompleted := h n (Nat.le_refl n)
    cases order with
    | replaceAssets snapshots =>
      exact hcompleted.readsSupplied
        (hcompleted.holding.replaceAssets_restocked fun _ _ => trivial) rfl hr
    | updateAssets snapshots removed =>
      exact hcompleted.readsSupplied
        (hcompleted.holding.updateAssets_restocked (fun _ _ => trivial) removed) rfl hr
    | replaceSymbols symbols => cases horder
    | run token => cases horder
  types symbols hnodup token r hr :=
    (h (max n symbols.length) (Nat.le_max_left _ _)).scansAltered hnodup (Nat.le_max_right _ _) hr

theorem exists_bounded {orders : List Order}
    (h : ∀ t, .replaceSymbols t ∈ orders → (Table.keys t).Nodup) :
    ∃ n, ∀ N, n ≤ N → Bounded N orders := by
  obtain ⟨n, hn⟩ := exists_bound orders
  exact ⟨n, fun N hle t ht => ⟨h t ht, Nat.le_trans (hn t ht) hle⟩⟩

/-- What a change of the inputs reaches after a completed run, if no pass was cancelled since an
input last changed. -/
theorem run_reaches_locally (c : Config) (orders : List Order)
    (hnodup : ∀ t, .replaceSymbols t ∈ orders → (Table.keys t).Nodup)
    (hunbroken : Unbroken c orders)
    (token : Option Token) (r : GenerationResult)
    (hr : ((follow orders { config := c }).run token).1 = .ok r) :
    Local c (Supplies.ofOrders c orders) ((follow orders { config := c }).run token).2 := by
  obtain ⟨n, hn⟩ := exists_bounded hnodup
  exact local_of_completed fun N hle => hunbroken.completed (hn N hle) hr

/-- Passes without tokens are not cancelled. -/
theorem unbroken_of_no_token {c : Config} {orders : List Order}
    (hnodup : ∀ t, .replaceSymbols t ∈ orders → (Table.keys t).Nodup)
    (h : ∀ token, .run token ∈ orders → token = none) : Unbroken c orders := by
  intro before token after heq hcancelled
  subst heq
  obtain rfl := h token (by simp)
  obtain ⟨n, hn⟩ := exists_bounded fun t ht => hnodup t (List.mem_append_left _ ht)
  obtain ⟨r, hr⟩ := ((hn n (Nat.le_refl n)).holding c).exists_result
  rw [hr] at hcancelled
  cases hcancelled

namespace Lobby

def config : Config := { projectRoot := "/game" }

def manifest (text : String) : Snapshot :=
  ⟨"/game/project.godot", "res://project.godot", text, text⟩

def symbols (members : List Symbol.Member) : SymbolTable :=
  [("Lobby", { name := "Lobby", markers := [⟨Scan.singletonMarker, [], []⟩], members })]

def completed : List Order :=
  [.replaceAssets [manifest ""], .replaceSymbols (symbols []), .run none]

/-- After a completed run a pass is broken off at its last queries but five. -/
def brokenOff : List Order :=
  completed ++ [.updateAssets [manifest "[autoload]\nGame=\"\"\n"] [],
    .replaceSymbols (symbols [{ kind := .field, name := "seats" }]),
      .run (some ⟨1, false, some 24⟩)]

theorem nodup_symbols (members : List Symbol.Member) : (Table.keys (symbols members)).Nodup :=
  List.nodup_singleton _

end Lobby

theorem Lobby.nodup_completed (t : SymbolTable) (ht : .replaceSymbols t ∈ Lobby.completed) :
    (Table.keys t).Nodup := by
  simp only [Lobby.completed, List.mem_cons, reduceCtorEq, Order.replaceSymbols.injEq,
    List.not_mem_nil, or_false, false_or] at ht
  exact ht ▸ Lobby.nodup_symbols []

theorem run_reaches_locally_lobby :
    (∀ t, .replaceSymbols t ∈ Lobby.completed → (Table.keys t).Nodup) ∧
      Unbroken Lobby.config Lobby.completed ∧
      ∃ r, ((follow Lobby.completed { config := Lobby.config }).run none).1 = .ok r ∧
        Local Lobby.config (Supplies.ofOrders Lobby.config Lobby.completed)
          ((follow Lobby.completed { config := Lobby.config }).run none).2 := by
  have hunbroken : Unbroken Lobby.config Lobby.completed :=
    unbroken_of_no_token Lobby.nodup_completed fun token htoken => by
      simpa [Lobby.completed] using htoken
  obtain ⟨n, hn⟩ := exists_bounded Lobby.nodup_completed
  obtain ⟨r, hr⟩ := ((hn n (Nat.le_refl n)).holding Lobby.config).exists_result
  exact ⟨Lobby.nodup_completed, hunbroken, r, hr,
    run_reaches_locally Lobby.config Lobby.completed Lobby.nodup_completed hunbroken none r hr⟩

theorem Lobby.nodup_brokenOff (t : SymbolTable) (ht : .replaceSymbols t ∈ Lobby.brokenOff) :
    (Table.keys t).Nodup := by
  simp only [Lobby.brokenOff, Lobby.completed, List.mem_append, List.mem_cons, reduceCtorEq,
    Order.replaceSymbols.injEq, List.not_mem_nil, or_false, false_or] at ht
  rcases ht with rfl | rfl <;> exact Lobby.nodup_symbols _

/-- After a pass was cancelled and the next one completed, a manifest that is changed makes a run
scan a type that is as it was. -/
theorem lobby_scanned_again :
    (∃ r, ((follow Lobby.brokenOff { config := Lobby.config }).run none).1 = .ok r) ∧
    ((follow (Lobby.brokenOff ++ [.run none]) { config := Lobby.config }).store.executions
        "scanned_classes.outcome",
      (follow (Lobby.brokenOff ++ [.run none, .updateAssets [Lobby.manifest ""] [], .run none])
        { config := Lobby.config }).store.executions "scanned_classes.outcome") = (2, 3) := by
  constructor
  · obtain ⟨n, hn⟩ := exists_bounded Lobby.nodup_brokenOff
    exact ((hn n (Nat.le_refl n)).holding Lobby.config).exists_result
  · decide +kernel

end Generator
end SceneCodegen
