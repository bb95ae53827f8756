import SceneCodegen.Proofs.Generation.Completion
import SceneCodegen.Proofs.Generation.LookupNames
import SceneCodegen.Proofs.Scan.Surroundings
import SceneCodegen.Proofs.Symbol.Merging
import SceneCodegen.Symbol.Document

/-!
# What a generator answers about types

Types are looked up through the graph of a generator, among its inputs. So the answers to questions
about types hang on nothing but what is held of the types, at any time of the generator's history,
and what is held counts as what was supplied last.
-/
namespace SceneCodegen.Graph

variable {K : Type} {V : K → Type} {α : Type} {rules : Rules K V} {value : (k : K) → V k}

/-- A node whose value is given from outside. -/
def IsInput (rules : Rules K V) (k : K) : Prop := ∃ absent, rules k = .input absent

section
variable [BEq K] [LawfulBEq K] [∀ k, BEq (V k)] {s : Store K V}

/-- The values of inputs are those in a store. -/
def GivenBy (rules : Rules K V) (value : (k : K) → V k) (s : Store K V) : Prop :=
  ∀ k absent, rules k = .input absent → value k = (s.input? k).getD absent

/-- A program that reads inputs only comes to what it comes to by their values, whatever was
computed before. -/
theorem Program.ComesTo.run_inputs {p : Program K V α} {a : α} (hp : p.ComesTo value a)
    (hsafe : p.Safe (IsInput rules) (Unfailing K))
    (hvalue : GivenBy rules value s) (depth : Nat) : (p.run rules depth s).1 = .ok a := by
  induction hsafe generalizing s with
  | done b =>
    cases hp
    rfl
  | fail he => exact he.elim
  | @read k next hk _ _ ih =>
    obtain ⟨absent, hrule⟩ := hk
    have hnoted (d : K) : (s.noteRead k).input? d = s.input? d := by simp [Store.input?]
    have hread := fetch_input hrule depth (s.noteRead k)
    have hgiven : (((s.noteRead k).inputs.get? k).getD ⟨absent, 0⟩).value = value k := by
      rw [hvalue k absent hrule, ← hnoted, Store.input?]
      cases (s.noteRead k).inputs.get? k <;> rfl
    have hafter : GivenBy rules value (s.noteRead k) := fun d absent hd => by
      rw [hnoted]
      exact hvalue d absent hd
    rw [Program.run, Program.runWith, hread]
    simp only [hgiven]
    exact ih (value k) hp hafter

end
end SceneCodegen.Graph

namespace SceneCodegen
open SceneCodegen.Graph Generation

namespace Generation

/-- A walk finds types among the inputs of a generation. -/
theorem resolver_heeds (registry : Fragment.EmitterRegistry) (c : Config) (size count : Nat)
    (name : String) {Q : (k : Node) → Value k → Prop} :
    ((resolver count).find name).Heeds (IsInput (rulesWith registry c size)) Q (Unfailing Node)
      Anything := by
  refine (Family.heeds_any (f := typeSymbolsFamily) (fun _ v => ⟨v, rfl⟩)
    (.item (lookupNameOf name))).widen ?_
  rintro d rfl
  exact ⟨none, rfl⟩

end Generation

namespace Generator

/-- Orders whose tables of types name each type once, and the last of which is this one. -/
structure Declare (c : Config) (t : SymbolTable) (orders : List Order) : Prop where
  nodup : ∀ t', .replaceSymbols t' ∈ orders → (Table.keys t').Nodup
  last : (Supplies.ofOrders c orders).symbols = t

theorem Declare.exists_bounded {c : Config} {t : SymbolTable} {orders : List Order}
    (h : Declare c t orders) : ∃ N, Bounded N orders := by
  obtain ⟨N, hN⟩ := exists_bound orders
  exact ⟨N, fun t' ht' => ⟨h.nodup t' ht', hN t' ht'⟩⟩

theorem ofOrders_concat (c : Config) (orders : List Order) (order : Order) :
    Supplies.ofOrders c (orders ++ [order]) = (Supplies.ofOrders c orders).after c order := by
  rw [Supplies.ofOrders, List.foldl_append]
  rfl

section
variable {c : Config} {N : Nat} {given : Supplies} {g : Generator}

/-- The type held after one order is the one supplied, or counts as it, if it was before. -/
theorem Holding.heldType_step (h : Holding .coarse c N given g) {order : Order}
    (hsymbols : ∀ t, order = .replaceSymbols t → (Table.keys t).Nodup) {name : String}
    (hname : CountsAs (g.heldType name) (given.type name)) :
    CountsAs ((order.apply g).heldType name) ((given.after c order).type name) := by
  have hkept {g' : Generator} (hsame : g'.store.input? (.typeSymbols (.item name)) =
      g.store.input? (.typeSymbols (.item name))) : g'.heldType name = g.heldType name :=
    typeSymbolsFamily.valueOf_congr hsame
  cases order with
  | replaceAssets snapshots =>
    have hassets : Restocked .coarse c _ g (g.replaceAssets snapshots).2 :=
      h.replaceAssets_restocked fun _ _ => trivial
    rw [Order.apply, hkept (hassets.types_same _)]
    exact hname
  | updateAssets snapshots removed =>
    have hassets : Restocked .coarse c _ g (g.updateAssets snapshots removed).2 :=
      h.updateAssets_restocked (fun _ _ => trivial) removed
    rw [Order.apply, hkept (hassets.types_same _)]
    exact hname
  | run token =>
    have hinput : (g.run token).2.store.input? (.typeSymbols (.item name)) =
        g.store.input? (.typeSymbols (.item name)) := by
      rw [Store.input?, inputs_run, Store.input?]
    rw [Order.apply, hkept hinput]
    exact hname
  | replaceSymbols symbols =>
    have hreplaced := (h.replaceSymbols_redeclared (hsymbols symbols rfl)
      fun _ _ _ => trivial).replaced
    obtain ⟨keys, hset, -⟩ := hreplaced.exists_set
    show CountsAs ((g.replaceSymbols symbols).2.heldType name) (Table.get? name symbols)
    cases hget : Table.get? name symbols with
    | none =>
      have hnone : ((g.replaceSymbols symbols).2.heldType name).isSome = false := by
        rw [heldType, (tallies_symbols hreplaced).isSome name, hget]
        rfl
      exact .inl (Option.isSome_eq_false_iff.mp hnone |> Option.isNone_iff_eq_none.mp)
    | some s =>
      have hitem : (name, some s) ∈ symbols.map fun p => (p.1, some p.2) :=
        List.mem_map_of_mem (f := fun p => (p.1, some p.2)) (Table.mem_of_get? hget)
      have htook := hset.took _ _ (List.mem_append_left _ (List.mem_map.mpr
        ⟨(name, some s), List.mem_append_right _ hitem, rfl⟩))
      rcases typeSymbolsFamily_faithful.item_took htook with he | ⟨he, hsame⟩
      · exact .inl he
      · rw [heldType, he]
        exact .inr hsame

/-- After any orders the type held under a name is the one supplied last, or counts as it. -/
theorem Bounded.heldType_same {orders : List Order} (h : Bounded N orders) (c : Config)
    (name : String) :
    CountsAs ((follow orders { config := c }).heldType name)
      ((Supplies.ofOrders c orders).type name) := by
  induction orders using List.reverseRecOn with
  | nil => exact .inl rfl
  | append_singleton orders order ih =>
    have hbefore : Bounded N orders := fun t ht => h t (List.mem_append_left _ ht)
    rw [follow_concat, ofOrders_concat]
    exact (hbefore.holding c).heldType_step (fun t ht => (h t (by simp [ht])).1) (ih hbefore)

end

/-- What a generator answers when it is asked for types by their names. -/
def answering (g : Generator) : TypeResolver Id where
  find name :=
    match (g.resolveType name).1 with
    | .ok s => s
    | .error _ => none
  size := g.typeCount

section
variable {α : Type} {g : Generator} {value : (k : Node) → Value k}

theorem exists_givenBy (g : Generator) :
    ∃ value : (k : Node) → Value k, GivenBy g.rules value g.store := by
  have hleveled : Leveled g.rules Generation.level := rules_leveled g.config g.typeCount
  obtain ⟨value, hvalue⟩ := hleveled.exists_valuation g.store.input?
  exact ⟨value, hvalue.input⟩

theorem find_comesTo (hvalue : GivenBy g.rules value g.store) (count : Nat) (name : String) :
    ((resolver count).find name).ComesTo value (g.heldType (lookupNameOf name)) := by
  have hheld : g.heldType (lookupNameOf name) =
      value (.typeSymbols (.item (lookupNameOf name))) :=
    (typeSymbolsFamily_faithful.valueOf_eq (.item (lookupNameOf name)) g.store).trans
      (hvalue (.typeSymbols (.item (lookupNameOf name))) none rfl).symm
  rw [hheld]
  rfl

theorem ask_of_inputs (hvalue : GivenBy g.rules value g.store) {p : Query α} {a : α}
    (hp : p.ComesTo value a)
    (hsafe : p.Heeds (IsInput g.rules) (fun _ => Anything) (Unfailing Node) Anything) :
    (g.ask p).1 = .ok a :=
  hp.run_inputs (hsafe.safe fun _ _ => trivial) hvalue depth

/-- A type that is asked for is looked up under the lookup name that its name stands for. -/
theorem resolveType_eq (g : Generator) (name : String) :
    (g.resolveType name).1 = .ok (g.heldType (lookupNameOf name)) := by
  obtain ⟨value, hvalue⟩ := g.exists_givenBy
  exact ask_of_inputs hvalue (find_comesTo hvalue _ name)
    (resolver_heeds g.emitters g.config _ _ name)

theorem answering_find (g : Generator) (name : String) :
    g.answering.find name = g.heldType (lookupNameOf name) := by
  show (match (g.resolveType name).1 with | .ok s => s | .error _ => none) = _
  rw [resolveType_eq]

theorem knows_answering (hvalue : GivenBy g.rules value g.store) :
    TypeResolver.Knows value (resolver g.typeCount) g.answering where
  find name := by
    rw [answering_find]
    exact find_comesTo hvalue _ name
  size := rfl

/-- What walks come to in the graph of a generator: they come to what its answers tell. -/
structure Answers (g : Generator) : Prop where
  resolves : ∀ name, (g.resolveType name).1 = .ok (g.answering.find name).run
  searches : ∀ s, (g.ask ((resolver g.typeCount).inheritsFromRoot s)).1 =
    .ok (g.answering.inheritsFromRoot s).run
  surrounds : ∀ s, (g.ask ((resolver g.typeCount).containingDeclarations s)).1 =
    .ok (g.answering.containingDeclarations s).run
  scans : ∀ s, (g.ask (Scan.scanClass (resolver g.typeCount) s)).1 =
    .ok (Scan.scanClass g.answering s).run

theorem answers (g : Generator) : g.Answers := by
  obtain ⟨value, hvalue⟩ := g.exists_givenBy
  have hknows := knows_answering hvalue
  have hleads (next : TypeSymbol → Option String) :=
    TypeResolver.leads_any (fun name =>
      (resolver_heeds g.emitters g.config g.typeCount g.typeCount name :
        ((resolver g.typeCount).find name).Heeds (IsInput g.rules) (fun _ => Anything)
          (Unfailing Node) Anything)) next
  refine ⟨fun name => ?_, fun s => ?_, fun s => ?_, fun s => ?_⟩
  · rw [answering_find]
    exact g.resolveType_eq name
  · exact ask_of_inputs hvalue (hknows.reachesRoot _ _ _)
      (TypeResolver.reachesRoot_heeds (hleads _) _ _ fun _ _ => trivial)
  · exact ask_of_inputs hvalue ((hknows.enclosing _).map List.reverse)
      (TypeResolver.containingDeclarations_heeds (hleads _) trivial)
  · exact ask_of_inputs hvalue (hknows.scanClass s)
      (Scan.scanClass_heeds (hleads _) (hleads _) trivial trivial)

end

section
variable {c : Config} {t : SymbolTable} {orders : List Order}

variable (h : Declare c t orders) (ht : t.Keyed)
include h ht

theorem Declare.typeCount_eq : (follow orders { config := c }).typeCount = t.length := by
  obtain ⟨N, hN⟩ := h.exists_bounded
  have hheld := hN.holding c
  have hnodup : (typeSymbolsFamily.valueOf .keys
      (follow orders { config := c }).store).Nodup := by
    obtain ⟨l, -, hsorted⟩ := hheld.types.keys
    obtain hsorted : sortedBy compare l = _ := Except.ok.inj hsorted
    rw [← hsorted]
    exact nodup_sortedBy compare l
  have hperm : (typeSymbolsFamily.valueOf .keys (follow orders { config := c }).store).Perm
      (Table.keys t) := by
    refine (List.perm_ext_iff_of_nodup hnodup ht.nodup).mpr fun name => ?_
    rw [hheld.types.mem_keys, Supplies.type, h.last, Option.isSome_iff_ne_none, ne_eq,
      Table.get?_eq_none_iff, not_not]
  rw [Holding.typeCount_eq, hperm.length_eq, Table.keys, List.length_map]

/-- What is held under a name is the type of the table, or counts as it. -/
theorem Declare.exists_held {name : String} {s : TypeSymbol}
    (hs : (follow orders { config := c }).heldType name = some s) :
    ∃ x, Table.get? name t = some x ∧ s.lookupName = name ∧ CountsAs s x := by
  obtain ⟨N, hN⟩ := h.exists_bounded
  have hsame := hN.heldType_same c name
  rw [hs, Supplies.type, h.last] at hsame
  cases hget : Table.get? name t with
  | none =>
    rw [hget] at hsame
    rcases hsame with hsame | hsame <;> cases hsame
  | some x =>
    rw [hget] at hsame
    have hsame : CountsAs s x := hsame.imp Option.some.inj id
    have houtline := SymbolTable.outline_eq_of_countsAs hsame
    refine ⟨x, rfl, ?_, hsame⟩
    rw [(Symbol.Declaration.of_outline_eq houtline).2.1]
    exact ht.lookupName name x (Table.mem_of_get? hget)

/-- After any orders a generator finds the types of the table that was given last. -/
theorem Declare.findsIn : (follow orders { config := c }).answering.FindsIn t where
  find name s hs := by
    obtain ⟨x, hx, hname, hsame⟩ := h.exists_held ht ((answering_find _ name).symm.trans hs)
    exact ⟨x, hname ▸ hx, hsame⟩
  size := Nat.le_of_eq (h.typeCount_eq ht).symm

theorem Declare.findsShorter : (follow orders { config := c }).answering.FindsShorter := by
  intro name s hs
  obtain ⟨x, -, hname, -⟩ := h.exists_held ht ((answering_find _ name).symm.trans hs)
  rw [hname]
  exact (lookupNameOf_sublist name).length_le

omit h in
theorem findsIn_ofTable : (TypeResolver.ofTable t).FindsIn t where
  find name s hs := by
    have hname := ht.lookupName name s (Table.mem_of_get? hs)
    exact ⟨s, hname ▸ hs, .inl rfl⟩
  size := Nat.le_refl _

omit h in
theorem findsShorter_ofTable : (TypeResolver.ofTable t).FindsShorter := by
  intro name s hs
  rw [ht.lookupName name s (Table.mem_of_get? hs)]

omit h in
theorem holds_of_mem {name : String} {s : TypeSymbol} (hs : (name, s) ∈ t) : t.Holds s := by
  refine ⟨s, ?_, .inl rfl⟩
  rw [ht.lookupName name s hs]
  exact Table.get?_of_mem ht.nodup hs

end

/-- Among the types of a document, with cycles or not, it is found out of each whether the root is
met from it on, by exact names as well as by the answers of a generator. -/
theorem root_search_decided (c : Config) {read : SymbolTable.Reader} {document : Json}
    {t : SymbolTable} (ht : SymbolTable.ofDocument read document = .ok t) {name : String}
    {s : TypeSymbol}
    (hs : (name, s) ∈ t) {orders : List Order} (h : Declare c t orders) :
    (TypeResolver.ofTable t).Decides s ∧
      (follow orders { config := c }).answering.Decides s ∧
      (follow orders { config := c }).Answers := by
  have hkeyed := SymbolTable.keyed_ofDocument ht
  have hheld := holds_of_mem hkeyed hs
  exact ⟨(findsIn_ofTable hkeyed).decides hheld, (h.findsIn hkeyed).decides hheld, answers _⟩

/-- Among the types of a document the walk outward from any type ends, whatever is given
as enclosing it, and tells what it came upon, by exact names as well as by the answers of
a generator. -/
theorem surroundings_told (c : Config) {read : SymbolTable.Reader} {document : Json}
    {t : SymbolTable} (ht : SymbolTable.ofDocument read document = .ok t) (s : TypeSymbol)
    {orders : List Order}
    (h : Declare c t orders) :
    (TypeResolver.ofTable t).Surrounds t s ∧
      (follow orders { config := c }).answering.Surrounds t s ∧
      (follow orders { config := c }).Answers := by
  have hkeyed := SymbolTable.keyed_ofDocument ht
  exact ⟨(findsIn_ofTable hkeyed).surrounds (findsShorter_ofTable hkeyed) s,
    (h.findsIn hkeyed).surrounds (h.findsShorter hkeyed) s, answers _⟩

namespace Menu

def config : Config := { projectRoot := "/game" }

def entry (name : String) (others : List (String × Json)) : Json :=
  .object (("name", .text name) :: others)

/-- A menu derived from the root, a button in it, and two classes each of which has the other as its
base. -/
def document : Json :=
  .object [("types", .list [
    entry "GodotObject" [("namespace", .text "Godot"), ("assembly", .text "GodotSharp")],
    entry "Menu" [("type_parameters", .list [.text "T"]),
      ("base_type", .text "global::Godot.GodotObject")],
    entry "Button" [("containing_type", .text "Menu<T>"), ("base_type", .text "Ring")],
    entry "Ring" [("containing_type", .text "Game.Knots"), ("base_type", .text "Knot")],
    entry "Knot" [("base_type", .text "Game.Knots.Ring")]])]

def root : TypeSymbol := { name := "GodotObject", nameSpace := "Godot", assembly := "GodotSharp" }

def menu : TypeSymbol :=
  { name := "Menu", typeParameters := ["T"], baseType := some "global::Godot.GodotObject" }

def button : TypeSymbol :=
  { name := "Button", containingType := some "Menu<T>", baseType := some "Ring" }

def ring : TypeSymbol :=
  { name := "Ring", containingType := some "Game.Knots", baseType := some "Knot" }

def knot : TypeSymbol := { name := "Knot", baseType := some "Game.Knots.Ring" }

def table : SymbolTable :=
  [("Godot.GodotObject", root), ("Menu", menu), ("Menu<T>.Button", button),
    ("Game.Knots.Ring", ring), ("Knot", knot)]

theorem ofDocument_document : SymbolTable.ofDocument Symbol.reader document = .ok table := by rfl

def orders : List Order := [.replaceSymbols [], .replaceSymbols table]

theorem declare : Declare config table orders where
  nodup t' ht' := by
    simp only [orders, List.mem_cons, Order.replaceSymbols.injEq, List.not_mem_nil, or_false] at ht'
    rcases ht' with rfl | rfl <;> decide
  last := rfl

end Menu

theorem root_search_decided_menu : SymbolTable.ofDocument Symbol.reader Menu.document =
    .ok Menu.table ∧
    ("Game.Knots.Ring", Menu.ring) ∈ Menu.table ∧ Declare Menu.config Menu.table Menu.orders ∧
    (TypeResolver.ofTable Menu.table).Decides Menu.ring ∧
    (follow Menu.orders { config := Menu.config }).answering.Decides Menu.ring ∧
    (follow Menu.orders { config := Menu.config }).Answers := by
  have hring : ("Game.Knots.Ring", Menu.ring) ∈ Menu.table := by simp [Menu.table]
  exact ⟨Menu.ofDocument_document, hring, Menu.declare,
    root_search_decided Menu.config Menu.ofDocument_document hring Menu.declare⟩

theorem surroundings_told_menu : SymbolTable.ofDocument Symbol.reader Menu.document =
    .ok Menu.table ∧
    Declare Menu.config Menu.table Menu.orders ∧
    (TypeResolver.ofTable Menu.table).Surrounds Menu.table Menu.button ∧
    (follow Menu.orders { config := Menu.config }).answering.Surrounds Menu.table Menu.button ∧
    (follow Menu.orders { config := Menu.config }).Answers :=
  ⟨Menu.ofDocument_document, Menu.declare,
    surroundings_told Menu.config Menu.ofDocument_document Menu.button Menu.declare⟩

end Generator
end SceneCodegen
