import Mathlib.Logic.Relation
import SceneCodegen.Proofs.Scan.Known
import SceneCodegen.Proofs.Scan.Seen
import SceneCodegen.Proofs.Table

/-!
# Searching base types

The search for the root type among the bases of a type ends, whatever cycles there are, and does not
miss the root: a name that was met before the root is not met again on the way to it. This rests on
types being told apart by their lookup names, and on there being finitely many.
-/
namespace SceneCodegen

/-- A value is another, or is not told from it. -/
def CountsAs {α : Type} [BEq α] (a b : α) : Prop := a = b ∨ (a == b) = true

/-- A type that a table holds under its lookup name, or that counts as it. -/
def SymbolTable.Holds (t : SymbolTable) (s : TypeSymbol) : Prop :=
  ∃ x, Table.get? s.lookupName t = some x ∧ CountsAs s x

/-- What is left of a declaration where markers and members do not count. -/
def Symbol.Declaration.outline (d : Symbol.Declaration) : Symbol.Declaration :=
  { d with markers := [], members := [] }

theorem Symbol.Declaration.of_outline_eq {d e : Symbol.Declaration} (h : d.outline = e.outline) :
    d.assembly = e.assembly ∧ d.lookupName = e.lookupName ∧ d.baseType = e.baseType :=
  ⟨(congrArg assembly h :), (congrArg lookupName h :), (congrArg baseType h :)⟩

namespace SymbolTable
variable {t : SymbolTable} {x y : TypeSymbol}

theorem outline_eq_of_countsAs (h : CountsAs x y) : x.outline = y.outline := by
  rcases h with rfl | h
  · rfl
  · obtain ⟨hname, hspace, hcontaining, hassembly, hkind, hparameters, hbase, -, -, hlocation⟩ :=
      Symbol.Declaration.beq_iff.mp (TypeSymbol.beq_iff.mp h).1
    simp only [Symbol.Declaration.outline, hname, hspace, hcontaining, hassembly, hkind,
      hparameters, hbase, hlocation]

/-- Types of a table that have one lookup name are alike. -/
theorem Holds.outline_eq (hx : t.Holds x) (hy : t.Holds y) (h : x.lookupName = y.lookupName) :
    x.outline = y.outline := by
  obtain ⟨z, hz, hxz⟩ := hx
  obtain ⟨z', hz', hyz⟩ := hy
  rw [h, hz'] at hz
  obtain rfl := Option.some.inj hz
  exact (outline_eq_of_countsAs hxz).trans (outline_eq_of_countsAs hyz).symm

theorem Holds.mem_keys (h : t.Holds x) : x.lookupName ∈ Table.keys t := by
  obtain ⟨y, hy, -⟩ := h
  exact List.mem_map_of_mem (f := Prod.fst) (Table.mem_of_get? hy)

end SymbolTable

namespace TypeResolver

/-- Every type that is found belongs to a table, and the bound is no less than its size. -/
structure FindsIn (r : TypeResolver Id) (t : SymbolTable) : Prop where
  find : ∀ name s, r.find name = some s → t.Holds s
  size : t.length ≤ r.size

section
variable (r : TypeResolver Id)

/-- The base of the first type leads to the second. -/
def IsBase (s base : TypeSymbol) : Prop :=
  ∃ name, s.baseType = some name ∧ name ≠ "" ∧ r.find name = some base

/-- The root type, known by its assembly and its lookup name. -/
def IsRoot (s : TypeSymbol) : Prop :=
  s.assembly = "GodotSharp" ∧ s.lookupName = "Godot.GodotObject"

/-- The root type is met from a type on, at it or at a base of it. -/
def MeetsRoot (s : TypeSymbol) : Prop := ∃ root, Relation.ReflTransGen r.IsBase s root ∧ IsRoot root

/-- The root type is met above a type. -/
def HasRootAbove (s : TypeSymbol) : Prop := ∃ root, Relation.TransGen r.IsBase s root ∧ IsRoot root

/-- The search for the root from a type on, without a bound on its steps: with the names met before
and with its answer. -/
inductive Search : List String → Option TypeSymbol → Bool → Prop
  | nowhere {visited : List String} : Search visited none false
  | root {visited : List String} {s : TypeSymbol} (h : IsRoot s) : Search visited (some s) true
  | again {visited : List String} {s : TypeSymbol} (h : ¬ IsRoot s)
      (hmet : s.lookupName ∈ visited) :
    Search visited (some s) false
  | onward {visited : List String} {s : TypeSymbol} {found : Bool} (h : ¬ IsRoot s)
      (hnew : s.lookupName ∉ visited)
      (hrest : Search (s.lookupName :: visited) (r.baseOf s).run found) :
    Search visited (some s) found

/-- The root is met after so many bases, and not before. -/
inductive Away : Nat → TypeSymbol → Prop
  | here {s : TypeSymbol} (h : IsRoot s) : Away 0 s
  | next {n : Nat} {s base : TypeSymbol} (h : ¬ IsRoot s) (hbase : r.IsBase s base)
      (hrest : Away n base) : Away (n + 1) s

end

variable {r : TypeResolver Id} {t : SymbolTable} {s x y : TypeSymbol}

theorem isRoot_iff : isRoot s = true ↔ IsRoot s := by
  simp [isRoot, IsRoot, rootAssembly, rootName]

theorem baseOf_eq_some_iff : (r.baseOf s).run = some x ↔ r.IsBase s x := by
  unfold baseOf IsBase
  cases s.baseType with
  | none =>
    refine iff_of_false (fun h => ?_) fun ⟨name, h, _⟩ => ?_
    · cases h
    · cases h
  | some name =>
    by_cases hname : name = ""
    · subst hname
      refine iff_of_false (fun h => ?_) fun ⟨name, h, hne, _⟩ => ?_
      · cases h
      · exact hne (Option.some.inj h).symm
    · have hfilled : (name == "") = false := by simpa using hname
      simp only [follow, hfilled, Option.some.injEq, exists_eq_left']
      exact (and_iff_right hname).symm

/-- A search looks at assemblies, lookup names and bases only. -/
theorem isRoot_congr (h : x.outline = y.outline) : IsRoot x ↔ IsRoot y := by
  obtain ⟨hassembly, hname, -⟩ := Symbol.Declaration.of_outline_eq h
  rw [IsRoot, IsRoot, hassembly, hname]

theorem isBase_congr (h : x.outline = y.outline) : r.IsBase x s ↔ r.IsBase y s := by
  obtain ⟨-, -, hbase⟩ := Symbol.Declaration.of_outline_eq h
  rw [IsBase, IsBase, hbase]

theorem IsBase.unique (hx : r.IsBase s x) (hy : r.IsBase s y) : x = y := by
  rw [← baseOf_eq_some_iff] at hx hy
  exact Option.some.inj (hx.symm.trans hy)

theorem FindsIn.base (hr : r.FindsIn t) (h : r.IsBase s x) : t.Holds x := by
  obtain ⟨name, -, -, hfind⟩ := h
  exact hr.find name x hfind

namespace Away

theorem unique {n m : Nat} (h : r.Away n s) (h' : r.Away m s) : n = m := by
  induction h generalizing m with
  | here h =>
    cases h' with
    | here => rfl
    | next hnot => exact absurd h hnot
  | next hnot hbase _ ih =>
    cases h' with
    | here h => exact absurd h hnot
    | next _ hbase' hrest' =>
      obtain rfl := hbase.unique hbase'
      rw [ih hrest']

theorem congr {n : Nat} (h : r.Away n x) (hxy : x.outline = y.outline) : r.Away n y := by
  cases h with
  | here h => exact .here ((isRoot_congr hxy).mp h)
  | next hnot hbase hrest =>
    exact .next (fun h => hnot ((isRoot_congr hxy).mpr h)) ((isBase_congr hxy).mp hbase) hrest

theorem meetsRoot {n : Nat} (h : r.Away n s) : r.MeetsRoot s := by
  induction h with
  | here h => exact ⟨_, .refl, h⟩
  | next _ hbase _ ih =>
    obtain ⟨root, hsteps, hroot⟩ := ih
    exact ⟨root, hsteps.head hbase, hroot⟩

end Away

theorem meetsRoot_iff : r.MeetsRoot s ↔ ∃ n, r.Away n s := by
  refine ⟨?_, fun ⟨n, h⟩ => h.meetsRoot⟩
  rintro ⟨root, hsteps, hroot⟩
  induction hsteps using Relation.ReflTransGen.head_induction_on with
  | refl => exact ⟨0, .here hroot⟩
  | @head s base hbase _ ih =>
    obtain ⟨n, hn⟩ := ih
    by_cases h : IsRoot s
    · exact ⟨0, .here h⟩
    · exact ⟨n + 1, .next h hbase hn⟩

namespace Search

theorem unique {visited : List String} {s : Option TypeSymbol} {found found' : Bool}
    (h : r.Search visited s found) (h' : r.Search visited s found') : found = found' := by
  induction h with
  | nowhere =>
    cases h'
    rfl
  | root h =>
    cases h' with
    | root => rfl
    | again hnot | onward hnot => exact absurd h hnot
  | again hnot hmet =>
    cases h' with
    | root h => exact absurd h hnot
    | again => rfl
    | onward _ hnew => exact absurd hmet hnew
  | onward hnot hnew _ ih =>
    cases h' with
    | root h => exact absurd h hnot
    | again _ hmet => exact absurd hmet hnew
    | onward _ _ hrest => exact ih hrest

/-- A search that finds the root has met it. -/
theorem exists_away {visited : List String} {s : Option TypeSymbol} {found : Bool}
    (h : r.Search visited s found) (hfound : found = true) :
    ∃ x n, s = some x ∧ r.Away n x := by
  induction h with
  | nowhere => cases hfound
  | root h => exact ⟨_, 0, rfl, .here h⟩
  | again => cases hfound
  | onward hnot _ _ ih =>
    obtain ⟨base, n, hbase, hn⟩ := ih hfound
    exact ⟨_, n + 1, rfl, .next hnot (baseOf_eq_some_iff.mp hbase) hn⟩

/-- Whatever was met before is farther from the root. -/
def Nears (r : TypeResolver Id) (t : SymbolTable) (visited : List String) (n : Nat) : Prop :=
  ∀ x, t.Holds x → x.lookupName ∈ visited → ∀ m, r.Away m x → n < m

/-- A search does not turn back before the root. -/
theorem found_of_away (hr : r.FindsIn t) {visited : List String} {s : Option TypeSymbol}
    {found : Bool} (h : r.Search visited s found) {n : Nat} (hs : s = some x) (hx : t.Holds x)
    (hn : r.Away n x) (hnears : Nears r t visited n) : found = true := by
  induction h generalizing x n with
  | nowhere => cases hs
  | root => rfl
  | again _ hmet =>
    obtain rfl := Option.some.inj hs
    exact absurd (hnears _ hx hmet n hn) (Nat.lt_irrefl n)
  | onward hnot _ _ ih =>
    obtain rfl := Option.some.inj hs
    cases hn with
    | here h => exact absurd h hnot
    | @next n _ base _ hbase hrest =>
      refine ih (baseOf_eq_some_iff.mpr hbase) (hr.base hbase) hrest fun y hy hmet m hm => ?_
      -- The type that is left now is farther from the root than its base by one.
      rcases List.mem_cons.mp hmet with hname | hmet
      · have hown := (Away.next hnot hbase hrest).congr (hx.outline_eq hy hname.symm)
        rw [hm.unique hown]
        exact Nat.lt_succ_self n
      · exact Nat.lt_of_succ_lt (hnears y hy hmet m hm)

end Search

/-- One step of the search. -/
theorem reachesRoot_run (steps : Nat) (visited : List String) (s : TypeSymbol) :
    (r.reachesRoot (steps + 1) visited (some s)).run =
      if isRoot s then true
      else if visited.contains s.lookupName then false
      else (r.reachesRoot steps (s.lookupName :: visited) (r.baseOf s).run).run := by
  rw [reachesRoot]
  split
  · rfl
  · split <;> rfl

/-- A bound that leaves a step for each type not met yet does not cut a search short. -/
theorem search_reachesRoot (hr : r.FindsIn t) {steps : Nat} {visited : List String}
    (hnodup : visited.Nodup) (hsub : visited ⊆ Table.keys t)
    (hsteps : t.length < steps + visited.length) {s : Option TypeSymbol}
    (hs : ∀ x, s = some x → t.Holds x) :
    r.Search visited s (r.reachesRoot steps visited s).run := by
  induction steps generalizing visited s with
  | zero =>
    -- The names met are distinct keys of the table, so there are no more of them than types.
    have hle := hnodup.length_le_of_subset hsub
    rw [Table.keys, List.length_map] at hle
    omega
  | succ steps ih =>
    cases s with
    | none => exact .nowhere
    | some s =>
      rw [reachesRoot_run]
      by_cases hroot : isRoot s = true
      · rw [if_pos hroot]
        exact .root (isRoot_iff.mp hroot)
      · have hnot : ¬ IsRoot s := fun h => hroot (isRoot_iff.mpr h)
        rw [if_neg hroot]
        by_cases hmet : s.lookupName ∈ visited
        · rw [if_pos (List.contains_iff_mem.mpr hmet)]
          exact .again hnot hmet
        · rw [if_neg (mt List.contains_iff_mem.mp hmet)]
          have hnodup := List.nodup_cons.mpr ⟨hmet, hnodup⟩
          have hsub : s.lookupName :: visited ⊆ Table.keys t :=
            List.cons_subset.mpr ⟨(hs s rfl).mem_keys, hsub⟩
          refine .onward hnot hmet (ih hnodup hsub ?_ fun base hbase => ?_)
          · rw [List.length_cons]
            omega
          · exact hr.base (baseOf_eq_some_iff.mp hbase)

/-- The search from a type ends, with one answer. -/
theorem search_iff (hr : r.FindsIn t) (hs : t.Holds s) {found : Bool} :
    r.Search [] (some s) found ↔ (r.inheritsFromRoot (some s)).run = found := by
  have hsteps : t.length < r.size + 2 + ([] : List String).length := by
    have hsize := hr.size
    rw [List.length_nil]
    omega
  have hsearch : r.Search [] (some s) (r.inheritsFromRoot (some s)).run :=
    search_reachesRoot hr List.nodup_nil (List.nil_subset _) hsteps fun x hx =>
      Option.some.inj hx ▸ hs
  exact ⟨fun h => hsearch.unique h, fun h => h ▸ hsearch⟩

/-- The search finds the root just if it is met from the type on. -/
theorem inheritsFromRoot_iff (hr : r.FindsIn t) (hs : t.Holds s) :
    (r.inheritsFromRoot (some s)).run = true ↔ r.MeetsRoot s := by
  have hsearch := (search_iff hr hs).mpr rfl
  rw [meetsRoot_iff]
  constructor
  · intro hfound
    obtain ⟨x, n, hx, hn⟩ := hsearch.exists_away hfound
    exact ⟨n, Option.some.inj hx ▸ hn⟩
  · rintro ⟨n, hn⟩
    exact hsearch.found_of_away hr rfl hs hn fun x _ hmet => by cases hmet

theorem hasRootAbove_iff : r.HasRootAbove s ↔ ∃ base, r.IsBase s base ∧ r.MeetsRoot base := by
  constructor
  · rintro ⟨root, hsteps, hroot⟩
    obtain ⟨base, hbase, hrest⟩ := Relation.TransGen.head'_iff.mp hsteps
    exact ⟨base, hbase, root, hrest, hroot⟩
  · rintro ⟨base, hbase, root, hrest, hroot⟩
    exact ⟨root, Relation.TransGen.head'_iff.mpr ⟨base, hbase, hrest⟩, hroot⟩

/-- A scanned class counts as derived from the root just if this is met above it. -/
theorem derivesFromRoot_iff (hr : r.FindsIn t) :
    Scan.derivesFromRoot r s = true ↔ r.HasRootAbove s := by
  rw [Scan.derivesFromRoot, hasRootAbove_iff]
  cases hbase : (r.baseOf s).run with
  | none =>
    refine iff_of_false (fun h => ?_) fun ⟨base, hs, _⟩ => ?_
    · cases h
    · rw [baseOf_eq_some_iff.mpr hs] at hbase
      cases hbase
  | some base =>
    have hs := baseOf_eq_some_iff.mp hbase
    rw [inheritsFromRoot_iff hr (hr.base hs)]
    exact ⟨fun h => ⟨base, hs, h⟩, fun ⟨_, hs', h⟩ => hs.unique hs' ▸ h⟩

/-- Whether the root is met from a type on is found out, and so it is for a scan of the type. -/
structure Decides (r : TypeResolver Id) (s : TypeSymbol) : Prop where
  /-- The search ends, with its answer and no other. -/
  ends : ∀ found, r.Search [] (some s) found ↔ (r.inheritsFromRoot (some s)).run = found
  meets : (r.inheritsFromRoot (some s)).run = true ↔ r.MeetsRoot s
  scanned : ∀ cls, (Scan.scanClass r s).run = some cls →
    (cls.derivesFromRoot = true ↔ r.HasRootAbove s)
  /-- A class that can be scanned is, if the root is met above it. -/
  scans : Scan.isScanned s = true → r.HasRootAbove s → ((Scan.scanClass r s).run).isSome

theorem FindsIn.decides (hr : r.FindsIn t) (hs : t.Holds s) : r.Decides s where
  ends _ := search_iff hr hs
  meets := inheritsFromRoot_iff hr hs
  scanned cls hcls := by
    rw [Scan.scanClass_run, Option.ite_none_right_eq_some] at hcls
    rw [← derivesFromRoot_iff hr, ← Option.some.inj hcls.2]
    rfl
  scans hscanned habove := by
    have hinterest : Scan.isOfInterest r s = true := by
      rw [Scan.isOfInterest, hscanned, (derivesFromRoot_iff hr).mpr habove]
      rfl
    rw [Scan.scanClass_run, if_pos hinterest]
    rfl

end TypeResolver
end SceneCodegen
