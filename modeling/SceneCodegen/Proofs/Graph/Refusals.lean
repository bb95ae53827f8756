import SceneCodegen.Proofs.Graph.Data
import SceneCodegen.Proofs.Graph.Exchanging

/-!
# Refused exchanges

An exchange of the items of an input stream is refused while a query computes, if its arguments or
what is stored keep the items from being found, and if their keys cannot be put in order. In the
first cases nothing has changed. In the last the items were set before: nothing has changed only if
all of them were there already.
-/
namespace SceneCodegen.Graph

section
variable {K : Type} {V : K → Type} [BEq K] [Coherent K V]

/-- Setting a node leaves every node alone that counts neither as it nor as what counts as it. -/
theorem NodeTable.get?_set_of_apart {F : Type → Type} (t : NodeTable K V F) {k l : K}
    (hkl : (k == l) = false) (h : ∀ d, (d == k) = true → (d == l) = false) (x : F (V k)) :
    (t.set k x).get? l = t.get? l := by
  have hentries (entries : List ((k : K) × F (V k))) :
      find? l (replace k x entries) = find? l entries := by
    induction entries with
    | nil => simp [replace, find?, hkl]
    | cons entry rest ih =>
      rcases entry with ⟨d, y⟩
      cases hd : d == k with
      | true => simp [replace, find?, hd, hkl, h d hd]
      | false => simp [replace, find?, hd, ih]
  exact hentries t.entries

variable [∀ k, BEq (V k)] {s s' : Store K V}

theorem setInput_locked (hbusy : s.active ≠ []) (k : K) (v : V k) :
    s.setInput k v = (.error .locked, s) := by
  simp [Store.setInput, hbusy]

theorem setInput_stored (hidle : s.active = []) {k : K} {v : V k}
    (h : (s.input? k).any (· == v) = true) : s.setInput k v = (.ok false, s) := by
  simp [Store.setInput, hidle, h]

theorem setInput_new (hidle : s.active = []) {k : K} {v : V k}
    (h : (s.input? k).any (· == v) = false) : s.setInput k v =
      (.ok true, { s with
        revision := s.revision + 1, inputs := s.inputs.set k ⟨v, s.revision + 1⟩ }) := by
  simp [Store.setInput, hidle, h]

namespace Family
variable {ι α : Type} (f : Family K V (InputNode.Value ι α))

/-- An item is stored, or what counts as it. -/
def Stored (s : Store K V) (x : ι × Option α) : Prop :=
  (s.input? (f.key (.item x.1))).any (· == f.encode (.item x.1) x.2) = true

/-- Items were set one after another, some of them to a change, and nothing else was done. -/
structure SetOnly (items : List (ι × Option α)) (changed : List ι) (s s' : Store K V) : Prop where
  run : f.setItems items s = (.ok changed, s')
  sublist : changed.Sublist (items.map Prod.fst)
  revision : s'.revision = s.revision + changed.length
  same_iff : s' = s ↔ ∀ x ∈ items, f.Stored s x
  rest : s' = { s with revision := s'.revision, inputs := s'.inputs }
  other : ∀ k, (∀ i ∈ items.map Prod.fst, (f.key (.item i) == k) = false ∧
    ∀ d, (d == f.key (.item i)) = true → (d == k) = false) → s'.inputs.get? k = s.inputs.get? k

theorem exists_setOnly (hidle : s.active = []) (items : List (ι × Option α)) :
    ∃ changed s', f.SetOnly items changed s s' := by
  induction items generalizing s with
  | nil => exact ⟨[], s, rfl, .slnil, rfl, by simp, rfl, fun _ _ => rfl⟩
  | cons x items ih =>
    rcases x with ⟨i, a⟩
    cases hstored : (s.input? (f.key (.item i))).any (· == f.encode (.item i) a) with
    | true =>
      obtain ⟨changed, s', h⟩ := ih hidle
      refine ⟨changed, s', ?_, h.sublist.cons i, h.revision, ?_, h.rest, fun k hk => ?_⟩
      · rw [setItems, setInput_stored hidle hstored]
        simp only [h.run]
        rfl
      · rw [h.same_iff, List.forall_mem_cons]
        exact ⟨fun hitems => ⟨hstored, hitems⟩, And.right⟩
      · exact h.other k fun j hj => hk j (List.mem_cons_of_mem i hj)
    | false =>
      obtain ⟨changed, s', h⟩ := ih (s := { s with
        revision := s.revision + 1
        inputs := s.inputs.set (f.key (.item i)) ⟨f.encode (.item i) a, s.revision + 1⟩ }) hidle
      have hrevision : s'.revision = s.revision + 1 + changed.length := h.revision
      refine ⟨i :: changed, s', ?_, h.sublist.cons_cons i, ?_, ?_, h.rest, fun k hk => ?_⟩
      · rw [setItems, setInput_new hidle hstored]
        simp only [h.run]
        rfl
      · rw [hrevision, List.length_cons]
        omega
      · refine ⟨fun hsame => ?_, fun hitems => ?_⟩
        · rw [hsame] at hrevision
          omega
        · have hitem : (s.input? (f.key (.item i))).any (· == f.encode (.item i) a) = true :=
            hitems (i, a) List.mem_cons_self
          rw [hstored] at hitem
          cases hitem
      · obtain ⟨hne, hapart⟩ := hk i List.mem_cons_self
        rw [h.other k fun j hj => hk j (List.mem_cons_of_mem i hj)]
        exact NodeTable.get?_set_of_apart _ hne hapart _

variable [BEq ι] [ItemKey ι] {items : Table ι (Option α)} {old : List ι}

omit [BEq ι] [ItemKey ι] in
theorem setItems_locked (hbusy : s.active ≠ []) (x : ι × Option α) (items : List (ι × Option α)) :
    f.setItems (x :: items) s = (.error .locked, s) := by
  rcases x with ⟨i, a⟩
  rw [setItems, setInput_locked hbusy]

/-- While a query computes, an exchange is refused and changes nothing. -/
theorem replaceAll_locked (hbusy : s.active ≠ []) (items : Table ι (Option α)) :
    ∃ e, f.replaceAll items s = (.error e, s) := by
  rw [replaceAll]
  cases f.inputValue .keys s with
  | error e => exact ⟨e, rfl⟩
  | ok old =>
    simp only
    cases (old.eraseDups.filter fun i => !(Table.keys items).contains i).map (·, none) ++ items with
    | cons x rest => exact ⟨.locked, by rw [setItems_locked f hbusy]⟩
    | nil =>
      rw [setItems]
      cases sortKeys (K := K) (Table.keys items) with
      | error e => exact ⟨e, rfl⟩
      | ok keys => exact ⟨.locked, by simp only [setInput_locked hbusy]; rfl⟩

/-- Keys that cannot be put in order are refused after the items were set. -/
theorem replaceAll_unsorted (hidle : s.active = []) (hold : f.inputValue .keys s = .ok old)
    {e : String × String} (hkeys : ItemKey.sorted items.keys = .error e) :
    ∃ changed, f.SetOnly (exchange old items) changed s (f.replaceAll items s).2 ∧
      (f.replaceAll items s).1 = .error (.raised e.1 e.2) := by
  obtain ⟨changed, s', h⟩ := f.exists_setOnly hidle (exchange old items)
  have hrun := h.run
  rw [exchange, missing] at hrun
  have heq : f.replaceAll items s = (.error (.raised e.1 e.2), s') := by
    rw [replaceAll, hold]
    simp only [hrun, sortKeys, hkeys]
    rfl
  rw [heq]
  exact ⟨changed, h, rfl⟩

theorem replaceAll_sorted (hidle : s.active = []) (hold : f.inputValue .keys s = .ok old)
    {keys : List ι} (hkeys : ItemKey.sorted items.keys = .ok keys) :
    ∃ changed, (f.replaceAll items s).1 = .ok changed := by
  obtain ⟨changed, s', h⟩ := f.exists_setOnly hidle (exchange old items)
  have hrun := h.run
  rw [exchange, missing] at hrun
  have hidle' : s'.active = [] := by
    rw [h.rest]
    exact hidle
  have hsorted : sortKeys (K := K) items.keys = .ok keys := by
    rw [sortKeys, hkeys]
    rfl
  refine ⟨changed, ?_⟩
  rw [replaceAll, hold]
  simp only [hrun, hsorted]
  cases hstored : (s'.input? (f.key .keys)).any (· == f.encode .keys keys) with
  | true =>
    rw [setInput_stored hidle' hstored]
    rfl
  | false =>
    rw [setInput_new hidle' hstored]
    rfl

end Family
end

namespace Open

/-- The items that a replacement gives a stream, unless it is refused before any is set. -/
def toReplace (name : String) (pairs : List (Datum × Datum)) (s : OpenStore) :
    Except (Failure Key) (Table Datum (Option Datum)) :=
  itemsFor name pairs [] s

/-- The items that an update gives a stream, unless it is refused before any is set. -/
def toUpdate (name : String) (changed : List (Datum × Datum)) (removed : List Datum)
    (s : OpenStore) : Except (Failure Key) (Table Datum (Option Datum)) := do
  let items ← itemsFor name changed removed s
  let current ← (inputFamily name).currentItems s
  let kept : Table Datum (Option Datum) := current.filter fun (i, _) => !removed.contains i
  return items.foldl (fun t (i, x) => Table.set i x t) kept

/-- How a call ends that gives a stream items. It is refused while a query computes, without the
items to give, and if their keys cannot be put in order. Then nothing changed, or the keys are to
blame: then it set each item that was not stored, and left the rest as it was, the keys included. -/
structure Ends (name : String) (given : Except (Failure Key) (Table Datum (Option Datum)))
    (s : OpenStore) (call : Except (Failure Key) (List Datum) × OpenStore) : Prop where
  refused_iff : (∃ e, call.1 = .error e) ↔ s.active ≠ [] ∨ (∃ e, given = .error e) ∨
    ∃ items e, given = .ok items ∧ ItemKey.sorted items.keys = .error e
  early : s.active ≠ [] ∨ (∃ e, given = .error e) → call.2 = s
  late : ∀ items e, s.active = [] → given = .ok items → ItemKey.sorted items.keys = .error e →
    ∃ old changed, (inputFamily name).inputValue .keys s = .ok old ∧
      (inputFamily name).SetOnly (Family.exchange old items) changed s call.2 ∧
      ∀ k, (∀ args, k ≠ .cons (.text (name ++ ".item")) args) →
        call.2.inputs.get? k = s.inputs.get? k

/-- What counts as a key with a name has that name. -/
theorem named_of_same {x args : Datum} {n : String} (h : .cons (.text n) args == x) :
    ∃ args', x = .cons (.text n) args' := by
  obtain ⟨head, args', rfl, hhead, -⟩ := Datum.same_cons_iff.mp h
  exact ⟨args', by rw [Datum.same_text_iff.mp hhead]⟩

theorem apart_of_named {name : String} {i k : Datum}
    (hk : ∀ args, k ≠ .cons (.text (name ++ ".item")) args) :
    ((inputFamily name).key (.item i) == k) = false ∧
      ∀ d, (d == (inputFamily name).key (.item i)) = true → (d == k) = false := by
  constructor
  · refine Bool.eq_false_iff.mpr fun h => ?_
    obtain ⟨args, rfl⟩ := named_of_same h
    exact hk args rfl
  · intro d hd
    obtain ⟨args, rfl⟩ := named_of_same (BEq.symm hd)
    refine Bool.eq_false_iff.mpr fun h => ?_
    obtain ⟨args', rfl⟩ := named_of_same h
    exact hk args' rfl

/-- A call that replaces the items of a stream by those it was given. -/
theorem Ends.of_replaceAll {name : String}
    {given : Except (Failure Key) (Table Datum (Option Datum))} {s : OpenStore}
    {call : Except (Failure Key) (List Datum) × OpenStore}
    (herror : ∀ e, given = .error e → call = (.error e, s))
    (hok : ∀ items, given = .ok items → call = (inputFamily name).replaceAll items s ∧
      ∃ old, (inputFamily name).inputValue .keys s = .ok old) : Ends name given s call := by
  have hlocked (hbusy : s.active ≠ []) : ∃ e, call = (.error e, s) := by
    cases hgiven : given with
    | error e => exact ⟨e, herror e hgiven⟩
    | ok items =>
      rw [(hok items hgiven).1]
      exact (inputFamily name).replaceAll_locked hbusy items
  refine ⟨⟨fun ⟨e, he⟩ => ?_, ?_⟩, ?_, fun items e hidle hgiven hkeys => ?_⟩
  · by_cases hidle : s.active = []
    · cases hgiven : given with
      | error e => exact .inr (.inl ⟨e, rfl⟩)
      | ok items =>
        obtain ⟨hcall, old, hold⟩ := hok items hgiven
        cases hkeys : ItemKey.sorted items.keys with
        | error e => exact .inr (.inr ⟨items, e, rfl, hkeys⟩)
        | ok keys =>
          obtain ⟨changed, hchanged⟩ := (inputFamily name).replaceAll_sorted hidle hold hkeys
          rw [hcall, hchanged] at he
          cases he
    · exact .inl hidle
  · rintro (hbusy | ⟨e, hgiven⟩ | ⟨items, e, hgiven, hkeys⟩)
    · obtain ⟨e, he⟩ := hlocked hbusy
      exact ⟨e, by rw [he]⟩
    · exact ⟨e, by rw [herror e hgiven]⟩
    · obtain ⟨hcall, old, hold⟩ := hok items hgiven
      by_cases hidle : s.active = []
      · obtain ⟨-, -, hraised⟩ := (inputFamily name).replaceAll_unsorted hidle hold hkeys
        exact ⟨_, by rw [hcall, hraised]⟩
      · obtain ⟨e, he⟩ := hlocked hidle
        exact ⟨e, by rw [he]⟩
  · rintro (hbusy | ⟨e, hgiven⟩)
    · obtain ⟨e, he⟩ := hlocked hbusy
      rw [he]
    · rw [herror e hgiven]
  · obtain ⟨hcall, old, hold⟩ := hok items hgiven
    obtain ⟨changed, hset, -⟩ := (inputFamily name).replaceAll_unsorted hidle hold hkeys
    rw [hcall]
    exact ⟨old, changed, hold, hset, fun k hk => hset.other k fun i _ => apart_of_named hk⟩

theorem itemsFor_ok {name : String} {pairs : List (Datum × Datum)} {removed : List Datum}
    {s : OpenStore} {items : Table Datum (Option Datum)}
    (h : itemsFor name pairs removed s = .ok items) :
    ∃ old, (inputFamily name).inputValue .keys s = .ok old := by
  rw [itemsFor] at h
  cases hold : (inputFamily name).inputValue .keys s with
  | ok old => exact ⟨old, rfl⟩
  | error e =>
    rw [hold] at h
    cases hitems : itemsOf pairs with
    | ok items => rw [hitems] at h; cases h
    | error e => rw [hitems] at h; cases h

theorem replaceAll_ends (name : String) (pairs : List (Datum × Datum)) (s : OpenStore) :
    Ends name (toReplace name pairs s) s (replaceAll name pairs s) := by
  refine .of_replaceAll (fun e he => ?_) fun items hitems => ⟨?_, itemsFor_ok hitems⟩
  · rw [toReplace] at he
    rw [replaceAll, he]
  · rw [toReplace] at hitems
    rw [replaceAll, hitems]

theorem update_ends (name : String) (changed : List (Datum × Datum)) (removed : List Datum)
    (s : OpenStore) :
    Ends name (toUpdate name changed removed s) s (update name changed removed s) := by
  cases hitems : itemsFor name changed removed s with
  | error e =>
    have hgiven : toUpdate name changed removed s = .error e := by
      rw [toUpdate, hitems]
      rfl
    have hcall : update name changed removed s = (.error e, s) := by
      rw [update, hitems]
    rw [hgiven, hcall]
    exact .of_replaceAll (fun e' he => by cases he; rfl) fun given h => by cases h
  | ok items =>
    have hcall : update name changed removed s = (inputFamily name).update items removed s := by
      rw [update, hitems]
    cases hcurrent : (inputFamily name).currentItems s with
    | error e =>
      have hgiven : toUpdate name changed removed s = .error e := by
        rw [toUpdate, hitems]
        show ((inputFamily name).currentItems s).bind _ = _
        rw [hcurrent]
        rfl
      rw [hgiven, hcall, Family.update, hcurrent]
      exact .of_replaceAll (fun e' he => by cases he; rfl) fun given h => by cases h
    | ok current =>
      have hgiven : toUpdate name changed removed s = .ok (items.foldl
          (fun t (i, x) => Table.set i x t)
            (current.filter fun (i, _) => !removed.contains i)) := by
        rw [toUpdate, hitems]
        show ((inputFamily name).currentItems s).bind _ = _
        rw [hcurrent]
        rfl
      rw [hgiven, hcall, Family.update, hcurrent]
      exact .of_replaceAll (fun e' he => by cases he) fun given h => by
        cases h
        exact ⟨rfl, itemsFor_ok hitems⟩

/-- Replacements and updates of the items of an input stream end alike. -/
theorem refused_calls_leave (name : String) (pairs : List (Datum × Datum)) (removed : List Datum)
    (s : OpenStore) : Ends name (toReplace name pairs s) s (replaceAll name pairs s) ∧
      Ends name (toUpdate name pairs removed s) s (update name pairs removed s) :=
  ⟨replaceAll_ends name pairs s, update_ends name pairs removed s⟩

/-- A stream holds one item. -/
def oneHeld : OpenStore := (replaceAll "items" [(.text "a", .int 1)] {}).2

/-- Items whose keys have no order: one has a number where the other has a tuple. -/
def unordered : List (Datum × Datum) :=
  [(.tuple [.int 1], .int 5), (.tuple [.tuple [.int 3]], .int 6)]

/-- Their replacement of the item that is held is refused, but the item is gone, its key is still
listed, and the revision has moved. -/
theorem unordered_refused : (replaceAll "items" unordered oneHeld).1.isOk = false ∧
    oneHeld.revision = 2 ∧ (replaceAll "items" unordered oneHeld).2.revision = 5 ∧
    (oneHeld.input? (keyOf "items.item" [.text "a"])).any (· == .int 1) = true ∧
    ((replaceAll "items" unordered oneHeld).2.input? (keyOf "items.item" [.text "a"])).any
      (· == .null) = true ∧
    ((replaceAll "items" unordered oneHeld).2.input? (keyOf "items.keys" [])).any
      (· == .tuple [.text "a"]) = true := by
  decide +kernel

end Open
end SceneCodegen.Graph
