import SceneCodegen.Proofs.Diagnostic
import SceneCodegen.Proofs.Graph.Composition

/-!
# What compositions come to

The list of items of a composition is what its stream comes to by the values of the nodes. Reads
of a store at rest give values like these, whatever was computed before, unless a pass is cancelled.
-/
namespace SceneCodegen.Graph

variable {K : Type} {V : K → Type} {ι κ α β γ : Type} {value : (k : K) → V k}

theorem Program.ComesTo.of_map {p : Program K V α} {f : α → β} {b : β}
    (h : (f <$> p).ComesTo value b) : ∃ a, p.ComesTo value a ∧ f a = b := by
  induction p with
  | done a =>
    cases h
    exact ⟨a, rfl, rfl⟩
  | fail e => cases h
  | read k next ih => exact ih (.ok (value k)) h
  | cancel next ih => exact ih h

/-- A program that comes to a result by the values of nodes reads nodes that have settled. -/
theorem Program.ComesTo.exists_settleWith {given : Inputs K V} {rules : Rules K V}
    (hvalue : ∀ k, ∃ n, settle rules given n k = .ok (value k)) {p : Program K V α} {a : α}
    (h : p.ComesTo value a) : ∃ n ks, p.settleWith (settle rules given n) = .ok (ks, a) := by
  induction p with
  | done b =>
    cases h
    exact ⟨0, [], rfl⟩
  | fail e => cases h
  | read k next ih =>
    obtain ⟨n, hn⟩ := hvalue k
    obtain ⟨m, ks, hrest⟩ := ih (.ok (value k)) h
    have hrest' :
        (next (.ok (value k))).settleWith (settle rules given (max n m)) = .ok (ks, a) := by
      rw [Program.settleWith_mono (fun k hk => settle_mono (Nat.le_max_right n m) hk), hrest]
      rw [hrest]
      exact ended_ok _
    refine ⟨max n m, k :: ks, ?_⟩
    simp only [Program.settleWith, settle_ok_mono (Nat.le_max_left n m) hn, hrest']
    rfl
  | cancel next ih => exact ih h

section
variable {N : Type} {W : N → Type} {f : Family K V W} {rules : Rules K V} {given : Inputs K V}
  {p : (n : N) → Program K V (W n)}

/-- Nodes with programs hold what their programs come to. -/
theorem Family.Exact.exists_holds (hf : f.Exact) (hvalue : Valuation rules given value)
    (hrule : ∀ n, rules (f.key n) = .query (f.rule n (p n))) :
    ∃ w, f.Holds value w ∧ ∀ n, (p n).ComesTo value (w n) := by
  have hnode (n : N) : ∃ w, (p n).ComesTo value w ∧ f.encode n w = value (f.key n) :=
    Program.ComesTo.of_map (hvalue.query _ _ (hrule n))
  obtain ⟨w, hw⟩ := Classical.skolem.mp hnode
  refine ⟨w, fun n => ?_, fun n => (hw n).1⟩
  refine (Program.ComesTo.get (f.key n)).bind ?_
  rw [← (hw n).2, hf.encode]
  exact .done (w n)

end

namespace Listing
variable {L : Listing ι α}

theorem items_map (f : α → Outcome β) :
    (L.map f).items = L.items.filterMap fun x => (f x.2).value.map (x.1, ·) := by
  rw [items, items, List.filterMap_filterMap]
  refine List.filterMap_congr fun i _ => ?_
  rw [item_map]
  cases L.item i <;> rfl

theorem diagnostics_map (f : α → Outcome β) : (L.map f).diagnostics =
    Diagnostic.sorted (L.diagnostics ++ L.items.flatMap fun x => (f x.2).diagnostics) := by
  have hown (keys : List ι) : (keys.flatMap fun i => (L.outcome f i).diagnostics) =
      (keys.filterMap fun i => (L.item i).map (i, ·)).flatMap fun x => (f x.2).diagnostics := by
    induction keys with
    | nil => rfl
    | cons i keys ih =>
      rw [List.flatMap_cons, ih, List.filterMap_cons, outcome]
      cases L.item i <;> rfl
  rw [map, items, hown]

theorem items_join {ι₂ : Type} [BEq κ] [BEq β] {R : Listing ι₂ β} (f : α → List κ) (g : β → κ) :
    (L.join f g R).items = L.items.map fun x => (x.1, ⟨x.2, R.sharing (f x.2) g⟩) := by
  rw [items, items, List.map_filterMap]
  refine List.filterMap_congr fun i _ => ?_
  simp only [join]
  cases L.item i <;> rfl

section
variable {explode : α → List (κ × β)}

theorem keys_elements (keys : List ι) :
    (elements explode (keys.filterMap fun i => (L.item i).map (i, ·))).map Prod.fst =
      keys.flatMap fun i => (L.parts explode i).map fun p => (i, p.1) := by
  induction keys with
  | nil => rfl
  | cons j keys ih =>
    rw [List.flatMap_cons, ← ih, List.filterMap_cons, parts]
    cases L.item j <;> simp [elements]

variable [BEq ι] [LawfulBEq ι] [BEq κ] [LawfulBEq κ]

theorem get?_parts (i j : ι) (k : κ) (parts : List (κ × β)) :
    Table.get? (i, k) (parts.map fun p => ((j, p.1), p.2)) =
      if j == i then (parts.find? (·.1 == k)).map Prod.snd else none := by
  induction parts with
  | nil => simp [Table.get?]
  | cons p parts ih =>
    rcases p with ⟨k', b⟩
    by_cases hj : j = i <;> by_cases hk : k' = k <;> simp_all [Table.get?]

/-- What is found under a key among the elements is found among those of its item. -/
theorem get?_elements (i : ι) (k : κ) (keys : List ι) :
    Table.get? (i, k) (elements explode (keys.filterMap fun i => (L.item i).map (i, ·))) =
      if i ∈ keys then ((L.parts explode i).find? (·.1 == k)).map Prod.snd else none := by
  induction keys with
  | nil => rfl
  | cons j keys ih =>
    have hfirst : elements explode ((j :: keys).filterMap fun i => (L.item i).map (i, ·)) =
        ((L.parts explode j).map fun p => ((j, p.1), p.2)) ++
          elements explode (keys.filterMap fun i => (L.item i).map (i, ·)) := by
      rw [List.filterMap_cons, parts]
      cases L.item j <;> rfl
    rw [hfirst, Table.get?_append, get?_parts, ih]
    by_cases hj : j = i
    · subst hj
      by_cases hmem : j ∈ keys <;> simp [hmem]
    · have hne : ¬ i = j := fun he => hj he.symm
      simp [hj, hne]

theorem items_flat [Ordered ι] [Ordered κ] :
    (L.flat Ordered.arrange explode).items =
      Table.inOrder ((elements explode L.items).foldl (fun t p => t.setNew p.1 p.2) []) := by
  have hkeys : Table.keys ((elements explode L.items).foldl (fun t p => t.setNew p.1 p.2) []) =
      (L.keys.flatMap fun i => (L.parts explode i).map fun p => (i, p.1)).eraseDups := by
    rw [Table.keys_foldl_setNew, items, keys_elements]
  have harrange (keys : List (ι × κ)) : Ordered.arrange keys.eraseDups = Ordered.arrange keys := by
    rw [Ordered.arrange, Ordered.arrange, Table.eraseDups_of_nodup (Table.nodup_eraseDups keys)]
  rw [Table.inOrder, hkeys, harrange]
  refine List.filterMap_congr fun key hkey => ?_
  have hmem : key.1 ∈ L.keys := by
    rw [flat, Ordered.arrange, List.mem_mergeSort, List.mem_eraseDups, List.mem_flatMap] at hkey
    obtain ⟨i, hi, hp⟩ := hkey
    obtain ⟨p, -, rfl⟩ := List.mem_map.mp hp
    exact hi
  rw [Table.get?_foldl_setNew, items, get?_elements, if_pos hmem]
  rfl

end

end Listing

namespace Composition
variable {S : Type} {I A : S → Type} [Node K]
  {inputs : (s : S) → Family K V (InputNode.Value (I s) (A s))} {rules : Rules K V}
  {given : Inputs K V} [∀ s, BEq (I s)] [∀ s, Ordered (I s)]
  {tables : (s : S) → Table (I s) (Option (A s))}

/-- The value of a node of an input stream that holds the entries of a table. -/
def held [BEq ι] [Ordered ι] (t : Table ι (Option α)) : (n : InputNode ι) → n.Value ι α
  | .keys => Ordered.arrange t.keys
  | .item i => (t.get? i).join

theorem items_held [BEq ι] [Ordered ι] (t : Table ι (Option α)) :
    (Ordered.arrange t.keys).filterMap (fun i => (held t (.item i)).map (i, ·)) =
      t.inOrder.filterMap fun x => x.2.map (x.1, ·) := by
  rw [Table.inOrder, List.filterMap_filterMap]
  refine List.filterMap_congr fun i _ => ?_
  rw [held]
  cases t.get? i <;> rfl

/-- Where input streams hold tables, a composition comes to a listing of its list of items. Ranked
diagnostics are listed as those reported at all levels, sorted once. -/
theorem exists_lists (hvalue : Valuation rules given value)
    (htables : ∀ s, (inputs s).Holds value (held (tables s))) (e : Composition K V I A ι α)
    (he : e.Placed inputs rules) :
    ∃ L, (e.stream inputs).Lists value L ∧ L.items = e.items tables value ∧
      ((∀ d ∈ e.reports tables value, d.IsRanked) →
        L.diagnostics = Diagnostic.sorted (e.reports tables value)) := by
  induction e with
  | input s =>
    exact ⟨_, Family.lists_input (htables s), items_held (tables s), fun _ =>
      List.mergeSort_nil.symm⟩
  | map nodes source f ih =>
    obtain ⟨hsource, hexact, hrule⟩ := he
    obtain ⟨L, hL, hitems, hreports⟩ := ih hsource
    obtain ⟨w, hholds, hw⟩ := hexact.exists_holds hvalue hrule
    refine ⟨L.map f, Family.lists_map hholds hw hL fun i a _ => .done _, ?_, fun hranked => ?_⟩
    · rw [Listing.items_map, hitems]
      rfl
    · rw [reports] at hranked ⊢
      rw [Listing.diagnostics_map, hitems,
        hreports fun d hd => hranked d (List.mem_append_left _ hd)]
      exact Diagnostic.sorted_sorted_append hranked
  | combine nodes source shared f ih =>
    obtain ⟨hsource, hexact, hshared, -, hrule⟩ := he
    obtain ⟨L, hL, hitems, hreports⟩ := ih hsource
    obtain ⟨w, hholds, hw⟩ := hexact.exists_holds hvalue hrule
    obtain ⟨y, hy⟩ := hshared.total () (value (shared.key ()))
    have hget : (shared.get ()).ComesTo value y := by
      refine (Program.ComesTo.get (shared.key ())).bind ?_
      rw [hy]
      exact .done y
    refine ⟨L.map fun a => f a y, Family.lists_map hholds hw hL fun i a _ => ?_, ?_,
      fun hranked => ?_⟩
    · exact (hget.bind (.done (f a y))).catching _
    · rw [Listing.items_map, hitems, items]
      simp only [hy]
    · simp only [reports, hy] at hranked ⊢
      rw [Listing.diagnostics_map, hitems,
        hreports fun d hd => hranked d (List.mem_append_left _ hd)]
      exact Diagnostic.sorted_sorted_append hranked
  | flatten nodes source explode ih =>
    obtain ⟨hsource, hexact, hrule⟩ := he
    obtain ⟨L, hL, hitems, hreports⟩ := ih hsource
    obtain ⟨w, hholds, hw⟩ := hexact.exists_holds hvalue hrule
    refine ⟨L.flat Ordered.arrange explode, ?_, ?_, hreports⟩
    · exact Family.lists_flat hholds hw hL (fun a => .done _) Sorts.sorted_eq
    · rw [Listing.items_flat, hitems]
      rfl
  | join nodes left right leftKeys rightKey ihl ihr =>
    obtain ⟨hleft, hright, hexact, hrule⟩ := he
    obtain ⟨L, hL, hitems, hreports⟩ := ihl hleft
    obtain ⟨R, hR, hitems', hreports'⟩ := ihr hright
    obtain ⟨w, hholds, hw⟩ := hexact.exists_holds hvalue hrule
    refine ⟨L.join leftKeys rightKey R, ?_, ?_, fun hranked => ?_⟩
    · exact Family.lists_join hholds hw hL hR (fun a => .done _) fun b => .done _
    · rw [Listing.items_join, hitems, items, ← hitems']
      rfl
    · rw [reports] at hranked ⊢
      rw [Listing.join, hreports fun d hd => hranked d (List.mem_append_left _ hd),
        hreports' fun d hd => hranked d (List.mem_append_right _ hd)]
      exact Diagnostic.sorted_append_sorted hranked

end Composition

theorem rel_of_beq [BEq β] {a b : Option β} (h : (a == b) = true) :
    Option.Rel (fun x y => (x == y) = true) a b := by
  cases a <;> cases b
  · exact .none
  · cases h
  · cases h
  · exact .some h

/-- Streams whose keys are read alike and whose items are read alike have like items. -/
theorem Stream.items_related {L : Likeness K V} {s : Stream K V ι α} {R : α → α → Prop}
    (hkeys : s.keys.Alike L Eq Eq s.keys)
    (hitem : ∀ i, (s.item i).Alike L Eq (Option.Rel R) (s.item i)) :
    s.items.Alike L Eq (List.Forall₂ fun x y => x.1 = y.1 ∧ R x.2 y.2) s.items := by
  have hread (i : ι) : (do return (← s.item i).map (i, ·) : Program K V (Option (ι × α))).Alike L Eq
      (Option.Rel fun x y => x.1 = y.1 ∧ R x.2 y.2) (do return (← s.item i).map (i, ·)) := by
    refine (hitem i).bind fun a b hab => .done ?_
    cases hab with
    | none => exact .none
    | some h => exact .some ⟨rfl, h⟩
  have hfilter {l m : List (Option (ι × α))}
      (h : List.Forall₂ (Option.Rel fun x y => x.1 = y.1 ∧ R x.2 y.2) l m) :
      List.Forall₂ (fun x y => x.1 = y.1 ∧ R x.2 y.2) (l.filterMap id) (m.filterMap id) := by
    induction h with
    | nil => exact .nil
    | cons hab _ ih =>
      cases hab with
      | none => exact ih
      | some h => exact .cons h ih
  refine hkeys.bind fun keys keys' h => ?_
  subst h
  exact (Program.Alike.mapM fun i _ => hread i).bind fun l m h => .done (hfilter h)

namespace Composition
variable {S : Type} {I A : S → Type}
  {inputs : (s : S) → Family K V (InputNode.Value (I s) (A s))} [∀ s, BEq (A s)]
  {L : Likeness K V}

theorem keys_alike (e : Composition K V I A ι α) (he : e.Keeps inputs L) :
    (e.stream inputs).keys.Alike L Eq Eq (e.stream inputs).keys := by
  induction e with
  | input s => exact Family.get_alike he.1
  | map nodes source f ih => exact ih he.1
  | combine nodes source shared f ih => exact ih he.1
  | flatten nodes source explode ih => exact Family.get_alike he.1
  | join nodes left right leftKeys rightKey ihl ihr => exact ihl he.1

theorem item_alike (e : Composition K V I A ι α) (he : e.Keeps inputs L) (i : ι) :
    ((e.stream inputs).item i).Alike L Eq (Option.Rel fun a b => e.same a b)
      ((e.stream inputs).item i) := by
  cases e with
  | input s =>
    exact (Family.get_alike (he.2 i)).mono (fun _ _ h => h) fun a b h => rel_of_beq h
  | map nodes source f =>
    exact (Family.get_alike (he.2 i)).mono (fun _ _ h => h) fun a b h => rel_of_beq h
  | combine nodes source shared f =>
    exact (Family.get_alike (he.2 i)).mono (fun _ _ h => h) fun a b h => rel_of_beq h
  | flatten nodes source explode =>
    exact (Family.get_alike (he.2 i)).mono (fun _ _ h => h) fun a b h => rel_of_beq h
  | join nodes left right leftKeys rightKey =>
    exact (Family.get_alike (he.2 i)).mono (fun _ _ h => h) fun a b h => rel_of_beq h

end Composition

section
variable [BEq K] [LawfulBEq K] [∀ k, BEq (V k)]

/-- At every sufficient depth a program comes to a result of a kind, unless it is run in a pass and
the pass is cancelled. -/
def Comes (rules : Rules K V) (s : Store K V) (p : Program K V α) (R : α → Prop) : Prop :=
  ∃ N, ∀ depth, N ≤ depth → (∃ a, (p.run rules depth s).1 = .ok a ∧ R a) ∨
    s.token.isSome ∧ ∃ g, (p.run rules depth s).1 = .error (.failed (.cancelled g))

variable [Node K] {rules : Rules K V} {L : Likeness K V} {s : Store K V} {depth : Nat}

/-- A node with a value is read as one like it, unless the pass is cancelled. The store stays at
rest. -/
theorem AtRest.fetch_settled (hO : Orderly rules L)
    (hsettles : ∀ k, ∃ n v, settle rules s.input? n k = .ok v) (h : AtRest rules L s) {n : Nat}
    {k : K} {v : V k} (hv : settle rules s.input? n k = .ok v) (hle : n ≤ depth) :
    ∃ r s', Graph.fetch rules depth k s = (r, s') ∧ AtRest rules L s' ∧ s'.input? = s.input? ∧
      (s.token = none → s'.token = none) ∧
      ((∃ node, r = .ok node ∧ L.like k v node.value) ∨
        s'.token.isSome ∧ ∃ g, r = .error (.failed (.cancelled g))) := by
  have hsteady : Steady rules s.input? fun _ => True :=
    ⟨fun k _ _ _ => .inr (hsettles k), fun _ _ _ _ _ _ _ _ => trivial⟩
  obtain ⟨past, hpast, hserved⟩ := h.served hO hsteady (k := k) trivial depth
  obtain ⟨hrest, hinputs⟩ := h.fetch hO hsteady (k := k) trivial depth
  refine ⟨_, _, rfl, hrest, hinputs, hserved.advances.token, ?_⟩
  cases hr : (Graph.fetch rules depth k s).1 with
  | ok node =>
    obtain ⟨-, m, w, hw, hlike⟩ := hserved.ok node hr
    rw [hpast] at hw
    rw [settle_ok_unique hv hw]
    exact .inl ⟨node, rfl, hlike⟩
  | error halt =>
    have hhalts := hserved.halts halt hr
    rw [hpast] at hhalts
    cases hhalts with
    | @cancelled g hg =>
      refine .inr ⟨?_, g, rfl⟩
      cases ht : (Graph.fetch rules depth k s).2.token with
      | none =>
        rw [Store.cancelled?_of_token_none ht] at hg
        cases hg
      | some t => rfl
    | @settled m e e' he _ =>
      have hsame := settle_unique (by rw [hv]; exact ended_ok v) (by rw [he]; exact ended_failed e')
      rw [hv, he] at hsame
      cases hsame
    | cycle hstuck => exact absurd ⟨n, by rw [hv]; exact ended_ok v⟩ hstuck
    | tooDeep hd => exact absurd (by rw [hv]; exact ended_ok v) (hd n hle)

/-- Programs that do not tell like values apart come to like results, one by the values of nodes and
the other through reads of the store. -/
theorem AtRest.run_settled (hO : Orderly rules L)
    (hsettles : ∀ k, ∃ n v, settle rules s.input? n k = .ok v) (h : AtRest rules L s) {n : Nat}
    {below : (k : K) → Except (Halt K) (V k)}
    (hbelow : ∀ k v, below k = .ok v → ∃ w, settle rules s.input? n k = .ok w ∧ L.like k v w)
    {E : Failure K → Failure K → Prop} {R : α → α → Prop} {p q : Program K V α}
    (hpq : p.Alike L E R q) {T : K → Prop} (hq : q.Safe T (Unfailing K)) {ks : List K} {a : α}
    (hp : p.settleWith below = .ok (ks, a)) (hle : n ≤ depth) :
    (∃ b, (q.run rules depth s).1 = .ok b ∧ R a b) ∨
      s.token.isSome ∧ ∃ g, (q.run rules depth s).1 = .error (.failed (.cancelled g)) := by
  induction hpq generalizing s ks with
  | done hab =>
    cases hp
    exact .inl ⟨_, rfl, hab⟩
  | fail _ => cases hp
  | cancel _ _ => cases hq
  | @read k next next' _ ih =>
    cases hq with
    | read _ hcancelled hok =>
      simp only [Program.settleWith] at hp
      cases hv : below k with
      | error halt => simp [hv] at hp
      | ok v =>
        simp only [hv] at hp
        obtain ⟨⟨ks', a'⟩, hrest, heq⟩ := map_eq_ok_iff.mp hp
        obtain rfl : a' = a := congrArg Prod.snd heq
        obtain ⟨w, hw, hvw⟩ := hbelow k v hv
        obtain ⟨r, s', hfetch, hrest', hinputs, htoken, hr⟩ := h.fetch_settled hO hsettles hw hle
        simp only [Program.run, Program.runWith, Store.noteRead_of_idle h.idle, hfetch]
        have hsome (h : s'.token.isSome) : s.token.isSome := by
          cases ht : s.token with
          | none =>
            rw [htoken ht] at h
            cases h
          | some t => rfl
        rcases hr with ⟨node, rfl, hlike⟩ | ⟨hs', g, rfl⟩
        · rcases ih v node.value (L.trans hvw hlike) (by rw [hinputs]; exact hsettles) hrest'
            (by rw [hinputs]; exact hbelow) (hok node.value) hrest with hdone | ⟨hs', hg⟩
          · exact .inl hdone
          · exact .inr ⟨hsome hs', hg⟩
        · simp only [hcancelled _ ⟨g, rfl⟩]
          exact .inr ⟨hsome hs', g, rfl⟩

variable {given : Inputs K V} {value : (k : K) → V k}

/-- What a program comes to by the values of nodes it comes to in a store with like inputs. -/
theorem AtRest.comes (hO : Orderly rules L)
    (hsettles : ∀ k, ∃ n v, settle rules s.input? n k = .ok v) (h : AtRest rules L s)
    (hvalue : ∀ k, ∃ n, settle rules given n k = .ok (value k))
    (hgiven : LikeInputs rules L given s.input?) {E : Failure K → Failure K → Prop}
    {R : α → α → Prop} {p : Program K V α} (halike : p.Alike L E R p) {T : K → Prop}
    (hsafe : p.Safe T (Unfailing K)) {a : α} (hp : p.ComesTo value a) : Comes rules s p (R a) := by
  obtain ⟨n, ks, hks⟩ := hp.exists_settleWith hvalue
  refine ⟨n, fun depth hle => h.run_settled hO hsettles (fun k v hv => ?_) halike hsafe hks hle⟩
  have hagree := settle_alike hO.alike hgiven n k
  rw [hv] at hagree
  exact hagree.of_ok

end

end SceneCodegen.Graph
