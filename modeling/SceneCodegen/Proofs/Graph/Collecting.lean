import SceneCodegen.Proofs.Graph.Supplying

/-!
# Collecting diagnostics

A stream of an operator reports what its sources report and what the outcomes of its own items do,
sorted once more at each level. However deep streams are nested, this comes to all that was
reported, sorted once.
-/
namespace SceneCodegen.Graph

section
variable {K : Type} {V : K → Type} [Node K] {S : Type} {I A : S → Type} {ι α : Type}
  [∀ s, BEq (I s)] [∀ s, Ordered (I s)] {ds es : List Diagnostic}

/-- Sorted diagnostics stand for a set: they are in strict order, each of the set is there once, and
however the set is listed it is sorted the same. So nothing is lost, doubled or put elsewhere when
sorted diagnostics are collected and sorted again, at whatever level of a stream that is. -/
theorem Composition.diagnostics_canonical (hds : ∀ d ∈ ds, d.IsRanked) (hes : ∀ d ∈ es, d.IsRanked)
    (e : Composition K V I A ι α) :
    (Diagnostic.sorted ds).Pairwise (fun a b => Diagnostic.compare a b = .lt) ∧
    (∀ d, (Diagnostic.sorted ds).count d = if d ∈ ds then 1 else 0) ∧
    (∀ l : List Diagnostic, l.Nodup → (∀ d, d ∈ l ↔ d ∈ ds) →
      l.mergeSort Diagnostic.le = Diagnostic.sorted ds) ∧
    (Diagnostic.sorted es = Diagnostic.sorted ds ↔ ∀ d, d ∈ es ↔ d ∈ ds) ∧
    Diagnostic.sorted (Diagnostic.sorted ds) = Diagnostic.sorted ds ∧
    Diagnostic.sorted (Diagnostic.sorted ds ++ es) = Diagnostic.sorted (ds ++ es) ∧
    ∀ inputs rules given value tables, Valuation rules given value →
      (∀ s, (inputs s).Holds value (held (tables s))) → e.Placed inputs rules →
      (∀ d ∈ e.reports tables value, d.IsRanked) →
      (e.stream inputs).diagnostics.ComesTo value (Diagnostic.sorted (e.reports tables value)) := by
  have hboth : ∀ d ∈ ds ++ es, d.IsRanked := by
    intro d hd
    exact (List.mem_append.mp hd).elim (hds d) (hes d)
  refine ⟨Diagnostic.pairwise_sorted hds, fun d => ?_, fun l hnodup h => ?_, ⟨fun h d => ?_, ?_⟩,
    ?_, ?_, fun inputs rules given value tables hvalue htables he hreports => ?_⟩
  · rw [(Diagnostic.nodup_sorted ds).count]
    simp only [Diagnostic.mem_sorted]
  · exact Diagnostic.mergeSort_eq_sorted hds hnodup h
  · rw [← Diagnostic.mem_sorted, h, Diagnostic.mem_sorted]
  · exact Diagnostic.sorted_congr hds
  · exact Diagnostic.sorted_congr hds fun _ => Diagnostic.mem_sorted
  · exact Diagnostic.sorted_sorted_append hboth
  · obtain ⟨L, hL, -, hdiagnostics⟩ := e.exists_lists hvalue htables he
    rw [← hdiagnostics hreports]
    exact hL.diagnostics

end

/-- Parcels with their weights, their prices, and the parcels that weigh as much as each costs. -/
inductive ParcelNode
  | parcel (n : InputNode Nat)
  | weighed (n : MapNode Nat)
  | priced (n : MapNode Nat)
  | paired (n : JoinNode Nat Nat)

namespace ParcelNode

abbrev Value : ParcelNode → Type
  | .parcel n => n.Value Nat Nat
  | .weighed n => n.Value Nat Nat
  | .priced n => n.Value Nat Nat
  | .paired n => n.Value Nat Nat Nat Nat

instance : Node ParcelNode where
  queryName _ := "parcel"
  text _ := "parcel"

def parcels (_ : Unit) : Family ParcelNode Value (InputNode.Value Nat Nat) where
  key := .parcel
  encode _ w := w
  decode _ v := .ok v

def weighedFamily : Family ParcelNode Value (MapNode.Value Nat Nat) where
  key := .weighed
  encode _ w := w
  decode _ v := .ok v

def pricedFamily : Family ParcelNode Value (MapNode.Value Nat Nat) where
  key := .priced
  encode _ w := w
  decode _ v := .ok v

def pairedFamily : Family ParcelNode Value (JoinNode.Value Nat Nat Nat Nat) where
  key := .paired
  encode _ w := w
  decode _ v := .ok v

def empty : Diagnostic := ⟨"P1", .warning, "nothing in it", ⟨"ramp", 2, 1⟩⟩

def heavy : Diagnostic := ⟨"P2", .error, "too heavy", ⟨"ramp", 2, 1⟩⟩

def free : Diagnostic := ⟨"P3", .info, "no charge", ⟨"desk", 0, 0⟩⟩

def weigh (w : Nat) : Outcome Nat :=
  if w = 0 then { diagnostics := [empty] } else { value := some w }

def price (w : Nat) : Outcome Nat :=
  if 9 < w then { diagnostics := [heavy] }
  else if w = 1 then { value := some 0, diagnostics := [free, free] }
  else { value := some (2 * w) }

abbrev Parcels (α : Type) : Type 1 :=
  Composition ParcelNode Value (fun _ : Unit => Nat) (fun _ => Nat) Nat α

def weights : Parcels Nat := .map weighedFamily (.input ()) weigh

def prices : Parcels Nat := .map pricedFamily weights price

/-- What is reported of weights is collected on both sides. -/
def pairs : Parcels (JoinPair Nat Nat) := .join pairedFamily prices weights ([·]) id

def rules : Rules ParcelNode Value
  | .parcel n => .input n.absent
  | .weighed n => .query (weighedFamily.rule n
      (mapProgram weighedFamily (parcels ()).inputStream (fun a => .done (weigh a)) n))
  | .priced n => .query (pricedFamily.rule n
      (mapProgram pricedFamily (weights.stream parcels) (fun a => .done (price a)) n))
  | .paired n => .query (pairedFamily.rule n (joinProgram pairedFamily (prices.stream parcels)
      (weights.stream parcels) (fun a => .done [a]) (fun b => .done b) n))

theorem weights_placed : weights.Placed parcels rules :=
  ⟨trivial, ⟨fun _ v => ⟨v, rfl⟩, fun _ _ => rfl⟩, fun _ => rfl⟩

theorem prices_placed : prices.Placed parcels rules :=
  ⟨weights_placed, ⟨fun _ v => ⟨v, rfl⟩, fun _ _ => rfl⟩, fun _ => rfl⟩

theorem pairs_placed : pairs.Placed parcels rules :=
  ⟨prices_placed, weights_placed, ⟨fun _ v => ⟨v, rfl⟩, fun _ _ => rfl⟩, fun _ => rfl⟩

theorem exists_valuation (given : Inputs ParcelNode Value) :
    ∃ value, Valuation rules given value := by
  have howned {α : Type} (e : Parcels α) (he : e.Placed parcels rules) {k : ParcelNode}
      (hk : e.Owns k) : ∃ v n, settle rules given n k = .ok v := by
    obtain ⟨depth, -, hsettled⟩ :=
      e.exists_settled (fun _ _ v => ⟨v, rfl⟩) (fun _ n => ⟨n.absent, rfl⟩) he given
    obtain ⟨v, hv⟩ := hsettled k hk
    exact ⟨v, depth, hv⟩
  have hsettles (k : ParcelNode) : ∃ v n, settle rules given n k = .ok v := by
    cases k with
    | parcel n =>
      have hrule : rules (.parcel n) = .input n.absent := rfl
      exact ⟨_, 0, settle_input hrule 0⟩
    | weighed n => exact howned weights weights_placed ⟨n, rfl⟩
    | priced n => exact howned prices prices_placed ⟨n, rfl⟩
    | paired n => exact howned pairs pairs_placed ⟨n, rfl⟩
  obtain ⟨value, hvalue⟩ := Classical.skolem.mp hsettles
  exact ⟨value, .of_settles hvalue⟩

def stock : Table Nat (Option Nat) := [(3, some 12), (1, some 0), (4, some 1), (2, some 5)]

def given : Inputs ParcelNode Value
  | .parcel n => some (Composition.held stock n)
  | _ => none

theorem reports_pairs (value : (k : ParcelNode) → k.Value) :
    pairs.reports (fun _ => stock) value = [empty, heavy, free, free, empty] := by
  have hstock : stock.inOrder = [(1, some 0), (2, some 5), (3, some 12), (4, some 1)] :=
    Table.inOrder_of_perm (by decide) (by decide)
  simp only [pairs, prices, weights, Composition.reports, Composition.items, hstock]
  rfl

theorem diagnostics_pairs :
    Diagnostic.sorted (Diagnostic.sorted [heavy, free, heavy] ++ [empty, free]) =
      [free, heavy, empty] ∧
    ∃ value, Valuation rules given value ∧
      (pairs.stream parcels).diagnostics.ComesTo value [free, heavy, empty] := by
  obtain ⟨value, hvalue⟩ := exists_valuation given
  have htables (s : Unit) : (parcels s).Holds value (Composition.held stock) := by
    intro n
    refine (Program.ComesTo.get ((parcels s).key n)).bind ?_
    rw [hvalue.input ((parcels s).key n) n.absent rfl]
    exact .done _
  have hreports : ∀ d ∈ pairs.reports (fun _ => stock) value, d.IsRanked := by
    rw [reports_pairs]
    decide
  have hfirst : ∀ d ∈ [heavy, free, heavy], d.IsRanked := by decide
  have hsecond : ∀ d ∈ [empty, free], d.IsRanked := by decide
  obtain ⟨-, -, -, -, -, happend, hcomes⟩ :=
    Composition.diagnostics_canonical hfirst hsecond pairs
  have hmem (d : Diagnostic) :
      d ∈ [empty, heavy, free, free, empty] ↔ d ∈ [heavy, free, heavy] ++ [empty, free] := by
    simp only [List.mem_append, List.mem_cons, List.not_mem_nil, or_false]
    tauto
  have hsorted : Diagnostic.sorted [empty, heavy, free, free, empty] = [free, heavy, empty] := by
    refine Diagnostic.eq_of_pairwise (Diagnostic.pairwise_sorted ?_) ?_ fun d => ?_
    · decide
    · decide
    · rw [Diagnostic.mem_sorted]
      simp only [List.mem_cons, List.not_mem_nil, or_false]
      tauto
  have hall : Diagnostic.sorted ([heavy, free, heavy] ++ [empty, free]) = [free, heavy, empty] := by
    rw [← hsorted]
    exact (Diagnostic.sorted_congr (by decide) hmem).symm
  refine ⟨happend.trans hall, value, hvalue, ?_⟩
  rw [← hsorted, ← reports_pairs value]
  exact hcomes _ _ _ _ _ hvalue htables pairs_placed hreports

end ParcelNode

end SceneCodegen.Graph
