import SceneCodegen.Proofs.Graph.Soundness
import SceneCodegen.Proofs.Spellings

/-!
# Nodes under several spellings of their keys

Keys that count as the same stand for one node. What a store holds for it is found under every
spelling, with its value carried over; when it changed and was found valid, and what was read for
it, does not depend on the spelling.
-/
namespace SceneCodegen.Graph

variable {K : Type} {V : K → Type}

section
variable [BEq K] [Coherent K V] {k l m : K}

/-- A value of a node, under another spelling of its key. -/
def carry (h : k == l) (v : V k) : V l := cast (Coherent.type_eq h) v

@[simp] theorem carry_self (h : k == k) (v : V k) : carry h v = v := rfl

@[simp] theorem carry_carry (h : k == l) (h' : l == m) (h'' : k == m) (v : V k) :
    carry h' (carry h v) = carry h'' v := cast_cast _ _ v

end

theorem Stamped.cast_eq {α β : Type} (he : α = β) (h : Stamped α = Stamped β) (x : Stamped α) :
    cast h x = ⟨cast he x.value, x.changedAt⟩ := by
  subst he
  rfl

theorem Memo.cast_eq {α β : Type} (he : α = β) (h : Memo K α = Memo K β) (m : Memo K α) :
    cast h m = ⟨⟨cast he m.value, m.changedAt⟩, m.verifiedAt, m.reads⟩ := by
  subst he
  rfl

/-- Memos of the same times and reads, whatever their values are. -/
structure Memo.Coeval {α β : Type} (m : Memo K α) (m' : Memo K β) : Prop where
  changedAt : m'.changedAt = m.changedAt
  verifiedAt : m'.verifiedAt = m.verifiedAt
  reads : m'.reads = m.reads

theorem Memo.Coeval.symm {α β : Type} {m : Memo K α} {m' : Memo K β} (h : m.Coeval m') :
    m'.Coeval m := ⟨h.changedAt.symm, h.verifiedAt.symm, h.reads.symm⟩

/-- Keys that count as the same are all inputs, all queries or all refused. -/
class OneSort [BEq K] (rules : Rules K V) : Prop where
  input {k l : K} {absent : V k} : k == l → rules k = .input absent →
    ∃ absent', rules l = .input absent'
  query {k l : K} {p : Program K V (V k)} : k == l → rules k = .query p →
    ∃ q, rules l = .query q

instance [BEq K] [LawfulBEq K] (rules : Rules K V) : OneSort rules where
  input h hk := by
    obtain rfl := eq_of_beq h
    exact ⟨_, hk⟩
  query h hk := by
    obtain rfl := eq_of_beq h
    exact ⟨_, hk⟩

variable [BEq K] [Coherent K V] {s s' : Store K V} {k l d : K}

theorem respell_stamped (h : k == l) (x : Stamped (V k)) :
    NodeTable.respell h x = ⟨carry h x.value, x.changedAt⟩ :=
  Stamped.cast_eq (Coherent.type_eq h) _ x

theorem respell_memo (h : k == l) (m : Memo K (V k)) :
    NodeTable.respell h m = ⟨⟨carry h m.value, m.changedAt⟩, m.verifiedAt, m.reads⟩ :=
  Memo.cast_eq (Coherent.type_eq h) _ m

theorem coeval_respell (h : k == l) (m : Memo K (V k)) : m.Coeval (NodeTable.respell h m) := by
  rw [respell_memo]
  exact ⟨rfl, rfl, rfl⟩

variable [EquivBEq K]

/-- The spellings of a key have coeval memos. -/
theorem exists_memo_of_beq {m : Memo K (V k)} (h : k == l) (hm : s.memos.get? k = some m) :
    ∃ x, s.memos.get? l = some x ∧ m.Coeval x := by
  refine ⟨NodeTable.respell h m, ?_, coeval_respell h m⟩
  rw [NodeTable.get?_respell h, hm]
  rfl

/-- The memo of a node was set under some spelling of its key, or is the one of before. -/
theorem Sets.cases {m : Memo K (V k)} {x : Memo K (V d)} (h : Sets k m s s')
    (hx : s'.memos.get? d = some x) :
    k == d ∧ m.Coeval x ∨ (k == d) = false ∧ s.memos.get? d = some x := by
  rw [h.memos] at hx
  cases hd : k == d with
  | true =>
    rw [NodeTable.get?_set_of_beq hd] at hx
    cases hx
    exact .inl ⟨rfl, coeval_respell hd m⟩
  | false =>
    rw [NodeTable.get?_set_of_unlike hd] at hx
    exact .inr ⟨rfl, hx⟩

omit [Coherent K V] in
theorem isComputing_congr (h : k == l) (s : Store K V) : s.isComputing k = s.isComputing l := by
  simp only [Store.isComputing]
  congr 1
  funext a
  exact BEq.congr_right h

/-- A number, and whether it is written with a point. Only the number counts for equality. -/
structure Numeral where
  value : Nat
  pointed : Bool

instance : BEq Numeral := ⟨fun a b => a.value == b.value⟩

instance : EquivBEq Numeral where
  rfl {a} := beq_self_eq_true a.value
  symm h := BEq.symm (α := Nat) h
  trans h h' := BEq.trans (α := Nat) h h'

instance (α : Type) : Coherent Numeral fun _ => α := ⟨fun _ => rfl⟩

instance : Node Numeral where
  queryName _ := "numeral"
  text _ := "numeral"

end SceneCodegen.Graph
