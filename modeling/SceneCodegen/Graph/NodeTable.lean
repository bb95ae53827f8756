/-!
# Node tables

Finite maps from the nodes of a graph to data whose type depends on the node. Keys that count as the
same stand for one node, even if they are not equal, so that looking one up finds what was set under
another.
-/
namespace SceneCodegen.Graph

/-- Keys that count as the same stand for values of one type. -/
class Coherent (K : Type) [BEq K] (V : K → Type) : Prop where
  type_eq {k l : K} : k == l → V k = V l

instance {K : Type} [BEq K] [LawfulBEq K] (V : K → Type) : Coherent K V where
  type_eq h := congrArg V (eq_of_beq h)

structure NodeTable (K : Type) (V : K → Type) (F : Type → Type) where
  entries : List ((k : K) × F (V k)) := []

namespace NodeTable
variable {K : Type} [BEq K] {V : K → Type} {F : Type → Type}

def find? [Coherent K V] (k : K) : List ((k : K) × F (V k)) → Option (F (V k))
  | [] => none
  | ⟨k', x⟩ :: rest =>
    if h : k' == k then some (cast (congrArg F (Coherent.type_eq h)) x) else find? k rest

def get? [Coherent K V] (t : NodeTable K V F) (k : K) : Option (F (V k)) := find? k t.entries

def replace (k : K) (x : F (V k)) : List ((k : K) × F (V k)) → List ((k : K) × F (V k))
  | [] => [⟨k, x⟩]
  | ⟨k', y⟩ :: rest => if k' == k then ⟨k, x⟩ :: rest else ⟨k', y⟩ :: replace k x rest

def set (t : NodeTable K V F) (k : K) (x : F (V k)) : NodeTable K V F := ⟨replace k x t.entries⟩

def without (t : NodeTable K V F) (ks : List K) : NodeTable K V F :=
  ⟨t.entries.filter fun entry => !ks.contains entry.1⟩

/-- What is held for a node, under another spelling of its key. -/
def respell [Coherent K V] {k l : K} (h : k == l) (x : F (V k)) : F (V l) :=
  cast (congrArg F (Coherent.type_eq h)) x

section
variable [Coherent K V]

theorem find?_replace_self [ReflBEq K] (k : K) (x : F (V k)) (l : List ((k : K) × F (V k))) :
    find? k (replace k x l) = some x := by
  induction l with
  | nil => simp [replace, find?]
  | cons entry rest ih =>
    rcases entry with ⟨k', y⟩
    by_cases h : k' == k
    · simp [replace, find?, h]
    · simp [replace, find?, h, ih]

@[simp] theorem get?_set_self [ReflBEq K] (t : NodeTable K V F) (k : K) (x : F (V k)) :
    (t.set k x).get? k = some x := find?_replace_self k x t.entries

variable [EquivBEq K] {k l : K}

theorem find?_replace_of_unlike (h : (k == l) = false) (x : F (V k))
    (entries : List ((k : K) × F (V k))) : find? l (replace k x entries) = find? l entries := by
  induction entries with
  | nil => simp [replace, find?, h]
  | cons entry rest ih =>
    rcases entry with ⟨k', y⟩
    by_cases hk : k' == k
    · have hl : (k' == l) = false := (BEq.congr_left hk).trans h
      simp [replace, find?, hk, h, hl]
    · by_cases hl : k' == l <;> simp [replace, find?, hk, hl, ih]

theorem get?_set_of_unlike (h : (k == l) = false) (t : NodeTable K V F) (x : F (V k)) :
    (t.set k x).get? l = t.get? l := find?_replace_of_unlike h x t.entries

/-- The spellings of a key find the same. -/
theorem find?_respell (h : k == l) (entries : List ((k : K) × F (V k))) :
    find? l entries = (find? k entries).map (respell h) := by
  induction entries with
  | nil => rfl
  | cons entry rest ih =>
    rcases entry with ⟨k', y⟩
    have hkl : (k' == k) = (k' == l) := BEq.congr_right h
    by_cases hk : k' == k
    · have hl : k' == l := hkl ▸ hk
      simp [find?, hk, hl, respell]
    · have hl : ¬ (k' == l) := hkl ▸ hk
      simp [find?, hk, hl, ih]

theorem get?_respell (h : k == l) (t : NodeTable K V F) :
    t.get? l = (t.get? k).map (respell h) := find?_respell h t.entries

theorem get?_set_of_beq (h : k == l) (t : NodeTable K V F) (x : F (V k)) :
    (t.set k x).get? l = some (respell h x) := by
  rw [get?_respell h, get?_set_self]
  rfl

theorem find?_filter (ks : List K) (k : K) (entries : List ((k : K) × F (V k))) :
    find? k (entries.filter fun entry => !ks.contains entry.1) =
      if ks.contains k then none else find? k entries := by
  induction entries with
  | nil => simp [find?]
  | cons entry rest ih =>
    rcases entry with ⟨l, y⟩
    cases hl : l == k with
    | true =>
      have hlk : ks.contains l = ks.contains k := List.contains_congr hl
      cases hks : ks.contains k with
      | true =>
        rw [List.filter_cons_of_neg (by simp only [hlk, hks]; decide), ih, if_pos hks, if_pos rfl]
      | false =>
        rw [List.filter_cons_of_pos (by simp only [hlk, hks]; decide)]
        simp [find?, hl]
    | false =>
      cases hks : ks.contains l with
      | true =>
        rw [List.filter_cons_of_neg (by simp only [hks]; decide), ih]
        simp [find?, hl]
      | false =>
        rw [List.filter_cons_of_pos (by simp only [hks]; decide)]
        simp only [find?, hl, ih]
        rfl

@[simp] theorem get?_without (t : NodeTable K V F) (ks : List K) (k : K) :
    (t.without ks).get? k = if ks.contains k then none else t.get? k :=
  find?_filter ks k t.entries

end

@[simp] theorem get?_set_of_ne [LawfulBEq K] (t : NodeTable K V F) {k l : K} (hne : k ≠ l)
    (x : F (V k)) : (t.set k x).get? l = t.get? l :=
  get?_set_of_unlike (beq_false_of_ne hne) t x

end NodeTable
end SceneCodegen.Graph
