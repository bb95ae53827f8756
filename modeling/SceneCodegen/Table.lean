/-!
# Tables

Finite maps that keep their keys in the order of first appearance. A key has at most one entry in a
table built with these operations.
-/
namespace SceneCodegen

abbrev Table (κ ν : Type) := List (κ × ν)

namespace Table
variable {κ ν : Type} [BEq κ]

def get? (k : κ) : Table κ ν → Option ν
  | [] => none
  | (k', v) :: rest => if k' == k then some v else get? k rest

/-- Sets an entry, at its place if the key is there already and at the end otherwise. -/
def set (k : κ) (v : ν) : Table κ ν → Table κ ν
  | [] => [(k, v)]
  | (k', v') :: rest => if k' == k then (k', v) :: rest else (k', v') :: set k v rest

/-- Adds an entry if its key is not there yet. -/
def setNew (k : κ) (v : ν) (t : Table κ ν) : Table κ ν :=
  match t.get? k with
  | some _ => t
  | none => t ++ [(k, v)]

/-- Adds an element to the list at a key. -/
def push (k : κ) (v : ν) : Table κ (List ν) → Table κ (List ν)
  | [] => [(k, [v])]
  | (k', vs) :: rest => if k' == k then (k', vs ++ [v]) :: rest else (k', vs) :: push k v rest

def erase (k : κ) (t : Table κ ν) : Table κ ν := t.filter fun (k', _) => !(k' == k)

def keys (t : Table κ ν) : List κ := t.map Prod.fst

def values (t : Table κ ν) : List ν := t.map Prod.snd

/-- The table of the pairs of a list, the last value of a key counting. -/
def ofList (pairs : List (κ × ν)) : Table κ ν := pairs.foldl (fun t (k, v) => t.set k v) []

theorem get?_set_self [LawfulBEq κ] (k : κ) (v : ν) (t : Table κ ν) :
    get? k (set k v t) = some v := by
  induction t with
  | nil => simp [set, get?]
  | cons entry rest ih =>
    rcases entry with ⟨k', v'⟩
    by_cases h : k' == k <;> simp [set, get?, h, ih]

theorem get?_set_of_ne [LawfulBEq κ] {k l : κ} (hne : k ≠ l) (v : ν) (t : Table κ ν) :
    get? l (set k v t) = get? l t := by
  induction t with
  | nil => simp [set, get?, hne]
  | cons entry rest ih =>
    rcases entry with ⟨k', v'⟩
    by_cases h : k' == k
    · have hk : k' ≠ l := by rw [eq_of_beq h]; exact hne
      simp [set, get?, h, hk]
    · by_cases hl : k' == l <;> simp [set, get?, h, hl, ih]

end Table
end SceneCodegen
