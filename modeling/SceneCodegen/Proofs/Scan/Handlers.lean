import SceneCodegen.Proofs.Table
import SceneCodegen.Scan.Scanner

/-!
# Handlers of a class

The methods of a class that a connection can call are its ordinary methods that are not static. A
class is recorded with the name of each, in the order of declaration, and a call of its first
overload.
-/
namespace SceneCodegen

namespace Table
variable {κ ν : Type} [BEq κ]

theorem get?_map_pairs {α : Type} (key : α → κ) (value : α → ν) (k : κ) (l : List α) :
    get? k (l.map fun a => (key a, value a)) = (l.find? (key · == k)).map value := by
  induction l with
  | nil => rfl
  | cons a l ih =>
    rw [List.map_cons, get?, List.find?_cons, ih]
    cases key a == k <;> rfl

end Table

namespace Scan

/-- The methods that a connection can call: they are ordinary, and neither implicit nor static. -/
def handlers (members : List Symbol.Member) : List Symbol.Member :=
  members.filter fun m =>
    m.kind == .method && m.methodKind == "ordinary" && !m.isImplicit && !m.isStatic

/-- The names of the handlers, in the order of declaration. -/
def handlerNames (members : List Symbol.Member) : List String := (handlers members).map (·.name)

/-- A call of a method with the default value of each of its parameters. -/
def callText (m : Symbol.Member) : String :=
  m.name ++ "(" ++ Text.join ", " (m.parameters.map fun p => "default(" ++ p.type ++ ")") ++ ");"

def firstCall (members : List Symbol.Member) (name : String) : String :=
  (((handlers members).find? (·.name == name)).map callText).getD ""

theorem handlers_eq (members : List Symbol.Member) :
    handlers members = members.filter fun m => isOrdinaryMethod m && !m.isStatic := by
  refine List.filter_congr fun m _ => ?_
  rw [isOrdinaryMethod, Bool.and_right_comm (m.kind == .method)]

/-- A class is recorded with the first overload of each of its handlers. -/
theorem methods_eq (members : List Symbol.Member) : methods members =
    (handlerNames members).eraseDups.map fun name => (name, firstCall members name) := by
  have hfold : methods members = ((handlers members).map fun m => (m.name, methodCall m)).foldl
      (fun t p => Table.setNew p.1 p.2 t) [] := by
    rw [methods, handlers_eq, List.foldl_map, List.foldl_filter]
  have hkeys : (methods members).keys = (handlerNames members).eraseDups := by
    rw [hfold, Table.keys_foldl_setNew, List.map_map]
    rfl
  rw [← hkeys]
  refine Table.eq_map_keys (hfold ▸ Table.nodup_foldl_setNew _) fun name call hcall => ?_
  rw [hfold, Table.get?_foldl_setNew, Table.get?_map_pairs (·.name) methodCall] at hcall
  have hcall : ((handlers members).find? (·.name == name)).map callText = some call := hcall
  rw [firstCall, hcall]
  rfl

end Scan

/-- What is listed once is listed in the order in which it appears first. -/
theorem pairwise_idxOf_eraseDups {α : Type} [BEq α] [LawfulBEq α] (l : List α) :
    l.eraseDups.Pairwise fun a b => l.idxOf a < l.idxOf b := by
  induction l using List.reverseRecOn with
  | nil => exact .nil
  | append_singleton l x ih =>
    have hbefore {a : α} (ha : a ∈ l) : (l ++ [x]).idxOf a = l.idxOf a := by
      rw [List.idxOf_append, if_pos ha]
    rw [List.eraseDups_append]
    refine List.pairwise_append.mpr ⟨?_, ?_, ?_⟩
    · refine ih.imp_of_mem fun {a b} ha hb hab => ?_
      rwa [hbefore (List.mem_eraseDups.mp ha), hbefore (List.mem_eraseDups.mp hb)]
    · by_cases hx : x ∈ l <;> simp [List.removeAll, hx, List.eraseDups_cons]
    · intro a ha b hb
      have ha := List.mem_eraseDups.mp ha
      have hb := List.mem_eraseDups.mp hb
      obtain ⟨hbx, hb⟩ : b = x ∧ b ∉ l := by simpa [List.removeAll] using hb
      rw [hbefore ha, List.idxOf_append, if_neg hb]
      exact Nat.lt_of_lt_of_le (List.idxOf_lt_length_of_mem ha) (Nat.le_add_left _ _)

end SceneCodegen
