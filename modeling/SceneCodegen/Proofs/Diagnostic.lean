import SceneCodegen.Diagnostic
import SceneCodegen.Proofs.Table

/-!
# Sets of diagnostics

Among diagnostics of the ranked severities the order in which they are shown tells any two apart.
So a sorted list of them stands for a set: it depends on nothing but what is in it, and sorting what
was sorted before together with more is sorting all of it at once.
-/
namespace SceneCodegen.Diagnostic
variable {a b d : Diagnostic} {ds es : List Diagnostic}

instance : Std.TransCmp compare :=
  inferInstanceAs <| Std.TransCmp <|
    compareLex (compareOn fun d : Diagnostic => d.location.path) <|
    compareLex (compareOn fun d : Diagnostic => d.location.line) <|
    compareLex (compareOn fun d : Diagnostic => d.location.column) <|
    compareLex (compareOn fun d : Diagnostic => d.severity.rank) <|
    compareLex (compareOn fun d : Diagnostic => d.id) (compareOn fun d => d.message)

/-- The severity is one of those that are ranked. -/
def IsRanked (d : Diagnostic) : Prop := d.severity.rank < 3

instance (d : Diagnostic) : Decidable d.IsRanked := inferInstanceAs (Decidable (_ < 3))

theorem eq_of_compare (ha : a.IsRanked) (h : compare a b = .eq) : a = b := by
  rcases a with ⟨id, severity, message, path, line, column⟩
  rcases b with ⟨id', severity', message', path', line', column'⟩
  simp only [compare, Ordering.then_eq_eq, Std.compare_eq_iff_eq] at h
  obtain ⟨rfl, rfl, rfl, hrank, rfl, rfl⟩ := h
  have hseverity : severity = severity' := by
    revert ha hrank
    cases severity <;> cases severity' <;> simp [IsRanked, Severity.rank]
  rw [hseverity]

/-- Diagnostics in strict order are told by which they are. -/
theorem eq_of_pairwise (hds : ds.Pairwise fun a b => compare a b = .lt)
    (hes : es.Pairwise fun a b => compare a b = .lt) (h : ∀ d, d ∈ ds ↔ d ∈ es) : ds = es := by
  have hnodup {l : List Diagnostic} (hl : l.Pairwise fun a b => compare a b = .lt) : l.Nodup := by
    refine hl.imp fun {a b} hlt he => ?_
    have hself : compare b b = .eq := Std.ReflCmp.compare_self
    rw [he, hself] at hlt
    cases hlt
  refine ((List.perm_ext_iff_of_nodup (hnodup hds) (hnodup hes)).mpr h).eq_of_pairwise ?_ hds hes
  intro a b _ _ hab hba
  have hswap : compare a b = (compare b a).swap := Std.OrientedCmp.eq_swap
  rw [hswap, hba] at hab
  cases hab

theorem mem_sorted : d ∈ sorted ds ↔ d ∈ ds := by
  rw [Diagnostic.sorted, List.mem_mergeSort, List.mem_eraseDups]

/-- Sorting puts ranked diagnostics that are each there once in strict order. -/
theorem pairwise_mergeSort (h : ∀ d ∈ ds, d.IsRanked) (hnodup : ds.Nodup) :
    (ds.mergeSort le).Pairwise fun a b => compare a b = .lt := by
  have hle : (ds.mergeSort le).Pairwise fun a b => le a b = true :=
    pairwise_mergeSort_isLE compare ds
  have hnodup' : (ds.mergeSort le).Nodup := (List.mergeSort_perm _ _).nodup_iff.mpr hnodup
  refine (hle.and hnodup').imp_of_mem fun {a b} ha _ ⟨hle, hne⟩ => ?_
  have hcompare : compare a b ≠ .eq :=
    fun he => hne (eq_of_compare (h a (List.mem_mergeSort.mp ha)) he)
  revert hle hcompare
  unfold le
  cases compare a b <;> simp

/-- Ranked diagnostics are put in strict order. -/
theorem pairwise_sorted (h : ∀ d ∈ ds, d.IsRanked) :
    (sorted ds).Pairwise fun a b => compare a b = .lt :=
  pairwise_mergeSort (fun d hd => h d (List.mem_eraseDups.mp hd)) (Table.nodup_eraseDups _)

theorem nodup_sorted (ds : List Diagnostic) : (sorted ds).Nodup :=
  (List.mergeSort_perm _ _).nodup_iff.mpr (Table.nodup_eraseDups _)

/-- However a set of ranked diagnostics is listed, it is sorted the same. -/
theorem mergeSort_eq_sorted (hds : ∀ d ∈ ds, d.IsRanked) (hnodup : es.Nodup)
    (h : ∀ d, d ∈ es ↔ d ∈ ds) : es.mergeSort le = sorted ds :=
  eq_of_pairwise (pairwise_mergeSort (fun d hd => hds d ((h d).mp hd)) hnodup) (pairwise_sorted hds)
    fun d => by rw [List.mem_mergeSort, mem_sorted, h]

theorem sorted_congr (hds : ∀ d ∈ ds, d.IsRanked) (h : ∀ d, d ∈ es ↔ d ∈ ds) :
    sorted es = sorted ds :=
  mergeSort_eq_sorted hds (Table.nodup_eraseDups es) fun d => by rw [List.mem_eraseDups, h]

/-- What is sorted together with more may have been sorted before. -/
theorem sorted_append_congr {ds' es' : List Diagnostic} (h : ∀ d ∈ ds ++ es, d.IsRanked)
    (hds : ∀ d, d ∈ ds' ↔ d ∈ ds) (hes : ∀ d, d ∈ es' ↔ d ∈ es) :
    sorted (ds' ++ es') = sorted (ds ++ es) :=
  sorted_congr h fun d => by rw [List.mem_append, List.mem_append, hds, hes]

theorem sorted_sorted_append (h : ∀ d ∈ ds ++ es, d.IsRanked) :
    sorted (sorted ds ++ es) = sorted (ds ++ es) :=
  sorted_append_congr h (fun _ => mem_sorted) fun _ => .rfl

theorem sorted_append_sorted (h : ∀ d ∈ ds ++ es, d.IsRanked) :
    sorted (sorted ds ++ sorted es) = sorted (ds ++ es) :=
  sorted_append_congr h (fun _ => mem_sorted) fun _ => mem_sorted

end SceneCodegen.Diagnostic
