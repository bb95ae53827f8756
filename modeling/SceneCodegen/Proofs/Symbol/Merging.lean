import Mathlib.Data.List.Nodup
import Mathlib.Data.List.Pairwise
import SceneCodegen.Proofs.Scan.Names
import SceneCodegen.Proofs.Table
import SceneCodegen.Symbol.SymbolTable

/-!
# Types put together from their parts

Parts belong to one type if they have one name. What is said here for any way to name parts holds
for their lookup names, and for their qualified names just as far as both tell the same parts apart.
-/
namespace SceneCodegen.SymbolTable
open Symbol

/-- Two parts of one name stand in two assemblies. -/
def Clashing (name : Declaration → String) (parts : List Part) : Prop :=
  ∃ p ∈ parts, ∃ q ∈ parts,
    name p.toDeclaration = name q.toDeclaration ∧ p.assembly ≠ q.assembly

/-- A type has the fields of its first part, but for those that are gathered from all parts. -/
structure IsWhole (parts : List Part) (s : TypeSymbol) : Prop where
  own : ∃ first rest, parts = first :: rest ∧
    s.toDeclaration = { first.toDeclaration with
      baseType := s.baseType, markers := s.markers, members := s.members }
  baseType : s.baseType = (parts.filterMap (·.baseType)).find? (· ≠ "")
  markers : s.markers = (parts.flatMap (·.markers)).eraseDups
  members : s.members = parts.flatMap (·.members)
  sourcePaths : s.sourcePaths = ((parts.filterMap (·.sourcePath)).filter (· ≠ "")).eraseDups

def partsOf (name : Declaration → String) (parts : List Part) (n : String) : List Part :=
  parts.filter fun p => name p.toDeclaration = n

/-- Parts are refused if one name stands in two assemblies. Otherwise there is one type for each
name, in the order in which names first appear, put together from the parts of its name. -/
def MergesBy (name : Declaration → String) (parts : List Part) : Prop :=
  (Clashing name parts ∧
    ∃ n first second, ofParts parts = .error (.assemblyClash n first second)) ∨
  (¬ Clashing name parts ∧ ∃ table, ofParts parts = .ok table ∧
    (table.values.map fun s => name s.toDeclaration) =
      (parts.map fun p => name p.toDeclaration).eraseDups ∧
    ∀ s ∈ table.values, IsWhole (partsOf name parts (name s.toDeclaration)) s)

theorem addNew_cons {α : Type} [BEq α] (old : List α) (a : α) (new : List α) :
    addNew old (a :: new) = addNew (if old.contains a then old else old ++ [a]) new := rfl

/-- What is held while duplicates are erased is held the other way round. -/
theorem loop_eq_addNew {α : Type} [BEq α] (new held : List α) :
    List.eraseDupsBy.loop (· == ·) new held = addNew held.reverse new := by
  induction new generalizing held with
  | nil => rfl
  | cons a new ih =>
    have hany : held.reverse.contains a = held.any (a == ·) := by
      rw [List.contains_eq_any_beq, List.any_reverse]
    rw [List.eraseDupsBy.loop, addNew_cons, hany]
    cases held.any (a == ·) with
    | true => exact ih held
    | false => simpa using ih (a :: held)

theorem addNew_nil {α : Type} [BEq α] (l : List α) : addNew [] l = l.eraseDups :=
  (loop_eq_addNew l []).symm

theorem nonEmpty?_eq (s? : Option String) : nonEmpty? s? = s?.filter (· ≠ "") := by
  cases s? with
  | none => rfl
  | some s =>
    by_cases hs : s = ""
    · simp [hs, nonEmpty?, Option.filter]
    · simp [hs, nonEmpty?, Option.filter]

theorem filterMap_nonEmpty? (f : Part → Option String) (parts : List Part) :
    (parts.filterMap fun p => nonEmpty? (f p)) = (parts.filterMap f).filter (· ≠ "") := by
  rw [List.filter_filterMap]
  exact List.filterMap_congr fun p _ => nonEmpty?_eq (f p)

theorem isWhole_merge (first : Part) (rest : List Part) :
    IsWhole (first :: rest) (merge first (first :: rest)) where
  own := ⟨first, rest, rfl, rfl⟩
  baseType := by
    rw [merge, ← List.head?_filterMap, filterMap_nonEmpty?, List.head?_filter]
  markers := by
    rw [← addNew_nil, addNew, List.foldl_flatMap]
    rfl
  members := rfl
  sourcePaths := by
    rw [merge, addNew_nil, filterMap_nonEmpty?]

namespace IsWhole

variable {parts : List Part} {s : TypeSymbol}

theorem names_eq (h : IsWhole parts s) : ∃ first ∈ parts,
    s.lookupName = first.lookupName ∧ s.qualifiedName = first.qualifiedName := by
  obtain ⟨first, rest, rfl, hown⟩ := h.own
  refine ⟨first, List.mem_cons_self, ?_, ?_⟩
  · rw [hown]; rfl
  · rw [hown]; rfl

end IsWhole

theorem mem_partsOf {name : Declaration → String} {parts : List Part} {n : String} {p : Part} :
    p ∈ partsOf name parts n ↔ p ∈ parts ∧ name p.toDeclaration = n := by
  simp [partsOf]

/-- The parts of each lookup name, the names in the order in which they first appear. -/
theorem group_eq (parts : List Part) :
    group parts = (parts.map fun p => p.lookupName).eraseDups.map fun n =>
      (n, partsOf Declaration.lookupName parts n) := by
  have hfold : group parts =
      (parts.map fun p => (p.lookupName, p)).foldl (fun t p => Table.push p.1 p.2 t) [] := by
    rw [group, List.foldl_map]
  have hkeys : (group parts).keys = (parts.map fun p => p.lookupName).eraseDups := by
    rw [hfold, Table.keys_foldl_push, List.map_map]
    rfl
  have hnodup : (group parts).keys.Nodup := by
    rw [hfold]
    exact Table.nodup_foldl_push _ List.nodup_nil
  rw [← hkeys]
  refine Table.eq_map_keys hnodup fun n ps hps => ?_
  have hfound : (Table.get? n (group parts)).getD [] = partsOf Declaration.lookupName parts n := by
    rw [hfold, Table.getD_foldl_push, Table.get?, Option.getD_none, List.nil_append,
      List.filter_map, List.map_map, partsOf]
    simp only [Function.comp_def, List.map_id', beq_eq_decide]
  rwa [hps, Option.getD_some] at hfound

/-- Each lookup name has a type, which is put together from its parts. -/
theorem exists_mergeGroup {parts : List Part} {n : String}
    (h : n ∈ (parts.map fun p => p.lookupName).eraseDups) :
    ∃ s : TypeSymbol, mergeGroup (n, partsOf Declaration.lookupName parts n) = some (n, s) ∧
      s.lookupName = n ∧ IsWhole (partsOf Declaration.lookupName parts n) s := by
  obtain ⟨p, hp, rfl⟩ := List.mem_map.mp (List.mem_eraseDups.mp h)
  obtain ⟨first, rest, hparts⟩ :=
    List.exists_cons_of_ne_nil (List.ne_nil_of_mem (mem_partsOf.mpr ⟨hp, rfl⟩))
  have hwhole := isWhole_merge first rest
  refine ⟨merge first (first :: rest), by rw [hparts, mergeGroup], ?_, hparts ▸ hwhole⟩
  have hfirst : first ∈ partsOf Declaration.lookupName parts p.lookupName := by
    rw [hparts]
    exact List.mem_cons_self
  exact (mem_partsOf.mp hfirst).2

theorem of_mem_merged {parts : List Part} {n : String} {s : TypeSymbol}
    (h : (n, s) ∈ (group parts).filterMap mergeGroup) :
    s.lookupName = n ∧ IsWhole (partsOf Declaration.lookupName parts n) s := by
  rw [group_eq, List.filterMap_map] at h
  obtain ⟨m, hm, hmerge⟩ := List.mem_filterMap.mp h
  obtain ⟨t, ht, hname, hwhole⟩ := exists_mergeGroup hm
  rw [Function.comp_apply, ht] at hmerge
  cases hmerge
  exact ⟨hname, hwhole⟩

theorem keys_merged (parts : List Part) :
    Table.keys ((group parts).filterMap mergeGroup) =
      (parts.map fun p => p.lookupName).eraseDups := by
  rw [Table.keys, group_eq, List.filterMap_map, List.map_filterMap]
  refine (List.filterMap_congr fun n hn => ?_).trans List.filterMap_some
  obtain ⟨s, hs, -⟩ := exists_mergeGroup hn
  simp [hs]

/-- Nothing is refused just if parts of one name stand in one assembly, also with those before. -/
theorem clash?_eq_none_iff (assemblies : Table String String) (parts : List Part) :
    clash? assemblies parts = none ↔
      (∀ p ∈ parts, ∀ a, assemblies.get? p.lookupName = some a → a = p.assembly) ∧
        parts.Pairwise fun p q => p.lookupName = q.lookupName → p.assembly = q.assembly := by
  induction parts generalizing assemblies with
  | nil => simp [clash?]
  | cons part rest ih =>
    rw [clash?, List.forall_mem_cons, List.pairwise_cons]
    cases hknown : assemblies.get? part.lookupName with
    | none =>
      have hset : ∀ p : Part, (∀ a, (assemblies.set part.lookupName part.assembly).get?
          p.lookupName = some a → a = p.assembly) ↔
            (∀ a, assemblies.get? p.lookupName = some a → a = p.assembly) ∧
              (part.lookupName = p.lookupName → part.assembly = p.assembly) := by
        intro p
        by_cases hname : part.lookupName = p.lookupName
        · rw [← hname, Table.get?_set_self, hknown]
          simp
        · rw [Table.get?_set_of_ne hname]
          simp [hname]
      simp only [ih, hset, forall_and]
      simp [and_assoc]
    | some a =>
      by_cases ha : a = part.assembly
      · subst ha
        simp only [beq_self_eq_true, if_true, ih, Option.some.injEq, forall_eq', true_and]
        constructor
        · rintro ⟨hbefore, hrest⟩
          exact ⟨hbefore, fun q hq hname => hbefore q hq _ (hname ▸ hknown), hrest⟩
        · rintro ⟨hbefore, -, hrest⟩
          exact ⟨hbefore, hrest⟩
      · simp [ha]

theorem clash?_nil_eq_none_iff (parts : List Part) :
    clash? [] parts = none ↔ ¬ Clashing Declaration.lookupName parts := by
  rw [clash?_eq_none_iff, Clashing, and_iff_right (by simp [Table.get?])]
  constructor
  · rintro h ⟨p, hp, q, hq, hname, hne⟩
    have : Std.Symm fun p q : Part => p.lookupName = q.lookupName → p.assembly = q.assembly :=
      ⟨fun p q hpq heq => (hpq heq.symm).symm⟩
    exact hne (h.forall_of_forall (fun _ _ _ => rfl) hp hq hname)
  · intro h
    rw [List.pairwise_iff_forall_sublist]
    intro p q hpq hname
    by_contra hne
    exact h ⟨p, hpq.subset (by simp), q, hpq.subset (by simp), hname, hne⟩

theorem assemblyClash_of_clash? {assemblies : Table String String} {parts : List Part}
    {e : LoadError} (h : clash? assemblies parts = some e) :
    ∃ n first second, e = .assemblyClash n first second := by
  induction parts generalizing assemblies with
  | nil => cases h
  | cons part rest ih =>
    rw [clash?] at h
    split at h
    · exact ih h
    · split at h
      · exact ih h
      · cases h
        exact ⟨_, _, _, rfl⟩

theorem ofParts_of_clash {parts : List Part} (h : Clashing Declaration.lookupName parts) :
    ∃ n first second, ofParts parts = .error (.assemblyClash n first second) := by
  obtain ⟨e, he⟩ := Option.ne_none_iff_exists'.mp
    (mt (clash?_nil_eq_none_iff parts).mp (not_not_intro h))
  obtain ⟨n, first, second, rfl⟩ := assemblyClash_of_clash? he
  exact ⟨n, first, second, by rw [ofParts, he]⟩

theorem ofParts_of_not_clash {parts : List Part} (h : ¬ Clashing Declaration.lookupName parts) :
    ofParts parts = .ok ((group parts).filterMap mergeGroup) := by
  rw [ofParts, (clash?_nil_eq_none_iff parts).mpr h]

/-- Each type is there once, under its lookup name. -/
structure Keyed (symbols : SymbolTable) : Prop where
  nodup : (Table.keys symbols).Nodup
  lookupName : ∀ name t, (name, t) ∈ symbols → t.lookupName = name

/-- The table of a document holds each type once, under its lookup name. -/
theorem keyed_ofParts {parts : List Part} {symbols : SymbolTable}
    (h : ofParts parts = .ok symbols) : symbols.Keyed := by
  unfold ofParts at h
  split at h
  · cases h
  · cases h
    constructor
    · rw [keys_merged]
      exact Table.nodup_eraseDups _
    · exact fun name t hmem => (of_mem_merged hmem).1

/-- So does the table of a document that is accepted. -/
theorem keyed_ofDocument {read : Reader} {document : Json} {symbols : SymbolTable}
    (h : ofDocument read document = .ok symbols) : symbols.Keyed := by
  unfold ofDocument at h
  cases hparts : read document with
  | error issues => simp [hparts, Except.mapError, bind, Except.bind] at h
  | ok parts =>
    simp only [hparts, Except.mapError, bind, Except.bind] at h
    exact keyed_ofParts h

/-- Parts are put together by their lookup names. -/
theorem mergesBy_lookupName (parts : List Part) : MergesBy Declaration.lookupName parts := by
  by_cases h : Clashing Declaration.lookupName parts
  · exact .inl ⟨h, ofParts_of_clash h⟩
  · refine .inr ⟨h, _, ofParts_of_not_clash h, ?_, fun s hs => ?_⟩
    · rw [← keys_merged, Table.keys, Table.values, List.map_map]
      exact List.map_congr_left fun entry hentry => (of_mem_merged hentry).1
    · obtain ⟨⟨n, s⟩, hentry, rfl⟩ := List.mem_map.mp hs
      obtain ⟨rfl, hwhole⟩ := of_mem_merged hentry
      exact hwhole

/-- The qualified names of the parts tell the same parts apart as their lookup names. -/
def NamesAgree (parts : List Part) : Prop :=
  ∀ p ∈ parts, ∀ q ∈ parts, p.qualifiedName = q.qualifiedName ↔ p.lookupName = q.lookupName

theorem NamesAgree.clashing_iff {parts : List Part} (h : NamesAgree parts) :
    Clashing Declaration.qualifiedName parts ↔ Clashing Declaration.lookupName parts := by
  constructor
  · rintro ⟨p, hp, q, hq, hname, hne⟩
    exact ⟨p, hp, q, hq, (h p hp q hq).mp hname, hne⟩
  · rintro ⟨p, hp, q, hq, hname, hne⟩
    exact ⟨p, hp, q, hq, (h p hp q hq).mpr hname, hne⟩

/-- If names agree, one kind of name is told from the other. -/
theorem NamesAgree.exists_eq {parts : List Part} (h : NamesAgree parts) :
    ∃ f : String → String, ∀ p ∈ parts, f p.lookupName = p.qualifiedName := by
  classical
  refine ⟨fun n => if hn : ∃ p ∈ parts, p.lookupName = n then hn.choose.qualifiedName else n,
    fun p hp => ?_⟩
  have hn : ∃ q ∈ parts, q.lookupName = p.lookupName := ⟨p, hp, rfl⟩
  beta_reduce
  rw [dif_pos hn]
  exact (h _ hn.choose_spec.1 p hp).mpr hn.choose_spec.2

/-- Parts are put together by their qualified names as well if these tell the same parts apart. -/
theorem mergesBy_qualifiedName {parts : List Part} (h : NamesAgree parts) :
    MergesBy Declaration.qualifiedName parts := by
  rcases mergesBy_lookupName parts with ⟨hclash, herror⟩ | ⟨hclash, table, htable, hnames, hwhole⟩
  · exact .inl ⟨h.clashing_iff.mpr hclash, herror⟩
  · obtain ⟨f, hf⟩ := h.exists_eq
    have hfirst : ∀ s ∈ table.values, ∃ p ∈ parts,
        s.lookupName = p.lookupName ∧ s.qualifiedName = p.qualifiedName := by
      intro s hs
      obtain ⟨first, hfirst, hsame⟩ := (hwhole s hs).names_eq
      exact ⟨first, (mem_partsOf.mp hfirst).1, hsame⟩
    have hinj : ∀ a ∈ parts.map (fun p => p.lookupName), ∀ b ∈ parts.map (fun p => p.lookupName),
        f a = f b → a = b := by
      simp only [List.forall_mem_map]
      intro p hp q hq heq
      rw [hf p hp, hf q hq] at heq
      exact (h p hp q hq).mp heq
    refine .inr ⟨mt h.clashing_iff.mp hclash, table, htable, ?_, fun s hs => ?_⟩
    · calc table.values.map (fun s => s.qualifiedName)
        _ = (table.values.map fun s => s.lookupName).map f := by
          rw [List.map_map]
          refine List.map_congr_left fun s hs => ?_
          obtain ⟨p, hp, hlookup, hqualified⟩ := hfirst s hs
          rw [hqualified, Function.comp_apply, hlookup, hf p hp]
        _ = ((parts.map fun p => p.lookupName).map f).eraseDups := by
          rw [hnames, Table.eraseDups_map hinj]
        _ = (parts.map fun p => p.qualifiedName).eraseDups := by
          rw [List.map_map]
          exact congrArg List.eraseDups (List.map_congr_left hf)
    · obtain ⟨p, hp, hlookup, hqualified⟩ := hfirst s hs
      have hparts : partsOf Declaration.qualifiedName parts s.qualifiedName =
          partsOf Declaration.lookupName parts s.lookupName := by
        rw [hqualified, hlookup]
        exact List.filter_congr fun q hq => by simp only [h q hq p hp]
      rw [hparts]
      exact hwhole s hs

/-- If equal qualified names come with equal lookup names, parts are put together by their
qualified names just if one of these stands in two assemblies or none hides behind a lookup name. -/
theorem mergesBy_qualifiedName_iff {parts : List Part}
    (hrefine : ∀ p ∈ parts, ∀ q ∈ parts, p.qualifiedName = q.qualifiedName →
      p.lookupName = q.lookupName) :
    MergesBy Declaration.qualifiedName parts ↔ Clashing Declaration.qualifiedName parts ∨
      ∀ p ∈ parts, ∀ q ∈ parts, p.lookupName = q.lookupName →
        p.qualifiedName = q.qualifiedName := by
  constructor
  · rintro (⟨hclash, -⟩ | ⟨-, table, htable, hnames, hwhole⟩)
    · exact .inl hclash
    · right
      intro p hp q hq hlookup
      obtain ⟨-, n, a, b, herror⟩ | ⟨-, table', htable', hnames', -⟩ := mergesBy_lookupName parts
      · rw [htable] at herror
        cases herror
      obtain rfl : table = table' := Except.ok.inj (htable.symm.trans htable')
      -- The qualified name of a part is that of a type, which has its lookup name too.
      have hfound : ∀ r ∈ parts, ∃ s ∈ table.values,
          s.qualifiedName = r.qualifiedName ∧ s.lookupName = r.lookupName := by
        intro r hr
        have hmem : r.qualifiedName ∈ table.values.map fun s => s.qualifiedName := by
          rw [hnames, List.mem_eraseDups]
          exact List.mem_map_of_mem hr
        obtain ⟨s, hs, hname⟩ := List.mem_map.mp hmem
        obtain ⟨first, hfirst, hsl, hsq⟩ := (hwhole s hs).names_eq
        refine ⟨s, hs, hname, hsl.trans ?_⟩
        exact hrefine first (mem_partsOf.mp hfirst).1 r hr (hsq.symm.trans hname)
      have hnodup : (table.values.map fun s => s.lookupName).Nodup := by
        rw [hnames']
        exact Table.nodup_eraseDups _
      obtain ⟨s, hs, hsq, hsl⟩ := hfound p hp
      obtain ⟨t, ht, htq, htl⟩ := hfound q hq
      obtain rfl : s = t :=
        List.inj_on_of_nodup_map hnodup hs ht (hsl.trans (hlookup.trans htl.symm))
      rw [← hsq, htq]
  · intro h
    by_cases hclash : Clashing Declaration.qualifiedName parts
    · obtain ⟨p, hp, q, hq, hname, hne⟩ := hclash
      exact .inl ⟨⟨p, hp, q, hq, hname, hne⟩,
        ofParts_of_clash ⟨p, hp, q, hq, hrefine p hp q hq hname, hne⟩⟩
    · exact mergesBy_qualifiedName fun p hp q hq =>
        ⟨hrefine p hp q hq, h.resolve_left hclash p hp q hq⟩

/-- Parts are put together by their lookup names. Where names hold no angle brackets, they are put
together by their qualified names just if one of these stands in two assemblies, which is refused
either way, or if no two of them share a lookup name. -/
theorem merges_by_name (parts : List Part) :
    MergesBy Declaration.lookupName parts ∧
      ((∀ p ∈ parts, p.Plain) →
        (MergesBy Declaration.qualifiedName parts ↔ Clashing Declaration.qualifiedName parts ∨
          ∀ p ∈ parts, ∀ q ∈ parts, p.lookupName = q.lookupName →
            p.qualifiedName = q.qualifiedName)) :=
  ⟨mergesBy_lookupName parts, fun hplain => mergesBy_qualifiedName_iff fun p hp q hq =>
    (hplain p hp).lookupName_eq (hplain q hq)⟩

/-- A class with a type parameter in two parts, and a class without. -/
def poolAndItem : List Part :=
  [{ name := "Pool", nameSpace := "Game", assembly := "Game", typeParameters := ["T"] },
   { name := "Item", nameSpace := "Game", assembly := "Game" },
   { name := "Pool", nameSpace := "Game", assembly := "Game", typeParameters := ["T"] }]

theorem merges_by_name_poolAndItem :
    (∀ p ∈ poolAndItem, p.Plain) ∧ MergesBy Declaration.qualifiedName poolAndItem := by
  have hplain : ∀ p ∈ poolAndItem, p.Plain := by
    simp only [poolAndItem, List.forall_mem_cons]
    exact ⟨⟨by decide, by decide⟩, ⟨by decide, by decide⟩, ⟨by decide, by decide⟩, by simp⟩
  refine ⟨hplain, ((merges_by_name poolAndItem).2 hplain).mpr (.inr ?_)⟩
  simp only [poolAndItem, List.forall_mem_cons]
  decide

/-- A class, and a class with a type parameter that has the same name. -/
def pools : List Part :=
  [{ name := "Pool", nameSpace := "Game", assembly := "Game",
     members := [{ kind := .field, name := "size", type := "int" }] },
   { name := "Pool", nameSpace := "Game", assembly := "Game", typeParameters := ["T"],
     members := [{ kind := .field, name := "first", type := "T" }] }]

/-- Two classes are put together although their qualified names differ. -/
theorem pools_not_merged_by_qualifiedName : ¬ MergesBy Declaration.qualifiedName pools := by
  have hplain : ∀ p ∈ pools, p.Plain := by
    simp only [pools, List.forall_mem_cons]
    exact ⟨⟨by decide, by decide⟩, ⟨by decide, by decide⟩, by simp⟩
  rw [mergesBy_qualifiedName_iff fun p hp q hq => (hplain p hp).lookupName_eq (hplain q hq)]
  rintro (⟨p, hp, q, hq, -, hne⟩ | h)
  · simp only [pools, List.mem_cons, List.not_mem_nil, or_false] at hp hq
    rcases hp with rfl | rfl <;> rcases hq with rfl | rfl <;> exact hne rfl
  · have heq := h _ List.mem_cons_self _ (List.mem_cons_of_mem _ List.mem_cons_self)
      (by decide)
    exact absurd heq (by decide)

end SceneCodegen.SymbolTable
