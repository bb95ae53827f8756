import Mathlib.Data.List.Forall2
import Mathlib.Data.List.Induction
import Mathlib.Data.List.Sort
import SceneCodegen.Manifest
import SceneCodegen.Proofs.Text.Cutting

/-!
# Manifests line by line

A manifest can be read one line at a time: what a line stands for hangs on the line itself and
on the nearest header above it, and an entry counts unless a line above stands for one of its
kind and name.
-/
namespace SceneCodegen.Manifest

/-- A line with one equals sign, a name before it and a path after it. -/
def Registers (line : String) (e : Entry) : Prop :=
  ∃ before after : String, line = before ++ "=" ++ after ∧ '=' ∉ before.toList ∧
    '=' ∉ after.toList ∧ Text.trim before ≠ "" ∧
      e = ⟨.singleton, Text.trim before, Text.trimQuotes (Text.trim after)⟩

/-- A line with a name before its first equals sign that is not the beginning of a value. -/
def Defines (line : String) (e : Entry) : Prop :=
  ∃ before after : String, line = before ++ "=" ++ after ∧ '=' ∉ before.toList ∧
    Text.trim before ≠ "" ∧ (∀ c, (Text.trim before).toList.head? = some c →
      c ∉ ['"', '\x7b', '\x7d', '[', ']']) ∧ e = ⟨.inputAction, Text.trim before, ""⟩

/-- What a body line of a section of the given name stands for. -/
def StandsFor (name line : String) (e : Entry) : Prop :=
  name = "autoload" ∧ Registers line e ∨ name = "input" ∧ Defines line e

/-- The entry that a body line of a section stands for. -/
def entryUnder? (name line : String) : Option Entry :=
  (sectionKind name).bind fun kind => entryOfLine kind line

/-- The parts of a line around its first equals sign. -/
theorem split_append {before after : String} (h : '=' ∉ before.toList) :
    Text.split '=' (before ++ "=" ++ after) = before :: Text.split '=' after := by
  have hline : (before ++ "=" ++ after).toList = before.toList ++ '=' :: after.toList := by
    simp [String.toList_append]
  rw [Text.split, hline, Text.fields_append h, List.map_cons, String.ofList_toList, Text.split]

theorem split_of_not_mem {line : String} (h : '=' ∉ line.toList) :
    Text.split '=' line = [line] := by
  rw [Text.split, Text.fields_of_not_mem h, List.map_singleton, String.ofList_toList]

theorem exists_split_eq_cons (line : String) :
    ∃ part parts, Text.split '=' line = part :: parts :=
  List.exists_cons_of_ne_nil (mt List.map_eq_nil_iff.mp (Text.fields_ne_nil '=' line.toList))

/-- A line has no equals sign, or a first one. -/
theorem equals_cases (line : String) : '=' ∉ line.toList ∨
    ∃ before after : String, line = before ++ "=" ++ after ∧ '=' ∉ before.toList := by
  by_cases h : '=' ∈ line.toList
  · obtain ⟨before, after, hline, hbefore⟩ := List.eq_append_cons_of_mem h
    refine .inr ⟨String.ofList before, String.ofList after, ?_, by simpa using hbefore⟩
    rw [← String.toList_inj, hline]
    simp [String.toList_append]
  · exact .inl h

theorem singletonOfLine_eq_some_iff {line : String} {e : Entry} :
    singletonOfLine line = some e ↔ Registers line e := by
  constructor
  · intro h
    rcases equals_cases line with hnone | ⟨before, after, rfl, hbefore⟩
    · simp [singletonOfLine, split_of_not_mem hnone] at h
    · rcases equals_cases after with hafter | ⟨middle, last, rfl, hmiddle⟩
      · simp only [singletonOfLine, split_append hbefore, split_of_not_mem hafter, beq_iff_eq] at h
        split at h
        · cases h
        · next hname =>
          cases h
          exact ⟨before, after, rfl, hbefore, hafter, hname, rfl⟩
      · -- A second equals sign makes for three parts at least.
        obtain ⟨part, parts, hlast⟩ := exists_split_eq_cons last
        simp [singletonOfLine, split_append hbefore, split_append hmiddle, hlast] at h
  · rintro ⟨before, after, rfl, hbefore, hafter, hname, rfl⟩
    simp [singletonOfLine, split_append hbefore, split_of_not_mem hafter, hname]

theorem opensValue_iff {c : Char} : opensValue c = true ↔ c ∈ ['"', '\x7b', '\x7d', '[', ']'] := by
  simp [opensValue, or_assoc]

theorem inputActionOfLine_eq_some_iff {line : String} {e : Entry} :
    inputActionOfLine line = some e ↔ Defines line e := by
  constructor
  · intro h
    rcases equals_cases line with hnone | ⟨before, after, rfl, hbefore⟩
    · simp [inputActionOfLine, split_of_not_mem hnone] at h
    · obtain ⟨part, parts, hafter⟩ := exists_split_eq_cons after
      simp only [inputActionOfLine, split_append hbefore, hafter] at h
      split at h
      · cases h
      · next c rest hname =>
        split at h
        · cases h
        · next hopens =>
          cases h
          refine ⟨before, after, rfl, hbefore, fun hempty => ?_, fun d hd => ?_, rfl⟩
          · simp [hempty] at hname
          · rw [hname, List.head?_cons, Option.some.injEq] at hd
            subst hd
            exact fun hmem => hopens (opensValue_iff.mpr hmem)
  · rintro ⟨before, after, rfl, hbefore, hname, hhead, rfl⟩
    obtain ⟨part, parts, hafter⟩ := exists_split_eq_cons after
    obtain ⟨c, rest, hchars⟩ := List.exists_cons_of_ne_nil
      (mt String.toList_eq_nil_iff.mp hname)
    have hopens : opensValue c = false := by
      rw [Bool.eq_false_iff]
      exact fun h => hhead c (by rw [hchars, List.head?_cons]) (opensValue_iff.mp h)
    simp [inputActionOfLine, split_append hbefore, hafter, hchars, hopens]

theorem entryUnder?_eq_some_iff {name line : String} {e : Entry} :
    entryUnder? name line = some e ↔ StandsFor name line e := by
  rw [entryUnder?, StandsFor]
  unfold sectionKind
  split
  · simp [entryOfLine, singletonOfLine_eq_some_iff]
  · simp [entryOfLine, inputActionOfLine_eq_some_iff]
  · next hautoload hinput =>
    refine iff_of_false (by simp) ?_
    rintro (⟨h, -⟩ | ⟨h, -⟩)
    · exact hautoload h
    · exact hinput h

/-- The name a header gives to what stands under it. -/
def header? (line : String) : Option String :=
  if isHeader (Text.trim line) then some (headerName (Text.trim line)) else none

/-- The name of the nearest header in some lines, looked for from the end. -/
def lastHeader (lines : List String) : String := (lines.reverse.findSome? header?).getD ""

/-- The name of the section that the line at a place belongs to. -/
def sectionAt (lines : List String) (i : Nat) : String := lastHeader (lines.take i)

def IsBody (line : String) : Prop :=
  isIgnored (Text.trim line) = false ∧ isHeader (Text.trim line) = false

/-- The line at a place is a body line and stands for an entry. -/
def StandsAt (lines : List String) (i : Nat) (e : Entry) : Prop :=
  ∃ line, lines[i]? = some line ∧ IsBody line ∧ StandsFor (sectionAt lines i) line e

/-- No line above a place stands for an entry of the same kind and name. -/
def IsFirst (lines : List String) (i : Nat) (e : Entry) : Prop :=
  ∀ j < i, ∀ d, StandsAt lines j d → ¬ (d.kind = e.kind ∧ d.name = e.name)

/-- The entries are those of the places that are the first of their kind and name, in order. -/
def ReadsAs (lines : List String) (entries : List Entry) : Prop :=
  ∃ places : List Nat, places.Pairwise (· < ·) ∧
    (∀ i, i ∈ places ↔ ∃ e, StandsAt lines i e ∧ IsFirst lines i e) ∧
      List.Forall₂ (StandsAt lines) places entries

def entryAt? (lines : List String) (i : Nat) : Option Entry :=
  lines[i]?.bind fun line =>
    match Line.of line with
    | .body line => entryUnder? (sectionAt lines i) line
    | _ => none

theorem isIgnored_of_isHeader {trimmed : String} (h : isHeader trimmed = true) :
    isIgnored trimmed = false := by
  unfold isHeader at h
  unfold isIgnored
  cases hchars : trimmed.toList with
  | nil => simp [hchars] at h
  | cons c cs =>
    simp only [hchars, List.head?_cons, Bool.and_eq_true, beq_iff_eq, Option.some.injEq] at h
    obtain ⟨⟨rfl, -⟩, -⟩ := h
    rfl

theorem Line.of_eq_header_iff {line name : String} :
    Line.of line = .header name ↔ header? line = some name := by
  unfold Line.of header?
  by_cases h : isHeader (Text.trim line)
  · simp [h, isIgnored_of_isHeader h]
  · by_cases hi : isIgnored (Text.trim line) <;> simp [h, hi]

theorem Line.of_eq_body_iff {line body : String} :
    Line.of line = .body body ↔ IsBody line ∧ line = body := by
  unfold Line.of IsBody
  by_cases hi : isIgnored (Text.trim line)
  · simp [hi]
  · by_cases h : isHeader (Text.trim line) <;> simp [h, hi]

theorem entryAt?_eq_some_iff {lines : List String} {i : Nat} {e : Entry} :
    entryAt? lines i = some e ↔ StandsAt lines i e := by
  rw [entryAt?, Option.bind_eq_some_iff, StandsAt]
  refine exists_congr fun line => and_congr_right fun _ => ?_
  cases hline : Line.of line with
  | body body =>
    obtain ⟨hbody, rfl⟩ := Line.of_eq_body_iff.mp hline
    simp [entryUnder?_eq_some_iff, hbody]
  | ignored | header name =>
    refine iff_of_false (by simp) fun h => ?_
    rw [Line.of_eq_body_iff.mpr ⟨h.1, rfl⟩] at hline
    cases hline

/-- The entries that lines stand for, if those above end with a section of the given name. -/
def entriesUnder (name : String) : List Line → List Entry
  | [] => []
  | .ignored :: rest => entriesUnder name rest
  | .header next :: rest => entriesUnder next rest
  | .body line :: rest => (entryUnder? name line).toList ++ entriesUnder name rest

theorem filterMap_one {α β : Type} (f : α → Option β) (a : α) : [a].filterMap f = (f a).toList := by
  cases h : f a <;> simp [h]

theorem sectionEntries_eq (name : String) (lines : List String) :
    sectionEntries ⟨name, lines⟩ = lines.filterMap (entryUnder? name) := by
  unfold sectionEntries entryUnder?
  cases sectionKind name <;> simp

theorem flatMap_closeSection (name : String) (lines : List String) :
    (closeSection name lines).flatMap sectionEntries = lines.filterMap (entryUnder? name) := by
  unfold closeSection
  split
  · next h =>
    obtain ⟨-, hlines⟩ := (Bool.and_eq_true _ _).mp h
    simp [List.isEmpty_iff.mp hlines]
  · simp [sectionEntries_eq]

/-- What is carried along while sections are grouped changes nothing of what the lines stand for. -/
theorem flatMap_sectionsFrom (name : String) (held : List String) (ls : List Line) :
    (sectionsFrom name held ls).flatMap sectionEntries =
      held.filterMap (entryUnder? name) ++ entriesUnder name ls := by
  induction ls generalizing name held with
  | nil => simp [sectionsFrom, flatMap_closeSection, entriesUnder]
  | cons l ls ih =>
    cases l with
    | ignored => simp [sectionsFrom, ih, entriesUnder]
    | header next => simp [sectionsFrom, ih, entriesUnder, flatMap_closeSection]
    | body line =>
      rw [sectionsFrom, ih, entriesUnder, List.filterMap_append, List.append_assoc, filterMap_one]

theorem parse_eq (lines : List String) :
    parse lines = keepFirst [] (entriesUnder "" (lines.map Line.of)) := by
  rw [parse, sections, flatMap_sectionsFrom]
  rfl

/-- The header of the lines after the first, or else of the first. -/
theorem findSome?_header_cons (l : String) (lines : List String) (name : String) :
    ((l :: lines).reverse.findSome? header?).getD name =
      (lines.reverse.findSome? header?).getD ((header? l).getD name) := by
  rw [List.reverse_cons, List.findSome?_append]
  cases lines.reverse.findSome? header? <;> cases h : header? l <;> simp [h]

theorem entriesUnder_cons (name l : String) (ls : List Line) :
    entriesUnder name (Line.of l :: ls) =
      entriesUnder name [Line.of l] ++ entriesUnder ((header? l).getD name) ls := by
  cases hl : Line.of l with
  | header next => rw [Line.of_eq_header_iff.mp hl]; rfl
  | ignored | body body =>
    have hnone : header? l = none := by
      rw [← Option.not_isSome_iff_eq_none, Option.isSome_iff_exists]
      rintro ⟨next, hnext⟩
      rw [Line.of_eq_header_iff.mpr hnext] at hl
      cases hl
    rw [hnone]
    simp [entriesUnder]

/-- What lines stand for one after the other. -/
theorem entriesUnder_append (name : String) (lines : List String) (ls : List Line) :
    entriesUnder name (lines.map Line.of ++ ls) = entriesUnder name (lines.map Line.of) ++
      entriesUnder ((lines.reverse.findSome? header?).getD name) ls := by
  induction lines generalizing name with
  | nil => rfl
  | cons l lines ih =>
    rw [List.map_cons, List.cons_append, entriesUnder_cons, ih, findSome?_header_cons,
      entriesUnder_cons name l (lines.map Line.of), List.append_assoc]

theorem entryAt?_of_lt (lines more : List String) {i : Nat} (h : i < lines.length) :
    entryAt? (lines ++ more) i = entryAt? lines i := by
  rw [entryAt?, entryAt?, sectionAt, sectionAt, List.getElem?_append_left h,
    List.take_append_of_le_length (Nat.le_of_lt h)]

/-- A further line stands for what it stands for under the last header. -/
theorem entryAt?_concat (lines : List String) (line : String) :
    (entryAt? (lines ++ [line]) lines.length).toList =
      entriesUnder (lastHeader lines) [Line.of line] := by
  rw [entryAt?, sectionAt, List.getElem?_concat_length, List.take_left, Option.bind_some]
  cases Line.of line <;> simp [entriesUnder]

/-- The entries of a manifest, before those of a kind and name again are left out. -/
theorem entriesUnder_eq (lines : List String) :
    entriesUnder "" (lines.map Line.of) = (List.range lines.length).filterMap (entryAt? lines) := by
  induction lines using List.reverseRecOn with
  | nil => rfl
  | append_singleton lines line ih =>
    have hbefore : (List.range lines.length).filterMap (entryAt? (lines ++ [line])) =
        (List.range lines.length).filterMap (entryAt? lines) :=
      List.filterMap_congr fun i hi => entryAt?_of_lt lines [line] (List.mem_range.mp hi)
    rw [List.map_append, entriesUnder_append, ih, List.length_append, List.length_singleton,
      List.range_succ, List.filterMap_append, hbefore]
    rw [← lastHeader, List.map_singleton, ← entryAt?_concat, filterMap_one]

/-- What tells entries apart. -/
def Entry.key (e : Entry) : EntryKind × String := (e.kind, e.name)

theorem keepFirst_cons (seen : List (EntryKind × String)) (d : Entry) (es : List Entry) :
    keepFirst seen (d :: es) =
      if d.key ∈ seen then keepFirst seen es else d :: keepFirst (d.key :: seen) es := by
  rw [keepFirst, Entry.key]
  by_cases h : (d.kind, d.name) ∈ seen <;> simp [h]

/-- The last entry is kept unless there is one of its kind and name before it. -/
theorem keepFirst_concat (seen : List (EntryKind × String)) (es : List Entry) (e : Entry) :
    keepFirst seen (es ++ [e]) =
      keepFirst seen es ++ if e.key ∈ seen ∨ e.key ∈ es.map Entry.key then [] else [e] := by
  induction es generalizing seen with
  | nil => by_cases h : e.key ∈ seen <;> simp [keepFirst_cons, keepFirst, h]
  | cons d es ih =>
    rw [List.cons_append, keepFirst_cons, keepFirst_cons, ih, ih]
    by_cases hd : d.key ∈ seen
    · have hseen : e.key = d.key → e.key ∈ seen := fun h => h ▸ hd
      simp only [hd, if_true, List.map_cons, List.mem_cons]
      congr 2
      grind
    · simp only [hd, if_false, List.map_cons, List.mem_cons, List.cons_append]
      congr 3
      grind

/-- The places whose entries are kept, of the places up to some bound. -/
theorem exists_places (f : Nat → Option Entry) (n : Nat) :
    ∃ places : List Nat, places.Pairwise (· < ·) ∧
      (∀ i, i ∈ places ↔ i < n ∧ ∃ e, f i = some e ∧ ∀ j < i, ∀ d, f j = some d → d.key ≠ e.key) ∧
        List.Forall₂ (fun i e => f i = some e) places
          (keepFirst [] ((List.range n).filterMap f)) := by
  induction n with
  | zero => exact ⟨[], .nil, by simp, .nil⟩
  | succ n ih =>
    obtain ⟨places, hsorted, hmem, hall⟩ := ih
    have hbound : ∀ i ∈ places, i < n := fun i hi => ((hmem i).mp hi).1
    rw [List.range_succ, List.filterMap_append]
    by_cases hkept : ∃ e, f n = some e ∧ ∀ j < n, ∀ d, f j = some d → d.key ≠ e.key
    · obtain ⟨e, he, hfirst⟩ := hkept
      have hnew : e.key ∉ ((List.range n).filterMap f).map Entry.key := by
        simp only [List.mem_map, List.mem_filterMap, List.mem_range, not_exists, not_and]
        rintro d ⟨j, hj, hd⟩
        exact hfirst j hj d hd
      refine ⟨places ++ [n], ?_, fun i => ?_, ?_⟩
      · rw [List.pairwise_append]
        exact ⟨hsorted, List.pairwise_singleton _ _, by simpa using hbound⟩
      · rw [List.mem_append, hmem, List.mem_singleton]
        constructor
        · rintro (⟨hlt, h⟩ | rfl)
          · exact ⟨by omega, h⟩
          · exact ⟨by omega, e, he, hfirst⟩
        · rintro ⟨hlt, h⟩
          rcases Nat.lt_succ_iff_lt_or_eq.mp hlt with hlt | rfl
          · exact .inl ⟨hlt, h⟩
          · exact .inr rfl
      · simp only [List.filterMap_cons, he, List.filterMap_nil]
        rw [keepFirst_concat, if_neg (by simpa using hnew)]
        exact List.rel_append hall (.cons he .nil)
    · refine ⟨places, hsorted, fun i => ?_, ?_⟩
      · rw [hmem]
        refine and_congr_left fun h => ?_
        constructor
        · intro hlt; omega
        · intro hlt
          rcases Nat.lt_succ_iff_lt_or_eq.mp hlt with hlt | rfl
          · exact hlt
          · exact absurd h hkept
      · cases he : f n with
        | none => simpa [he] using hall
        | some e =>
          have hold : e.key ∈ ((List.range n).filterMap f).map Entry.key := by
            by_contra hnew
            refine hkept ⟨e, he, fun j hj d hd heq => hnew ?_⟩
            rw [← heq]
            exact List.mem_map_of_mem (List.mem_filterMap.mpr ⟨j, List.mem_range.mpr hj, hd⟩)
          simp only [List.filterMap_cons, he, List.filterMap_nil]
          rw [keepFirst_concat, if_pos (.inr hold), List.append_nil]
          exact hall

theorem StandsAt.lt {lines : List String} {i : Nat} {e : Entry} (h : StandsAt lines i e) :
    i < lines.length := by
  obtain ⟨line, hline, -⟩ := h
  exact (List.getElem?_eq_some_iff.mp hline).1

theorem StandsAt.unique {lines : List String} {i : Nat} {d e : Entry} (hd : StandsAt lines i d)
    (he : StandsAt lines i e) : d = e := by
  rw [← entryAt?_eq_some_iff] at hd he
  exact Option.some.inj (hd.symm.trans he)

theorem key_ne_iff {d e : Entry} : d.key ≠ e.key ↔ ¬ (d.kind = e.kind ∧ d.name = e.name) := by
  simp [Entry.key]

/-- Parsing gives what a manifest reads as line by line. -/
theorem readsAs_parse (lines : List String) : ReadsAs lines (parse lines) := by
  obtain ⟨places, hsorted, hmem, hall⟩ := exists_places (entryAt? lines) lines.length
  refine ⟨places, hsorted, fun i => ?_, ?_⟩
  · rw [hmem]
    simp only [entryAt?_eq_some_iff, key_ne_iff, IsFirst]
    exact ⟨fun h => h.2, fun h => ⟨h.elim fun e he => he.1.lt, h⟩⟩
  · rw [parse_eq, entriesUnder_eq]
    exact hall.imp fun i e h => entryAt?_eq_some_iff.mp h

/-- A manifest reads as one list of entries. -/
theorem ReadsAs.unique {lines : List String} {es es' : List Entry} (h : ReadsAs lines es)
    (h' : ReadsAs lines es') : es = es' := by
  obtain ⟨places, hsorted, hmem, hall⟩ := h
  obtain ⟨places', hsorted', hmem', hall'⟩ := h'
  obtain rfl : places = places' :=
    hsorted.eq_of_mem_iff hsorted' fun i => (hmem i).trans (hmem' i).symm
  clear hsorted hmem hsorted' hmem'
  induction hall generalizing es' with
  | nil => cases hall'; rfl
  | cons he _ ih =>
    cases hall' with
    | cons he' hall' => rw [he.unique he', ih hall']

theorem parse_eq_iff {lines : List String} {es : List Entry} :
    parse lines = es ↔ ReadsAs lines es :=
  ⟨fun h => h ▸ readsAs_parse lines, fun h => (readsAs_parse lines).unique h⟩

end SceneCodegen.Manifest
