import SceneCodegen.Proofs.Manifest.Source

/-!
# Parsing manifests

Parsing gives what a manifest reads as line by line. The entries of one kind are therefore those
of the lines of its sections, wherever these stand, and what was written into a manifest is what
is read from it.
-/
namespace SceneCodegen.Manifest

def EntryKind.sectionName : EntryKind → String
  | .singleton => "autoload"
  | .inputAction => "input"

instance (line : String) : Decidable (IsBody line) :=
  inferInstanceAs (Decidable (_ = false ∧ _ = false))

def linesOf (kind : EntryKind) (lines : List String) : List String :=
  (lines.zipIdx.filter fun (line, i) =>
    IsBody line ∧ sectionAt lines i = kind.sectionName).map Prod.fst

theorem sectionKind_eq_some_iff {name : String} {kind : EntryKind} :
    sectionKind name = some kind ↔ name = kind.sectionName := by
  unfold sectionKind
  split
  · cases kind <;> simp [EntryKind.sectionName]
  · cases kind <;> simp [EntryKind.sectionName]
  · next hautoload hinput =>
    refine iff_of_false (by simp) fun h => ?_
    cases kind with
    | singleton => exact hautoload h
    | inputAction => exact hinput h

theorem kind_of_entryOfLine {kind : EntryKind} {line : String} {e : Entry}
    (h : entryOfLine kind line = some e) : e.kind = kind := by
  cases kind with
  | singleton =>
    obtain ⟨_, _, _, _, _, _, rfl⟩ := singletonOfLine_eq_some_iff.mp h
    rfl
  | inputAction =>
    obtain ⟨_, _, _, _, _, _, rfl⟩ := inputActionOfLine_eq_some_iff.mp h
    rfl

/-- Of what a line stands for, the entries of a kind are those read in a section of that kind. -/
theorem filter_entryUnder? (kind : EntryKind) (name line : String) :
    (entryUnder? name line).toList.filter (fun e => e.kind = kind) =
      if name = kind.sectionName then (entryOfLine kind line).toList else [] := by
  rw [entryUnder?]
  cases hname : sectionKind name with
  | none =>
    have hother : name ≠ kind.sectionName := fun h => by
      rw [sectionKind_eq_some_iff.mpr h] at hname
      cases hname
    rw [if_neg hother]
    rfl
  | some other =>
    obtain rfl := sectionKind_eq_some_iff.mp hname
    rw [Option.bind_some]
    by_cases hkind : other = kind
    · subst hkind
      rw [if_pos rfl, List.filter_eq_self]
      intro e he
      simpa using kind_of_entryOfLine (Option.mem_toList.mp he)
    · have hother : other.sectionName ≠ kind.sectionName := by
        cases other <;> cases kind <;> simp_all [EntryKind.sectionName]
      rw [if_neg hother, List.filter_eq_nil_iff]
      intro e he
      simpa [kind_of_entryOfLine (Option.mem_toList.mp he)] using hkind

theorem sectionAt_of_le (lines more : List String) {i : Nat} (h : i ≤ lines.length) :
    sectionAt (lines ++ more) i = sectionAt lines i := by
  rw [sectionAt, sectionAt, List.take_append_of_le_length h]

theorem linesOf_concat (kind : EntryKind) (lines : List String) (line : String) :
    linesOf kind (lines ++ [line]) = linesOf kind lines ++
      if IsBody line ∧ lastHeader lines = kind.sectionName then [line] else [] := by
  have hbefore : (lines.zipIdx.filter fun (l, i) =>
      IsBody l ∧ sectionAt (lines ++ [line]) i = kind.sectionName) =
        lines.zipIdx.filter fun (l, i) => IsBody l ∧ sectionAt lines i = kind.sectionName := by
    refine List.filter_congr fun (l, i) hi => ?_
    have hlt : i < lines.length := by simpa using List.snd_lt_of_mem_zipIdx hi
    simp only [sectionAt_of_le lines [line] (Nat.le_of_lt hlt)]
  have hlast : sectionAt (lines ++ [line]) lines.length = lastHeader lines := by
    rw [sectionAt, List.take_left]
  rw [linesOf, linesOf, List.zipIdx_append, List.filter_append, hbefore, List.map_append]
  by_cases h : IsBody line ∧ lastHeader lines = kind.sectionName
  · simp [hlast, h]
  · simp [hlast, h]

/-- What a single line gives of the entries of a kind. -/
theorem filter_entriesUnder_single (kind : EntryKind) (name line : String) :
    (entriesUnder name [Line.of line]).filter (fun e => e.kind = kind) =
      if IsBody line ∧ name = kind.sectionName then (entryOfLine kind line).toList else [] := by
  cases hline : Line.of line with
  | body body =>
    obtain ⟨hbody, rfl⟩ := Line.of_eq_body_iff.mp hline
    simp only [entriesUnder, List.append_nil, filter_entryUnder?, hbody, true_and]
  | ignored | header next =>
    have hbody : ¬ IsBody line := fun h => by
      rw [Line.of_eq_body_iff.mpr ⟨h, rfl⟩] at hline
      cases hline
    rw [if_neg fun h => hbody h.1]
    rfl

/-- The entries of a kind are read from the lines of its sections. -/
theorem filter_entriesUnder (kind : EntryKind) (lines : List String) :
    (entriesUnder "" (lines.map Line.of)).filter (fun e => e.kind = kind) =
      (linesOf kind lines).filterMap (entryOfLine kind) := by
  induction lines using List.reverseRecOn with
  | nil => rfl
  | append_singleton lines line ih =>
    rw [List.map_append, entriesUnder_append, List.filter_append, ih, linesOf_concat,
      List.filterMap_append, ← lastHeader, List.map_singleton, filter_entriesUnder_single]
    split
    · rw [filterMap_one]
    · rfl

/-- Whether an entry is kept depends on the entries of its kind alone. -/
theorem filter_keepFirst (kind : EntryKind) (seen seen' : List (EntryKind × String))
    (h : ∀ name, (kind, name) ∈ seen ↔ (kind, name) ∈ seen') (es : List Entry) :
    (keepFirst seen es).filter (fun e => e.kind = kind) =
      keepFirst seen' (es.filter fun e => e.kind = kind) := by
  induction es generalizing seen seen' with
  | nil => rfl
  | cons e es ih =>
    rw [keepFirst_cons]
    by_cases hkind : e.kind = kind
    · have hseen : e.key ∈ seen ↔ e.key ∈ seen' := by
        have := h e.name
        rwa [← hkind] at this
      rw [List.filter_cons_of_pos (by simpa using hkind), keepFirst_cons]
      by_cases hmem : e.key ∈ seen
      · rw [if_pos hmem, if_pos (hseen.mp hmem), ih seen seen' h]
      · rw [if_neg hmem, if_neg (mt hseen.mpr hmem), List.filter_cons_of_pos (by simpa using hkind),
          ih (e.key :: seen) (e.key :: seen') fun name => by simp [h name]]
    · rw [List.filter_cons_of_neg (by simpa using hkind)]
      split
      · exact ih seen seen' h
      · rw [List.filter_cons_of_neg (by simpa using hkind)]
        refine ih (e.key :: seen) seen' fun name => ?_
        have hne : (kind, name) ≠ e.key := fun heq => hkind (congrArg Prod.fst heq).symm
        simp [hne, h name]

theorem isBody_of_mem_linesOf {kind : EntryKind} {lines : List String} {line : String}
    (h : line ∈ linesOf kind lines) : IsBody line := by
  obtain ⟨⟨l, i⟩, hmem, rfl⟩ := List.mem_map.mp h
  have := (List.mem_filter.mp hmem).2
  simp only [decide_eq_true_eq] at this
  exact this.1

theorem of_headerLine (kind : EntryKind) :
    Line.of (headerLine kind.sectionName) = .header kind.sectionName := by
  cases kind <;> decide

theorem entriesUnder_bodies (name : String) {lines : List String} (h : ∀ l ∈ lines, IsBody l) :
    entriesUnder name (lines.map Line.of) = lines.filterMap (entryUnder? name) := by
  induction lines with
  | nil => rfl
  | cons l lines ih =>
    have hl : Line.of l = .body l := Line.of_eq_body_iff.mpr ⟨h l List.mem_cons_self, rfl⟩
    rw [List.map_cons, hl, entriesUnder, ih fun x hx => h x (List.mem_cons_of_mem l hx)]
    cases he : entryUnder? name l <;> simp [he]

/-- The entries of a kind are those of a manifest with the lines of its sections and no others. -/
theorem filter_parse (kind : EntryKind) (lines : List String) :
    (parse lines).filter (fun e => e.kind = kind) =
      parse (headerLine kind.sectionName :: linesOf kind lines) := by
  have hunder : entryUnder? kind.sectionName = entryOfLine kind := by
    funext line
    rw [entryUnder?, sectionKind_eq_some_iff.mpr rfl, Option.bind_some]
  rw [parse_eq, filter_keepFirst kind [] [] (fun _ => Iff.rfl), filter_entriesUnder, parse_eq,
    List.map_cons, of_headerLine, entriesUnder, entriesUnder_bodies _ fun _ =>
      isBody_of_mem_linesOf,
    hunder]

theorem header?_eq_none_iff {line : String} :
    header? line = none ↔ isHeader (Text.trim line) = false := by
  unfold header?
  split <;> simp_all

theorem entriesUnder_flatMap (name : String) {lines : List String}
    (h : ∀ l ∈ lines, isHeader (Text.trim l) = false) :
    entriesUnder name (lines.map Line.of) =
      lines.flatMap fun l => entriesUnder name [Line.of l] := by
  induction lines with
  | nil => rfl
  | cons l lines ih =>
    rw [List.map_cons, entriesUnder_cons, header?_eq_none_iff.mpr (h l List.mem_cons_self),
      Option.getD_none, ih fun x hx => h x (List.mem_cons_of_mem l hx), List.flatMap_cons]

theorem entriesUnder_free {name : String} (hname : sectionKind name = none) {lines : List String}
    (h : ∀ l ∈ lines, isHeader (Text.trim l) = false) :
    entriesUnder name (lines.map Line.of) = [] := by
  rw [entriesUnder_flatMap name h, List.flatMap_eq_nil_iff]
  intro l hl
  cases hline : Line.of l with
  | body body => simp [entriesUnder, entryUnder?, hname]
  | ignored | header next => rfl

theorem Line.of_of_ignored {line : String} (h : isIgnored (Text.trim line) = true) :
    Line.of line = .ignored := by
  simp [Line.of, h]

theorem Filler.noHeader (f : Filler) : isHeader (Text.trim f.line) = false := by
  rw [Bool.eq_false_iff]
  intro h
  have := isIgnored_of_isHeader h
  rw [f.ignored] at this
  cases this

theorem Filler.entriesUnder (f : Filler) (name : String) :
    Manifest.entriesUnder name [Line.of f.line] = [] := by
  rw [Line.of_of_ignored f.ignored]
  rfl

/-- What a body line gives when it stands for an entry. -/
theorem entriesUnder_of_standsFor {name line : String} {e : Entry} (hbody : IsBody line)
    (h : StandsFor name line e) : entriesUnder name [Line.of line] = [e] := by
  rw [Line.of_eq_body_iff.mpr ⟨hbody, rfl⟩, entriesUnder, entryUnder?_eq_some_iff.mpr h]
  rfl

namespace PlainName

theorem ne_nil (n : PlainName) : n.text.toList ≠ [] := by
  obtain ⟨c, rest, hchars, -⟩ := n.first
  rw [hchars]
  exact List.cons_ne_nil c rest

theorem blank_of_head (n : PlainName) : ∀ c, n.text.toList.head? = some c →
    Text.isBlank c = false := by
  obtain ⟨c, rest, hchars, hblank, -⟩ := n.first
  rw [hchars]
  rintro d hd
  cases hd
  exact hblank

theorem trim_text (n : PlainName) : Text.trim n.text = n.text := by
  rw [Text.trim, Text.trimBoth_of_ends n.blank_of_head n.last, String.ofList_toList]

theorem text_ne_empty (n : PlainName) : n.text ≠ "" :=
  mt String.toList_eq_nil_iff.mpr n.ne_nil

/-- A line that begins with a name and ends otherwise than a header is a body line. -/
theorem isBody (n : PlainName) (tail : List Char) {c : Char} (hblank : Text.isBlank c = false)
    (hc : c ≠ ']') {line : String} (hline : line.toList = n.text.toList ++ (tail ++ [c])) :
    IsBody line := by
  obtain ⟨d, rest, hchars, hd, hsemi, hhash⟩ := n.first
  have htrim : (Text.trim line).toList = line.toList := by
    rw [Text.trim, String.toList_ofList]
    refine Text.trimBoth_of_ends (fun x hx => ?_) fun x hx => ?_
    · rw [hline, hchars, List.cons_append, List.head?_cons] at hx
      cases hx
      exact hd
    · rw [hline, ← List.append_assoc, List.getLast?_concat] at hx
      cases hx
      exact hblank
  constructor
  · rw [isIgnored, htrim, hline, hchars]
    simp [hsemi, hhash]
  · rw [isHeader, htrim, hline, ← List.append_assoc, List.getLast?_concat]
    simp [hc]

end PlainName

namespace SingletonItem

theorem isBody_entry (name : PlainName) (path : ScriptPath) : IsBody (line (.entry name path)) :=
  name.isBody ('=' :: '"' :: path.text.toList) (c := '"') (by decide) (by decide)
    (by simp [line, String.toList_append])

theorem toList_quoted (text : String) :
    ("\"" ++ text ++ "\"").toList = '"' :: (text.toList ++ ['"']) := by
  simp [String.toList_append]

theorem trim_quoted (text : String) : Text.trim ("\"" ++ text ++ "\"") = "\"" ++ text ++ "\"" := by
  rw [Text.trim, Text.trimBoth_of_ends, String.ofList_toList] <;> rw [toList_quoted]
  · rintro c hc
    cases hc
    decide
  · rintro c hc
    rw [← List.cons_append, List.getLast?_concat] at hc
    cases hc
    decide

theorem trimQuotes_quoted (path : ScriptPath) :
    Text.trimQuotes ("\"" ++ path.text ++ "\"") = path.text := by
  have hfront : Text.trimBoth (· == '"') ('"' :: path.text.toList) =
      Text.trimBoth (· == '"') path.text.toList := by
    rw [Text.trimBoth, Text.trimBoth, List.dropWhile_cons_of_pos (by decide)]
  have hpath : Text.trimBoth (· == '"') path.text.toList = path.text.toList :=
    Text.trimBoth_of_ends
      (fun c hc => beq_eq_false_iff_ne.mpr fun h => path.first (h ▸ hc))
      (fun c hc => beq_eq_false_iff_ne.mpr fun h => path.last (h ▸ hc))
  rw [Text.trimQuotes, toList_quoted, ← List.cons_append,
    Text.trimBoth_append_cut _ (by simp), hfront, hpath, String.ofList_toList]

theorem standsFor_entry (name : PlainName) (path : ScriptPath) :
    StandsFor "autoload" (line (.entry name path)) ⟨.singleton, name.text, path.text⟩ := by
  refine .inl ⟨rfl, name.text, "\"" ++ path.text ++ "\"", rfl, name.plain, ?_, ?_, ?_⟩
  · simp [path.plain]
  · rw [name.trim_text]
    exact name.text_ne_empty
  · rw [name.trim_text, trim_quoted, trimQuotes_quoted]

theorem noHeader (item : SingletonItem) : isHeader (Text.trim item.line) = false := by
  cases item with
  | entry name path => exact (isBody_entry name path).2
  | filler f => exact f.noHeader

theorem entriesUnder (item : SingletonItem) :
    Manifest.entriesUnder "autoload" [Line.of item.line] = item.entries := by
  cases item with
  | entry name path =>
    exact entriesUnder_of_standsFor (isBody_entry name path) (standsFor_entry name path)
  | filler f => exact f.entriesUnder "autoload"

end SingletonItem

/-- Trimming what stands before a later part leaves nothing, or begins as the whole does. -/
theorem head?_trim_append {before : String} (h : Text.trim before ≠ "") (after : String) :
    (Text.trim (before ++ after)).toList.head? = (Text.trim before).toList.head? := by
  have hne : before.toList.dropWhile Text.isBlank ≠ [] := fun hnil =>
    h (by rw [Text.trim, Text.trimBoth, hnil]; rfl)
  rw [Text.trim, Text.trim, String.toList_ofList, String.toList_ofList, Text.head?_trimBoth,
    Text.head?_trimBoth, String.toList_append, List.dropWhile_append,
    if_neg (by simpa [List.isEmpty_iff] using hne), List.head?_append_of_ne_nil _ hne]

theorem ValueLine.entriesUnder (v : ValueLine) :
    Manifest.entriesUnder "input" [Line.of v.line] = [] := by
  cases hline : Line.of v.line with
  | ignored | header next => rfl
  | body body =>
    obtain ⟨hbody, rfl⟩ := Line.of_eq_body_iff.mp hline
    have hnone : entryUnder? "input" v.line = none := by
      rw [Option.eq_none_iff_forall_ne_some]
      rintro e he
      obtain ⟨hother, -⟩ | ⟨-, before, after, hsplit, -, hname, hopens, -⟩ :=
        entryUnder?_eq_some_iff.mp he
      · simp at hother
      obtain ⟨c, rest, hchars, hc⟩ := v.silent (by rw [hsplit]; simp [String.toList_append])
      have hhead : (Text.trim before).toList.head? = some c := by
        rw [← head?_trim_append hname ("=" ++ after), ← String.append_assoc, ← hsplit,
          hchars, List.head?_cons]
      rcases hc with hc | hc
      · exact hopens c hhead (opensValue_iff.mp hc)
      · have hignored : isIgnored (Text.trim v.line) = true := by
          rw [isIgnored, hchars]
          rcases hc with rfl | rfl <;> rfl
        rw [hbody.1] at hignored
        cases hignored
    simp [Manifest.entriesUnder, hnone]

namespace ActionItem

/-- The line with the name of an action, which opens its value. -/
theorem standsFor_entry (name : ActionName) :
    StandsFor "input" (name.text ++ "=" ++ "\x7b") ⟨.inputAction, name.text, ""⟩ := by
  refine .inr ⟨rfl, name.text, "\x7b", rfl, name.plain, ?_, fun c hc hmem => ?_, ?_⟩
  · rw [name.trim_text]
    exact name.text_ne_empty
  · rw [name.trim_text] at hc
    rw [← opensValue_iff, name.opensNothing c hc] at hmem
    cases hmem
  · rw [name.trim_text]

theorem isBody_entry (name : ActionName) : IsBody (name.text ++ "=" ++ "\x7b") :=
  name.isBody ['='] (c := '\x7b') (by decide) (by decide)
    (by simp [String.toList_append])

theorem noHeader (item : ActionItem) : ∀ l ∈ item.lines, isHeader (Text.trim l) = false := by
  cases item with
  | entry name value =>
    intro l hl
    simp only [lines, List.mem_cons, List.mem_append, List.mem_map, List.not_mem_nil,
      or_false] at hl
    rcases hl with rfl | ⟨v, -, rfl⟩ | rfl
    · exact (isBody_entry name).2
    · exact v.noHeader
    · decide
  | filler f =>
    intro l hl
    rw [List.mem_singleton.mp hl]
    exact f.noHeader

theorem entriesUnder (item : ActionItem) :
    (item.lines.flatMap fun l => Manifest.entriesUnder "input" [Line.of l]) = item.entries := by
  cases item with
  | entry name value =>
    have hvalue : ((value.map ValueLine.line).flatMap fun l =>
        Manifest.entriesUnder "input" [Line.of l]) = [] := by
      rw [List.flatMap_eq_nil_iff]
      intro l hl
      obtain ⟨v, -, rfl⟩ := List.mem_map.mp hl
      exact v.entriesUnder
    have hclose : Manifest.entriesUnder "input" [Line.of "\x7d"] = [] := by decide
    rw [lines, List.flatMap_cons, List.flatMap_append, hvalue, List.flatMap_singleton, hclose,
      entriesUnder_of_standsFor (isBody_entry name) (standsFor_entry name)]
    rfl
  | filler f => rw [lines, List.flatMap_singleton, f.entriesUnder "input"]; rfl

end ActionItem

namespace OtherName

/-- The header with the name of another section is a header, of a section that is not read. -/
theorem header? (n : OtherName) : Manifest.header? (headerLine n.text) =
    some (Text.trim n.text) := by
  have hchars : (headerLine n.text).toList = '[' :: (n.text.toList ++ [']']) := by
    simp [headerLine, String.toList_append]
  have htrim : Text.trim (headerLine n.text) = headerLine n.text := by
    rw [Text.trim, Text.trimBoth_of_ends, String.ofList_toList] <;> rw [hchars]
    · rintro c hc
      cases hc
      decide
    · rintro c hc
      rw [← List.cons_append, List.getLast?_concat] at hc
      cases hc
      decide
  have hlong : 0 < n.text.toList.length :=
    List.length_pos_of_ne_nil (mt String.toList_eq_nil_iff.mp n.filled)
  have hheader : isHeader (headerLine n.text) = true := by
    rw [isHeader, hchars, ← List.cons_append, List.getLast?_concat]
    simpa using by omega
  have hname : headerName (headerLine n.text) = Text.trim n.text := by
    rw [headerName, hchars, List.drop_one, List.tail_cons, List.dropLast_concat,
      String.ofList_toList]
  rw [Manifest.header?, htrim, hheader, hname, if_pos rfl]

end OtherName

theorem WrittenSection.entriesUnder (w : WrittenSection) (name : String) :
    Manifest.entriesUnder name (w.lines.map Line.of) = w.entries := by
  cases w with
  | autoload items =>
    have hheader : Line.of (headerLine "autoload") = .header "autoload" :=
      of_headerLine .singleton
    rw [lines, List.map_cons, hheader, Manifest.entriesUnder, entriesUnder_flatMap,
      List.flatMap_map]
    · simp only [SingletonItem.entriesUnder, entries]
    · intro l hl
      obtain ⟨item, -, rfl⟩ := List.mem_map.mp hl
      exact item.noHeader
  | input items =>
    have hheader : Line.of (headerLine "input") = .header "input" := of_headerLine .inputAction
    rw [lines, List.map_cons, hheader, Manifest.entriesUnder, entriesUnder_flatMap,
      List.flatMap_assoc]
    · simp only [ActionItem.entriesUnder, entries]
    · intro l hl
      obtain ⟨item, -, hl⟩ := List.mem_flatMap.mp hl
      exact item.noHeader l hl
  | other other free =>
    rw [lines, List.map_cons, Line.of_eq_header_iff.mpr other.header?, Manifest.entriesUnder,
      entriesUnder_free other.other]
    · rfl
    · intro l hl
      obtain ⟨line, -, rfl⟩ := List.mem_map.mp hl
      exact line.noHeader

theorem entriesUnder_sections (sections : List WrittenSection) (name : String) :
    entriesUnder name ((sections.flatMap WrittenSection.lines).map Line.of) =
      sections.flatMap WrittenSection.entries := by
  induction sections generalizing name with
  | nil => rfl
  | cons w sections ih =>
    rw [List.flatMap_cons, List.map_append, entriesUnder_append, w.entriesUnder, ih,
      List.flatMap_cons]

/-- Entries that all differ in kind or name are all kept. -/
theorem keepFirst_of_nodup {seen : List (EntryKind × String)} {es : List Entry}
    (hes : (es.map Entry.key).Nodup) (hseen : ∀ e ∈ es, e.key ∉ seen) : keepFirst seen es = es := by
  induction es generalizing seen with
  | nil => rfl
  | cons e es ih =>
    obtain ⟨hnew, hes⟩ := List.nodup_cons.mp hes
    rw [keepFirst_cons, if_neg (hseen e List.mem_cons_self), ih hes]
    intro d hd hmem
    rcases List.mem_cons.mp hmem with heq | hmem
    · exact hnew (heq ▸ List.mem_map_of_mem hd)
    · exact hseen d (List.mem_cons_of_mem e hd) hmem

/-- What was written is what is read. -/
theorem parse_lines (s : Source) : parse s.lines = s.entries := by
  have hfront : entriesUnder "" ((s.front.map FreeLine.line).map Line.of) = [] := by
    refine entriesUnder_free rfl fun l hl => ?_
    obtain ⟨line, -, rfl⟩ := List.mem_map.mp hl
    exact line.noHeader
  rw [parse_eq, Source.lines, List.map_append, entriesUnder_append, hfront, List.nil_append,
    entriesUnder_sections, Source.entries]
  exact keepFirst_of_nodup s.distinct fun e _ => List.not_mem_nil

/-- A manifest with a section of each form: a singleton under a comment, an action, and settings of
which nothing is read. -/
def Source.platformer : Source where
  front := [⟨"config_version=5", by decide⟩]
  sections :=
    [.autoload [.filler ⟨"; singletons", by decide⟩,
      .entry ⟨"Game", ⟨'G', ['a', 'm', 'e'], by decide⟩, by simp; decide, by decide⟩
        ⟨"*res://game.cs", by decide, by decide, by decide⟩],
    .other ⟨"display", by decide, by decide⟩ [⟨"width=640", by decide⟩],
    .input [.entry ⟨⟨"jump", ⟨'j', ['u', 'm', 'p'], by decide⟩, by simp; decide, by decide⟩,
        by simp; decide⟩
      [⟨"\"deadzone\": 0.5", by decide, by simp⟩]]]
  distinct := by decide

example : parse Source.platformer.lines =
    [⟨.singleton, "Game", "*res://game.cs"⟩, ⟨.inputAction, "jump", ""⟩] := by
  decide

/-- Parsing gives the entries of the lines that are the first to stand for one of their kind and
name, in file order. The entries of a kind are those of a manifest with the lines of its sections
alone, and the entries of a manifest that was written are read back as they were written. -/
theorem parse_line_by_line :
    (∀ lines entries, parse lines = entries ↔ ReadsAs lines entries) ∧
      (∀ kind lines, (parse lines).filter (fun e => e.kind = kind) =
        parse (headerLine kind.sectionName :: linesOf kind lines)) ∧
      ∀ s : Source, parse s.lines = s.entries :=
  ⟨fun _ _ => parse_eq_iff, filter_parse, parse_lines⟩

end SceneCodegen.Manifest
