import SceneCodegen.Proofs.Generation.Answers
import SceneCodegen.Symbol.Document

/-!
# Own names of types

A generator finds each type by its lookup name, and by its qualified name and its display name as
well, unless the type has type parameters and so has one of the types around it. Then the outermost
of these is found in its place.
-/
namespace SceneCodegen
open Generation

/-- Texts within one line and without colons. -/
def Generation.IsPlainLine (s : String) : Prop := ∀ c ∈ s.toList, c ≠ ':' ∧ c ≠ '\n'

theorem Generation.IsPlainLine.append {s s' : String} (h : IsPlainLine s) (h' : IsPlainLine s') :
    IsPlainLine (s ++ s') := by
  intro c hc
  rw [String.toList_append, List.mem_append] at hc
  exact hc.elim (h c) (h' c)

theorem Generation.isPlainLine_dot : IsPlainLine "." := by
  intro c hc
  obtain rfl : c = '.' := by simpa using hc
  decide

theorem Generation.IsName.isPlainLine {s : String} (h : IsName s) : IsPlainLine s := by
  intro c hc
  obtain ⟨hblank, -, -, hcolon⟩ := h.plain c hc
  refine ⟨hcolon, ?_⟩
  rintro rfl
  exact absurd hblank (by decide)

theorem Generation.IsName.bracket_not_mem {s : String} (h : IsName s) : '<' ∉ s.toList :=
  fun hc => (h.plain _ hc).2.1 rfl

namespace Symbol.Declaration

/-- The types around a type, innermost first: each is given by its qualified name as what the type
stands in, and the outermost stands in a namespace or in none. -/
inductive StandsIn : Declaration → List Declaration → Prop
  | space {d : Declaration} (h : d.containingType.getD "" = "")
      (hspace : d.nameSpace = "" ∨ IsName d.nameSpace) : StandsIn d []
  | type {d outer : Declaration} {around : List Declaration}
      (h : d.containingType = some outer.qualifiedName) (hnamed : outer.Named)
      (hrest : StandsIn outer around) : StandsIn d (outer :: around)

variable {d outer : Declaration} {around : List Declaration}

theorem lookupName_of_space (h : d.containingType.getD "" = "") :
    d.lookupName = (if d.nameSpace = "" then "" else d.nameSpace ++ ".") ++ d.name := by
  rw [lookupName, qualify_eq, ← (qualifier_eq_iff d.nameSpace d.containingType).mpr (.inl h)]
  simp [qualifier, qualifier.inSpace]

theorem Named.lookupName_ne_nil (h : d.Named) : d.lookupName.toList ≠ [] := by
  obtain ⟨last, hlast, -⟩ := h.exists_last
  intro hnil
  rw [hnil] at hlast
  cases hlast

theorem lookupName_of_type (h : d.containingType = some outer.qualifiedName)
    (hnamed : outer.Named) :
    d.lookupName = outer.lookupName ++ (outer.parameterList ++ "." ++ d.name) := by
  have hfilled : outer.qualifiedName ≠ "" := by
    intro hempty
    rw [qualifiedName_eq, ← String.toList_inj, String.toList_append] at hempty
    exact hnamed.lookupName_ne_nil (List.append_eq_nil_iff.mp hempty).1
  rw [lookupName, h, qualify, if_pos (bne_iff_ne.mpr hfilled), qualifiedName_eq]
  simp [String.append_assoc]

namespace Named
variable (h : d.Named)
include h

theorem parameterList_isPlainLine : IsPlainLine d.parameterList := by
  intro c hc
  unfold parameterList at hc
  split at hc
  · cases hc
  · simp only [String.toList_append, List.mem_append] at hc
    rcases hc with (hc | hc) | hc
    · obtain rfl : c = '<' := by simpa using hc
      decide
    · obtain rfl | rfl | ⟨parameter, hparameter, hc⟩ := mem_parameters hc
      · decide
      · decide
      · exact (h.typeParameters parameter hparameter).isPlainLine c hc
    · obtain rfl : c = '>' := by simpa using hc
      decide

theorem bracket_mem_parameterList_iff :
    '<' ∈ d.parameterList.toList ↔ d.typeParameters ≠ [] := by
  rcases h.isParameterList with hnil | ⟨inner, hinner, -⟩
  · rw [← not_iff_not, not_not, ← parameterList_eq_nil_iff, hnil]
    simp
  · rw [Ne, ← parameterList_eq_nil_iff, hinner]
    simp

end Named

namespace StandsIn
variable (h : StandsIn d around) (hd : d.Named)
include h hd

theorem isPlainLine : IsPlainLine d.lookupName := by
  induction h with
  | space h hspace =>
    rw [lookupName_of_space h]
    refine IsPlainLine.append ?_ hd.name.isPlainLine
    split
    · nofun
    · next hne => exact (hspace.resolve_left hne).isPlainLine.append isPlainLine_dot
  | type h hnamed _ ih =>
    rw [lookupName_of_type h hnamed]
    exact (ih hnamed).append
      ((hnamed.parameterList_isPlainLine.append isPlainLine_dot).append hd.name.isPlainLine)

theorem unprefixed : d.Unprefixed := fun hbegins =>
  (h.isPlainLine hd ':' (hbegins.subset (by decide))).1 rfl

theorem flush : d.Flush := by
  induction h with
  | @space d h hspace =>
    intro c hc
    rw [lookupName_of_space h] at hc
    split at hc
    · rw [String.empty_append] at hc
      exact (hd.name.plain c (List.mem_of_head? hc)).1
    · next hne =>
      have hname := hspace.resolve_left hne
      have hfilled : d.nameSpace.toList ≠ [] := fun hnil =>
        hname.filled (String.toList_injective hnil)
      simp only [String.toList_append, List.append_assoc,
        List.head?_append_of_ne_nil _ hfilled] at hc
      exact (hname.plain c (List.mem_of_head? hc)).1
  | @type d outer around h hnamed _ ih =>
    intro c hc
    rw [lookupName_of_type h hnamed, String.toList_append,
      List.head?_append_of_ne_nil _ hnamed.lookupName_ne_nil] at hc
    exact ih hnamed c hc

theorem lastLine_lookupName : lastLine d.lookupName.toList = d.lookupName.toList :=
  lastLine_of_not_mem fun hmem => (h.isPlainLine hd '\n' hmem).2 rfl

/-- A bracket in the lookup name belongs to the type parameters of a type around. -/
theorem bracket_mem_iff :
    '<' ∈ d.lookupName.toList ↔ ∃ outer ∈ around, outer.typeParameters ≠ [] := by
  induction h with
  | @space d h hspace =>
    refine iff_of_false (fun hmem => ?_) (by simp)
    rw [lookupName_of_space h, String.toList_append, List.mem_append] at hmem
    rcases hmem with hmem | hmem
    · split at hmem
      · cases hmem
      · next hne =>
        have hspaceless := (hspace.resolve_left hne).bracket_not_mem
        simp [hspaceless] at hmem
    · exact hd.name.bracket_not_mem hmem
  | @type d outer around h hnamed _ ih =>
    have hname := hd.name.bracket_not_mem
    rw [lookupName_of_type h hnamed]
    simp only [String.toList_append, List.mem_append, ih hnamed,
      hnamed.bracket_mem_parameterList_iff, hname, List.exists_mem_cons_iff]
    simp [or_comm]

theorem unbracketed_iff : d.Unbracketed ↔
    d.typeParameters = [] ∨ ∀ outer ∈ around, outer.typeParameters = [] := by
  rw [Unbracketed, h.lastLine_lookupName hd, h.bracket_mem_iff hd]
  simp

end StandsIn

/-- What is around a type around a type. -/
theorem StandsIn.of_append (h : StandsIn d around) {inner outers : List Declaration}
    (haround : around = inner ++ outer :: outers) : outer.Named ∧ StandsIn outer outers := by
  induction inner generalizing d around with
  | nil =>
    subst haround
    cases h with
    | type _ hnamed hrest => exact ⟨hnamed, hrest⟩
  | cons _ inner ih =>
    subst haround
    cases h with
    | type _ _ hrest => exact ih hrest rfl

/-- The name of a type begins with that of each type around it that has type parameters. -/
theorem StandsIn.exists_lookupName_eq (h : StandsIn d around) (hd : d.Named)
    {inner outers : List Declaration} (haround : around = inner ++ outer :: outers)
    (hparameters : outer.typeParameters ≠ []) :
    ∃ rest, d.lookupName.toList = outer.lookupName.toList ++ '<' :: rest := by
  induction h generalizing inner with
  | space => simp at haround
  | @type d next around h hnamed hrest ih =>
    have hname := lookupName_of_type h hnamed
    cases inner with
    | nil =>
      obtain ⟨rfl, rfl⟩ := List.cons.inj haround
      rcases hnamed.isParameterList with hnil | ⟨list, hlist, -⟩
      · exact absurd (parameterList_eq_nil_iff.mp hnil) hparameters
      · refine ⟨list ++ '>' :: '.' :: d.name.toList, ?_⟩
        rw [hname, String.toList_append, String.toList_append, String.toList_append, hlist]
        simp
    | cons first inner =>
      obtain ⟨rfl, hbeyond⟩ := List.cons.inj haround
      obtain ⟨rest, hrest⟩ := ih hnamed hbeyond
      refine ⟨rest ++ (next.parameterList ++ "." ++ d.name).toList, ?_⟩
      rw [hname, String.toList_append, hrest]
      simp

/-- From there on to the end its qualified name could be one list of type parameters, if it has any
itself. -/
theorem StandsIn.exists_qualifiedName_eq (h : StandsIn d around) (hd : d.Named)
    {inner outers : List Declaration} (haround : around = inner ++ outer :: outers)
    (hparameters : outer.typeParameters ≠ []) (hown : d.typeParameters ≠ []) :
    ∃ parameters, IsParameterList parameters.toList ∧
      d.qualifiedName = outer.lookupName ++ parameters := by
  obtain ⟨rest, hrest⟩ := h.exists_lookupName_eq hd haround hparameters
  rcases hd.isParameterList with hnil | ⟨list, hlist, hline⟩
  · exact absurd (parameterList_eq_nil_iff.mp hnil) hown
  -- The list runs from the first bracket to the last, across all that is between.
  · have hbreak : '\n' ∉ rest := fun hmem => by
      refine (h.isPlainLine hd '\n' ?_).2 rfl
      rw [hrest]
      simp [hmem]
    refine ⟨String.ofList ('<' :: (rest ++ '<' :: list ++ ['>'])),
      .inr ⟨rest ++ '<' :: list, ?_, ?_⟩, ?_⟩
    · rw [String.toList_ofList]
    · simp [hbreak, hline]
    · rw [← String.toList_inj, qualifiedName_eq, String.toList_append, String.toList_append, hrest,
        hlist, String.toList_ofList]
      simp

theorem StandsIn.lookupNameOf_lookupName (h : StandsIn d around) (hd : d.Named) :
    lookupNameOf d.lookupName = d.lookupName :=
  hd.lookupNameOf_lookupName_iff.mpr ⟨h.unprefixed hd, h.flush hd⟩

/-- The names of a type with type parameters stand for the outermost type around it
that has some. -/
theorem StandsIn.lookupNameOf_outermost (h : StandsIn d around) (hd : d.Named)
    {inner outers : List Declaration} (haround : around = inner ++ outer :: outers)
    (hparameters : outer.typeParameters ≠ []) (hown : d.typeParameters ≠ [])
    (houters : ∀ further ∈ outers, further.typeParameters = []) :
    lookupNameOf d.qualifiedName = outer.lookupName ∧
      lookupNameOf d.displayName = outer.lookupName := by
  obtain ⟨parameters, hlist, hname⟩ := h.exists_qualifiedName_eq hd haround hparameters hown
  obtain ⟨hnamed, hbeyond⟩ := h.of_append haround
  have hplain : '<' ∉ lastLine outer.lookupName.toList := by
    rw [hbeyond.lastLine_lookupName hnamed, hbeyond.bracket_mem_iff hnamed]
    rintro ⟨further, hfurther, hsome⟩
    exact hsome (houters further hfurther)
  have hflush := hbeyond.flush hnamed
  rw [displayName, hname, hnamed.lookupNameOf_append_iff hlist,
    hnamed.lookupNameOf_global_append_iff hlist]
  exact ⟨⟨hbeyond.unprefixed hnamed, hflush, .inr hplain⟩, hflush, .inr hplain⟩

end Symbol.Declaration

namespace Generator
open Symbol.Declaration

/-- A name is resolved to a type, or to one that counts as it. -/
def Resolves (g : Generator) (name : String) (s : TypeSymbol) : Prop :=
  ∃ x, (g.resolveType name).1 = .ok (some x) ∧ CountsAs x s

section
variable {c : Config} {t : SymbolTable} {orders : List Order} {name : String} {s : TypeSymbol}
variable (h : Declare c t orders) (ht : t.Keyed) (hs : (name, s) ∈ t)
include h ht hs

/-- A type of the table is what those names are resolved to that stand for its lookup name. -/
theorem Declare.resolves_iff (spelled : String) :
    (follow orders { config := c }).Resolves spelled s ↔ lookupNameOf spelled = s.lookupName := by
  rw [Resolves, resolveType_eq]
  constructor
  · rintro ⟨x, hx, hsame⟩
    obtain ⟨-, -, hname, -⟩ := h.exists_held ht (Except.ok.inj hx)
    rw [← hname]
    exact (of_outline_eq (SymbolTable.outline_eq_of_countsAs hsame)).2.1
  · intro hspelled
    obtain ⟨N, hN⟩ := h.exists_bounded
    have hheld := hN.heldType_same c name
    rw [Supplies.type, h.last, Table.get?_of_mem ht.nodup hs] at hheld
    rw [hspelled, ht.lookupName name s hs]
    rcases hheld with heq | heq
    · exact ⟨s, by rw [heq], .inl rfl⟩
    · cases hx : (follow orders { config := c }).heldType name with
      | none =>
        rw [hx] at heq
        cases heq
      | some x =>
        rw [hx] at heq
        exact ⟨x, rfl, .inr heq⟩

end

/-- By which of its names a type is found, whatever is given of what it stands in. -/
structure NamesFound (g : Generator) (s : TypeSymbol) : Prop where
  lookupName : g.Resolves s.lookupName s ↔ s.Unprefixed ∧ s.Flush
  qualifiedName : g.Resolves s.qualifiedName s ↔ s.Unprefixed ∧ s.Flush ∧ s.Unbracketed
  displayName : g.Resolves s.displayName s ↔ s.Flush ∧ s.Unbracketed

/-- Where the names of a type lead that has these types around it, innermost first. -/
structure NamesLead (g : Generator) (s : TypeSymbol) (around : List Symbol.Declaration) : Prop where
  lookupName : g.Resolves s.lookupName s
  qualifiedName : g.Resolves s.qualifiedName s ↔
    s.typeParameters = [] ∨ ∀ outer ∈ around, outer.typeParameters = []
  displayName : g.Resolves s.displayName s ↔
    s.typeParameters = [] ∨ ∀ outer ∈ around, outer.typeParameters = []
  /-- Names of a type with type parameters lead to the outermost type around it that has some. -/
  astray : ∀ inner outer outers, around = inner ++ outer :: outers → s.typeParameters ≠ [] →
    outer.typeParameters ≠ [] → (∀ further ∈ outers, further.typeParameters = []) →
      (g.resolveType s.qualifiedName).1 = (g.resolveType outer.lookupName).1 ∧
      (g.resolveType s.displayName).1 = (g.resolveType outer.lookupName).1

theorem Declare.namesFound {c : Config} {t : SymbolTable} {orders : List Order}
    (h : Declare c t orders) (ht : t.Keyed) {name : String} {s : TypeSymbol} (hs : (name, s) ∈ t)
    (hnamed : s.Named) : (follow orders { config := c }).NamesFound s where
  lookupName := by rw [h.resolves_iff ht hs, hnamed.lookupNameOf_lookupName_iff]
  qualifiedName := by rw [h.resolves_iff ht hs, hnamed.lookupNameOf_qualifiedName_iff]
  displayName := by rw [h.resolves_iff ht hs, hnamed.lookupNameOf_displayName_iff]

theorem NamesFound.lead {g : Generator} {s : TypeSymbol} (h : g.NamesFound s) (hnamed : s.Named)
    {around : List Symbol.Declaration} (haround : s.StandsIn around) : g.NamesLead s around := by
  have hflush := haround.flush hnamed
  have hunprefixed := haround.unprefixed hnamed
  refine ⟨h.lookupName.mpr ⟨hunprefixed, hflush⟩, ?_, ?_,
    fun inner outer outers hparts hown hparameters houters => ?_⟩
  · rw [h.qualifiedName, and_iff_right hunprefixed, and_iff_right hflush,
      haround.unbracketed_iff hnamed]
  · rw [h.displayName, and_iff_right hflush, haround.unbracketed_iff hnamed]
  · obtain ⟨hqualified, hdisplay⟩ :=
      haround.lookupNameOf_outermost hnamed hparts hparameters hown houters
    obtain ⟨houter, hbeyond⟩ := haround.of_append hparts
    have hitself := hbeyond.lookupNameOf_lookupName houter
    simp only [resolveType_eq, hqualified, hdisplay, hitself, and_self]

/-- By which of its names each type of a document is found. A type that stands in types and a
namespace is found by its lookup name, and by the others just if not both it and a type around it
have type parameters. -/
theorem own_names_lead (c : Config) {read : SymbolTable.Reader} {document : Json}
    {t : SymbolTable} (ht : SymbolTable.ofDocument read document = .ok t) {name : String}
    {s : TypeSymbol}
    (hs : (name, s) ∈ t) (hnamed : s.Named) {orders : List Order} (h : Declare c t orders) :
    (follow orders { config := c }).NamesFound s ∧
      ∀ around, s.StandsIn around → (follow orders { config := c }).NamesLead s around := by
  have hfound := h.namesFound (SymbolTable.keyed_ofDocument ht) hs hnamed
  exact ⟨hfound, fun _ haround => hfound.lead hnamed haround⟩

namespace Crate

def config : Config := { projectRoot := "/game" }

/-- A crate with a type parameter, and in it a slot with another. -/
def document : Json :=
  .object [("types", .list [
    .object [("name", .text "Crate"), ("type_parameters", .list [.text "T"])],
    .object [("name", .text "Slot"), ("containing_type", .text "Crate<T>"),
      ("type_parameters", .list [.text "U"])]])]

def crate : TypeSymbol := { name := "Crate", typeParameters := ["T"] }

def slot : TypeSymbol :=
  { name := "Slot", containingType := some "Crate<T>", typeParameters := ["U"] }

def table : SymbolTable := [("Crate", crate), ("Crate<T>.Slot", slot)]

theorem ofDocument_document : SymbolTable.ofDocument Symbol.reader document = .ok table := by rfl

def orders : List Order := [.replaceSymbols table]

theorem declare : Declare config table orders where
  nodup t' ht' := by
    obtain rfl : t' = table := by simpa [orders] using ht'
    decide
  last := rfl

theorem isName {s : String} (hs : s ∈ ["Crate", "T", "Slot", "U"]) : IsName s := by
  have hnames : ∀ s ∈ ["Crate", "T", "Slot", "U"], s ≠ "" ∧ s.toList.all
      (fun c => !Text.isBlank c && c != '<' && c != '>' && c != ':') = true := by decide
  obtain ⟨hfilled, hplain⟩ := hnames s hs
  exact ⟨hfilled, fun c hc => by simpa [and_assoc] using List.all_eq_true.mp hplain c hc⟩

theorem named_crate : crate.Named where
  name := isName (by decide)
  typeParameters parameter hparameter := isName (by simp_all [crate])

theorem named_slot : slot.Named where
  name := isName (by decide)
  typeParameters parameter hparameter := isName (by simp_all [slot])

theorem standsIn_slot : slot.StandsIn [crate.toDeclaration] :=
  .type (by rfl) named_crate (.space rfl (.inl rfl))

/-- The qualified name of the slot is resolved to the crate. -/
theorem slot_taken_for_crate : SymbolTable.ofDocument Symbol.reader document = .ok table ∧
    ("Crate<T>.Slot", slot) ∈ table ∧ slot.Named ∧ slot.StandsIn [crate.toDeclaration] ∧
    Declare config table orders ∧
    ¬ (follow orders { config := config }).Resolves slot.qualifiedName slot ∧
    (follow orders { config := config }).Resolves slot.qualifiedName crate := by
  have hkeyed := SymbolTable.keyed_ofDocument ofDocument_document
  have hslot : ("Crate<T>.Slot", slot) ∈ table := by simp [table]
  have hcrate : ("Crate", crate) ∈ table := by simp [table]
  refine ⟨ofDocument_document, hslot, named_slot, standsIn_slot, declare, ?_, ?_⟩
  · rw [declare.resolves_iff hkeyed hslot]
    decide
  · rw [declare.resolves_iff hkeyed hcrate]
    decide

theorem own_names_lead_slot : SymbolTable.ofDocument Symbol.reader document = .ok table ∧
    ("Crate<T>.Slot", slot) ∈ table ∧ slot.Named ∧ Declare config table orders ∧
    (follow orders { config := config }).NamesFound slot ∧
    (follow orders { config := config }).NamesLead slot [crate.toDeclaration] := by
  have hslot : ("Crate<T>.Slot", slot) ∈ table := by simp [table]
  obtain ⟨hfound, hlead⟩ := own_names_lead config ofDocument_document hslot named_slot declare
  exact ⟨ofDocument_document, hslot, named_slot, declare, hfound, hlead _ standsIn_slot⟩

end Crate
end Generator
end SceneCodegen
