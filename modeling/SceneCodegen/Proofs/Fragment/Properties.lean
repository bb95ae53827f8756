import Mathlib.Data.List.Pairwise
import SceneCodegen.Proofs.Fragment.Depths
import SceneCodegen.Proofs.Fragment.Identifiers
import SceneCodegen.Proofs.Scan.Nesting
import SceneCodegen.Symbol.Document

/-!
# Notify properties

The property for a field has the letters and digits of the field's name, each raised that begins a
part of it. Fields with different names may come to one property, which may be what another field is
named, and a name whose first letter or digit is a digit comes to no identifier.
-/
namespace SceneCodegen.Fragment

/-- The letters and digits of a name, read from left to right. One is raised if it is the first or
if the character before it is neither a letter nor a digit. -/
def raised (start : Bool) : List Char → List Char
  | [] => []
  | c :: rest =>
    if c.isAlphanum then (if start then c.toUpper else c) :: raised false rest
    else raised true rest

def raiseFirst : List Char → List Char
  | [] => []
  | c :: rest => c.toUpper :: rest

theorem flatMap_raiseFirst (cs : List Char) : ∃ part parts,
    Text.fields '_' (cs.map blur) = part :: parts ∧
      raised true cs = (part :: parts).flatMap raiseFirst ∧
      raised false cs = part ++ parts.flatMap raiseFirst := by
  induction cs with
  | nil => exact ⟨[], [], rfl, rfl, rfl⟩
  | cons c rest ih =>
    obtain ⟨part, parts, hfields, htrue, hfalse⟩ := ih
    rw [List.map_cons, Text.fields]
    cases hc : c.isAlphanum with
    | false =>
      refine ⟨[], part :: parts, ?_, ?_, ?_⟩
      · rw [if_pos (beq_iff_eq.mpr (blur_eq_underscore.mpr hc)), hfields]
      · rw [raised, hc, if_neg Bool.false_ne_true, htrue]
        rfl
      · rw [raised, hc, if_neg Bool.false_ne_true, htrue]
        rfl
    | true =>
      have hother : blur c ≠ '_' := by
        rw [Ne, blur_eq_underscore, hc]
        decide
      refine ⟨c :: part, parts, ?_, ?_, ?_⟩
      · rw [if_neg (mt beq_iff_eq.mp hother), hfields, blur_of_isAlphanum hc]
      · rw [raised, hc, if_pos rfl, if_pos rfl, hfalse]
        rfl
      · rw [raised, hc, if_pos rfl, if_neg Bool.false_ne_true, hfalse]
        rfl

theorem toList_pascalCase (name : String) : (pascalCase name).toList = raised true name.toList := by
  obtain ⟨part, parts, hfields, htrue, -⟩ := flatMap_raiseFirst name.toList
  have hparts : (pascalCase name).toList =
      (Text.fields '_' (name.toList.map blur)).flatMap raiseFirst := String.toList_ofList
  rw [hparts, hfields, htrue]

theorem pascalCase_eq_empty {name : String} :
    pascalCase name = "" ↔ raised true name.toList = [] := by
  rw [← toList_pascalCase, ← String.toList_inj]
  rfl

theorem pascalCase_eq_iff {a b : String} :
    pascalCase a = pascalCase b ↔ raised true a.toList = raised true b.toList := by
  rw [← toList_pascalCase, ← toList_pascalCase, String.toList_inj]

theorem isAlpha_of_isLower {c : Char} (h : c.isLower = true) : c.isAlpha = true :=
  Bool.or_eq_true_iff.mpr (.inr h)

theorem isUpper_toUpper {c : Char} (h : c.isAlpha = true) : c.toUpper.isUpper = true := by
  by_cases hlower : c.isLower = true
  · exact (toUpper_of_isLower hlower).1
  · rw [toUpper_of_not_isLower hlower]
    exact (Bool.or_eq_true_iff.mp h).resolve_right hlower

theorem isAlpha_toUpper (c : Char) : c.toUpper.isAlpha = c.isAlpha := by
  by_cases hlower : c.isLower = true
  · rw [isAlpha_of_isLower hlower]
    exact Bool.or_eq_true_iff.mpr (.inl (toUpper_of_isLower hlower).1)
  · rw [toUpper_of_not_isLower hlower]

theorem isAlphanum_toUpper (c : Char) : c.toUpper.isAlphanum = c.isAlphanum := by
  by_cases hlower : c.isLower = true
  · have halpha := isAlpha_of_isLower hlower
    rw [Char.isAlphanum, isAlpha_toUpper, halpha, Char.isAlphanum, halpha, Bool.true_or,
      Bool.true_or]
  · rw [toUpper_of_not_isLower hlower]

theorem toUpper_toUpper (c : Char) : c.toUpper.toUpper = c.toUpper := by
  by_cases hlower : c.isLower = true
  · have hupper := (toUpper_of_isLower hlower).1
    refine toUpper_of_not_isLower fun hagain => ?_
    have hlast := (of_decide_eq_true hupper).2
    exact absurd (UInt32.le_trans (isLower_iff.mp hagain).1 hlast) (by decide)
  · rw [toUpper_of_not_isLower hlower, toUpper_of_not_isLower hlower]

theorem isAlphanum_of_mem_raised {start : Bool} {cs : List Char} {c : Char}
    (h : c ∈ raised start cs) : c.isAlphanum = true := by
  induction cs generalizing start with
  | nil => cases h
  | cons d rest ih =>
    rw [raised] at h
    split at h
    · rename_i hd
      rcases List.mem_cons.mp h with rfl | h
      · split
        · rwa [isAlphanum_toUpper]
        · exact hd
      · exact ih h
    · exact ih h

/-- What was raised starts with the first letter or digit. -/
theorem head?_raised (cs : List Char) :
    (raised true cs).head? = (cs.find? Char.isAlphanum).map Char.toUpper := by
  induction cs with
  | nil => rfl
  | cons c rest ih =>
    rw [raised, List.find?_cons]
    cases c.isAlphanum with
    | true => rfl
    | false => exact ih

theorem raised_of_isAlphanum {cs : List Char} (h : ∀ c ∈ cs, c.isAlphanum = true) :
    raised false cs = cs := by
  induction cs with
  | nil => rfl
  | cons c rest ih =>
    rw [List.forall_mem_cons] at h
    rw [raised, if_pos h.1, ih h.2]
    rfl

/-- Raising what was raised changes nothing. -/
theorem raised_raised (cs : List Char) : raised true (raised true cs) = raised true cs := by
  have hhead := head?_raised cs
  have hall : ∀ c ∈ raised true cs, c.isAlphanum = true := fun _ => isAlphanum_of_mem_raised
  cases hraised : raised true cs with
  | nil => rfl
  | cons d rest =>
    rw [hraised] at hhead hall
    obtain ⟨c, -, rfl⟩ := Option.map_eq_some_iff.mp hhead.symm
    rw [List.forall_mem_cons] at hall
    rw [raised, if_pos hall.1, raised_of_isAlphanum hall.2, if_pos rfl,
      toUpper_toUpper]

theorem isAlphanum_of_mem_pascalCase {name : String} {c : Char}
    (h : c ∈ (pascalCase name).toList) : c.isAlphanum = true := by
  rw [toList_pascalCase] at h
  exact isAlphanum_of_mem_raised h

theorem pascalCase_pascalCase (name : String) : pascalCase (pascalCase name) = pascalCase name := by
  rw [pascalCase_eq_iff, toList_pascalCase, raised_raised]

/-- The first letter or digit of a name is a letter. -/
def LetterFirst (name : String) : Prop :=
  ∃ c, name.toList.find? Char.isAlphanum = some c ∧ c.isAlpha = true

/-- No reserved word begins with a capital letter. -/
theorem isUpper_head_of_mem_reservedWords : ∀ word ∈ reservedWords, ∀ c,
    word.toList.head? = some c → c.isUpper = false := by
  have hall : ∀ word ∈ reservedWords, (word.toList.head?.any Char.isUpper) = false := by
    decide +kernel
  intro word hword c hc
  simpa [hc] using hall word hword

/-- Letters and digits are a word if the first is a letter. -/
theorem isWord_of_isAlphanum {c : Char} {rest : List Char}
    (h : ∀ d ∈ c :: rest, d.isAlphanum = true) : isWord (c :: rest) = c.isAlpha := by
  rw [List.forall_mem_cons] at h
  have hunderscore : (c == '_') = false := by
    rw [beq_eq_false_iff_ne]
    rintro rfl
    cases h.1
  have hrest : (rest.all fun d => d.isAlphanum || d == '_') = true := by
    rw [List.all_eq_true]
    intro d hd
    rw [h.2 d hd, Bool.true_or]
  rw [isWord, hunderscore, hrest, Bool.or_false, Bool.and_true]

theorem isWord_pascalCase {name : String} :
    isWord (pascalCase name).toList = true ↔ LetterFirst name := by
  have hhead := head?_raised name.toList
  have hall : ∀ c ∈ (pascalCase name).toList, c.isAlphanum = true :=
    fun _ => isAlphanum_of_mem_pascalCase
  rw [← toList_pascalCase] at hhead
  rw [LetterFirst]
  cases hchars : (pascalCase name).toList with
  | nil =>
    rw [hchars, List.head?_nil, eq_comm, Option.map_eq_none_iff] at hhead
    rw [hhead]
    exact iff_of_false Bool.false_ne_true nofun
  | cons d rest =>
    rw [hchars] at hhead hall
    obtain ⟨c, hfound, rfl⟩ := Option.map_eq_some_iff.mp hhead.symm
    rw [isWord_of_isAlphanum hall, isAlpha_toUpper, hfound]
    simp

theorem isIdentifier_pascalCase {name : String} :
    IsIdentifier (pascalCase name) ↔ LetterFirst name := by
  rw [← isWord_pascalCase]
  constructor
  · rintro (⟨hword, -⟩ | ⟨word, -, hat⟩)
    · exact hword
    · have hfirst : '@' ∈ (pascalCase name).toList := by
        rw [hat, String.toList_append]
        exact List.mem_cons_self
      cases isAlphanum_of_mem_pascalCase hfirst
  · intro hword
    refine .inl ⟨hword, fun hreserved => ?_⟩
    obtain ⟨c, hfound, halpha⟩ := isWord_pascalCase.mp hword
    have hhead : (pascalCase name).toList.head? = some c.toUpper := by
      rw [toList_pascalCase, head?_raised, hfound, Option.map_some]
    have hlower := isUpper_head_of_mem_reservedWords _ hreserved _ hhead
    exact absurd (isUpper_toUpper halpha) (by rw [hlower]; decide)

def propertyOf? (m : DeclaredMember) : Option String :=
  if pascalCase m.name == "" || pascalCase m.name == m.name then none else some (pascalCase m.name)

def propertyNames (c : ScannedClass) : List String :=
  (c.membersOf .notifyField).filterMap propertyOf?

/-- The name of the property that a line declares; events and hooks end with a semicolon. -/
def propertyName? (line : String) : Option String :=
  if line.toList.getLast? = some ';' then none else some (Text.afterLast ' ' line)

theorem propertyOf?_eq_some {m : DeclaredMember} {property : String} :
    propertyOf? m = some property ↔
      property = pascalCase m.name ∧ property ≠ "" ∧ property ≠ m.name := by
  rw [propertyOf?, Option.ite_none_left_eq_some, Option.some.injEq, Bool.or_eq_true, beq_iff_eq,
    beq_iff_eq, not_or]
  constructor
  · rintro ⟨h, rfl⟩
    exact ⟨rfl, h⟩
  · rintro ⟨rfl, h⟩
    exact ⟨h, rfl⟩

theorem afterLast_space {front part : String} (h : ' ' ∉ part.toList) :
    Text.afterLast ' ' (front ++ " " ++ part) = part := by
  have hkept : ∀ c ∈ part.toList.reverse, (c != ' ') = true := by
    intro c hc
    exact bne_iff_ne.mpr fun hspace => h (hspace ▸ List.mem_reverse.mp hc)
  have hline : (front ++ " " ++ part).toList.reverse =
      part.toList.reverse ++ ' ' :: front.toList.reverse := by
    simp [String.toList_append]
  rw [Text.afterLast, hline, List.takeWhile_append_of_pos hkept,
    List.takeWhile_cons_of_neg (by simp), List.append_nil, List.reverse_reverse,
    String.ofList_toList]

theorem propertyName?_semicolon (front : String) {ending : String}
    (h : ending.toList.getLast? = some ';') : propertyName? (front ++ ending) = none := by
  rw [propertyName?, if_pos]
  rw [String.toList_append, List.getLast?_append, h, Option.some_or]

theorem propertyName?_property (front : String) {name : String} (h : pascalCase name ≠ "") :
    propertyName? (front ++ " " ++ pascalCase name) = some (pascalCase name) := by
  have hlast : (front ++ " " ++ pascalCase name).toList.getLast? ≠ some ';' := by
    rw [String.toList_append, List.getLast?_append]
    cases hchars : (pascalCase name).toList.getLast? with
    | none => exact absurd (String.toList_inj.mp (List.getLast?_eq_none_iff.mp hchars)) h
    | some c =>
      rintro ⟨⟩
      cases isAlphanum_of_mem_pascalCase (List.mem_of_getLast? hchars)
  rw [propertyName?, if_neg hlast, afterLast_space]
  intro hspace
  cases isAlphanum_of_mem_pascalCase hspace

theorem filterMap_notifyMembersOf (margin : String) (m : DeclaredMember) :
    (notifyMembersOf margin m).filterMap propertyName? = (propertyOf? m).toList := by
  rw [notifyMembersOf, propertyOf?]
  split
  · rfl
  · rename_i hproperty
    rw [Bool.or_eq_true, beq_iff_eq, beq_iff_eq, not_or] at hproperty
    dsimp only [propertyMembers]
    rw [List.filterMap_cons_none (propertyName?_semicolon _ (by decide)),
      List.filterMap_cons_none (propertyName?_semicolon _ (by decide)),
      List.filterMap_cons_none (propertyName?_semicolon _ (by decide)),
      List.filterMap_cons_some (propertyName?_property _ hproperty.1)]
    rfl

/-- Reading the declarations of a file gives the properties. -/
theorem filterMap_notifyMembers (c : ScannedClass) :
    (notifyMembers c).filterMap propertyName? = propertyNames c := by
  rw [notifyMembers, List.filterMap_flatMap, propertyNames, List.filterMap_eq_flatMap_toList]
  simp only [filterMap_notifyMembersOf]

theorem notifyLines_eq_nil {margin : String} {m : DeclaredMember} :
    notifyLines margin m = [] ↔ propertyOf? m = none := by
  rw [notifyLines, propertyOf?]
  split
  · exact iff_of_true rfl rfl
  · simp [propertyLines]

/-- How far the declarations in a class are indented. -/
def memberMargin (c : ScannedClass) : String :=
  (if c.nameSpace == "" then "" else indent) ++ indent

theorem renderNotify_eq_none {c : ScannedClass} :
    renderNotify c = none ↔ c.isNested = true ∨ propertyNames c = [] := by
  have hbody : ((c.membersOf .notifyField).flatMap (notifyLines (memberMargin c))).isEmpty = true ↔
      propertyNames c = [] := by
    rw [List.isEmpty_iff, List.flatMap_eq_nil_iff, propertyNames, List.filterMap_eq_nil_iff]
    simp only [notifyLines_eq_nil]
  rw [← hbody, renderNotify]
  by_cases hnested : c.isNested = true
  · simp [hnested]
  · rw [if_neg hnested, ite_eq_left_iff]
    simp only [memberMargin, reduceCtorEq, imp_false, not_not, hnested, false_or]

/-- A property of a class has a line of its own in the file. -/
theorem exists_property_line {c : ScannedClass} {f : GeneratedFragment}
    (hf : renderNotify c = some f) {m : DeclaredMember} (hm : m ∈ c.membersOf .notifyField)
    {property : String} (hproperty : propertyOf? m = some property) : ∃ before after : String,
      f.text = before ++ (memberMargin c ++ "public " ++ m.type ++ " " ++ property) ++ "\n" ++
        after := by
  obtain ⟨rfl, hne, hother⟩ := propertyOf?_eq_some.mp hproperty
  simp only [renderNotify, Option.ite_none_left_eq_some, Option.some.injEq] at hf
  obtain ⟨-, -, rfl⟩ := hf
  refine exists_text_eq _ ?_ ?_
  · split
    · rw [List.append_nil]
      exact (endsFilled_brace _).append _
    · exact (endsFilled_brace "").append _
  · refine List.mem_append_left _ (List.mem_append_left _ (List.mem_append_right _ ?_))
    refine mem_dropEmptyEnd ?_ (List.mem_flatMap.mpr ⟨m, hm, ?_⟩)
    · rw [Ne, ← String.toList_inj]
      simp
    · rw [notifyLines, if_neg (by simp [hne, hother])]
      simp [propertyLines, memberMargin]

/-- Two fields whose names hold different letters and digits, or none. -/
def Apart (m m' : DeclaredMember) : Prop :=
  raised true m.name.toList = raised true m'.name.toList → raised true m.name.toList = []

instance : Std.Symm Apart := ⟨fun _ _ h hsame => hsame.trans (h hsame.symm)⟩

theorem apart_iff {m m' : DeclaredMember} :
    Apart m m' ↔ (pascalCase m.name = pascalCase m'.name → pascalCase m.name = "") := by
  rw [Apart, pascalCase_eq_iff, pascalCase_eq_empty]

section
variable {fields : List DeclaredMember}

theorem nodup_of_pairwise_apart (h : fields.Pairwise Apart) :
    (fields.filterMap propertyOf?).Nodup := by
  rw [List.Nodup, List.pairwise_filterMap]
  refine h.imp fun {m m'} hapart p hp p' hp' hsame => ?_
  obtain ⟨rfl, hne, -⟩ := propertyOf?_eq_some.mp hp
  obtain ⟨rfl, -, -⟩ := propertyOf?_eq_some.mp hp'
  exact hne (apart_iff.mp hapart hsame)

/-- A property that is named like another field is the property which that field would have. -/
theorem ne_of_pairwise_apart (h : fields.Pairwise Apart) {property : String}
    (hproperty : property ∈ fields.filterMap propertyOf?) {m : DeclaredMember} (hm : m ∈ fields) :
    property ≠ m.name := by
  obtain ⟨field, hfield, hsome⟩ := List.mem_filterMap.mp hproperty
  obtain ⟨rfl, hne, hother⟩ := propertyOf?_eq_some.mp hsome
  intro hname
  have hfields : field ≠ m := by
    rintro rfl
    exact hother hname
  have hsame : pascalCase field.name = pascalCase m.name := by
    rw [← hname, pascalCase_pascalCase]
  exact hne (apart_iff.mp (h.forall hfield hm hfields) hsame)

theorem pairwise_apart (hnames : (fields.map (·.name)).Nodup)
    (hdistinct : (fields.filterMap propertyOf?).Nodup)
    (hothers : ∀ property ∈ fields.filterMap propertyOf?, ∀ m ∈ fields, property ≠ m.name) :
    fields.Pairwise Apart := by
  rw [List.Nodup, List.pairwise_map] at hnames
  rw [List.Nodup, List.pairwise_filterMap] at hdistinct
  have hboth := List.pairwise_and_iff.mpr ⟨hnames, hdistinct⟩
  refine hboth.imp_of_mem fun {m m'} hm hm' h => apart_iff.mpr fun hsame => ?_
  obtain ⟨hname, hproperties⟩ := h
  by_contra hne
  -- A field has the property, unless it has that name already.
  have hself {field : DeclaredMember} (hfield : field ∈ fields)
      (hcase : pascalCase field.name = pascalCase m.name) {other : DeclaredMember}
      (hother : other ∈ fields) (hnamed : pascalCase m.name = other.name) :
      pascalCase m.name = field.name := by
    by_contra hunlike
    have hsome : propertyOf? field = some (pascalCase m.name) :=
      propertyOf?_eq_some.mpr ⟨hcase.symm, hne, hunlike⟩
    exact hothers _ (List.mem_filterMap.mpr ⟨field, hfield, hsome⟩) other hother hnamed
  by_cases hm_named : pascalCase m.name = m.name
  · exact hname (hm_named.symm.trans (hself hm' hsame.symm hm hm_named))
  · by_cases hm'_named : pascalCase m.name = m'.name
    · exact hm_named (hself hm rfl hm' hm'_named)
    · exact hproperties _ (propertyOf?_eq_some.mpr ⟨rfl, hne, hm_named⟩) _
        (propertyOf?_eq_some.mpr ⟨hsame, hne, hm'_named⟩) rfl

end

/-- An underscore and a small letter, and after them letters and digits. -/
def IsPrivate (name : String) : Prop :=
  ∃ c rest, name.toList = '_' :: c :: rest ∧ c.isLower = true ∧ ∀ d ∈ rest, d.isAlphanum = true

theorem raised_private {c : Char} {rest : List Char} (hc : c.isLower = true)
    (hrest : ∀ d ∈ rest, d.isAlphanum = true) :
    raised true ('_' :: c :: rest) = c.toUpper :: rest := by
  have halphanum : c.isAlphanum = true := by
    rw [Char.isAlphanum, isAlpha_of_isLower hc, Bool.true_or]
  rw [raised, if_neg (by decide), raised, if_pos halphanum, raised_of_isAlphanum hrest, if_pos rfl]

theorem letterFirst_of_isPrivate {name : String} (h : IsPrivate name) : LetterFirst name := by
  obtain ⟨c, rest, hname, hc, -⟩ := h
  have halpha := isAlpha_of_isLower hc
  refine ⟨c, ?_, halpha⟩
  rw [hname, List.find?_cons_of_neg (by decide), List.find?_cons_of_pos]
  rw [Char.isAlphanum, halpha, Bool.true_or]

theorem toUpper_inj_of_isLower {c d : Char} (hc : c.isLower = true) (hd : d.isLower = true)
    (h : c.toUpper = d.toUpper) : c = d := by
  have hback := (toUpper_of_isLower hc).2
  rw [h, (toUpper_of_isLower hd).2] at hback
  exact Char.ext (UInt32.toNat_inj.mp hback.symm)

theorem apart_of_isPrivate {m m' : DeclaredMember} (h : IsPrivate m.name) (h' : IsPrivate m'.name)
    (hne : m.name ≠ m'.name) : Apart m m' := by
  obtain ⟨c, rest, hname, hc, hrest⟩ := h
  obtain ⟨d, rest', hname', hd, hrest'⟩ := h'
  intro hsame
  rw [hname, hname', raised_private hc hrest, raised_private hd hrest', List.cons.injEq] at hsame
  obtain ⟨hupper, rfl⟩ := hsame
  obtain rfl := toUpper_inj_of_isLower hc hd hupper
  exact absurd (String.toList_inj.mp (hname.trans hname'.symm)) hne

/-- The properties for the fields of a class are in the file, each with a line of its own, and no
others are declared. They have distinct names that no field has just if no two fields hold the same
letters and digits, as private fields never do, and all names are identifiers just if the first
letter or digit of each field with a property is a letter. -/
theorem properties_declarable {c : ScannedClass}
    (hnames : ((c.membersOf .notifyField).map (·.name)).Nodup) :
    (renderNotify c = none ↔ c.isNested = true ∨ propertyNames c = []) ∧
    (∀ f, renderNotify c = some f →
      (∀ m ∈ c.membersOf .notifyField, ∀ property, propertyOf? m = some property →
        ∃ before after : String, f.text =
          before ++ (memberMargin c ++ "public " ++ m.type ++ " " ++ property) ++ "\n" ++ after) ∧
      (TameClass c → ∃ lines,
        Declares (blocks c.nameSpace + c.containingDeclarations.length + 1) f.text lines ∧
          lines.filterMap propertyName? = propertyNames c)) ∧
    (((propertyNames c).Nodup ∧
        ∀ property ∈ propertyNames c, ∀ m ∈ c.membersOf .notifyField, property ≠ m.name) ↔
      (c.membersOf .notifyField).Pairwise Apart) ∧
    ((∀ property ∈ propertyNames c, IsIdentifier property) ↔
      ∀ m ∈ c.membersOf .notifyField, propertyOf? m ≠ none → LetterFirst m.name) ∧
    ((∀ m ∈ c.membersOf .notifyField, IsPrivate m.name) →
      (c.membersOf .notifyField).Pairwise Apart ∧
        ∀ m ∈ c.membersOf .notifyField, LetterFirst m.name) := by
  refine ⟨renderNotify_eq_none, fun f hf => ⟨?_, ?_⟩, ⟨?_, ?_⟩, ?_, fun hprivate => ⟨?_, ?_⟩⟩
  · exact fun m hm property hproperty => exists_property_line hf hm hproperty
  · exact fun htame => ⟨_, declares_notify htame hf, filterMap_notifyMembers c⟩
  · rintro ⟨hdistinct, hothers⟩
    exact pairwise_apart hnames hdistinct hothers
  · intro hapart
    exact ⟨nodup_of_pairwise_apart hapart,
      fun property hproperty m hm => ne_of_pairwise_apart hapart hproperty hm⟩
  · simp only [propertyNames, List.forall_mem_filterMap, Option.ne_none_iff_exists',
      forall_exists_index]
    refine forall₂_congr fun m _ => forall₂_congr fun property hproperty => ?_
    rw [(propertyOf?_eq_some.mp hproperty).1, isIdentifier_pascalCase]
  · rw [List.Nodup, List.pairwise_map] at hnames
    exact hnames.imp_of_mem fun {m m'} hm hm' hne =>
      apart_of_isPrivate (hprivate m hm) (hprivate m' hm') hne
  · exact fun m hm => letterFirst_of_isPrivate (hprivate m hm)

namespace Stats

def document (fields : List String) : Json :=
  .object [("types", .list [.object [("name", .text "Stats"), ("namespace", .text "Game"),
    ("members", .list (fields.map fun name => .object [("kind", .text "field"),
      ("name", .text name), ("type", .text "int"),
      ("markers", .list [.object [("name", .text Scan.notifyMarker)]])]))]])]

def member (name : String) : Symbol.Member :=
  { kind := .field, name, type := "int", markers := [⟨Scan.notifyMarker, [], []⟩] }

def stats (fields : List String) : TypeSymbol :=
  { name := "Stats", nameSpace := "Game", members := fields.map member }

def table (fields : List String) : SymbolTable := [("Game.Stats", stats fields)]

def scanned (fields : List String) : ScannedClass :=
  Scan.scannedAmong (.ofTable (table fields)) (stats fields)

def field (name : String) : DeclaredMember :=
  { kind := .notifyField, owner := "Game.Stats", name, type := "int"
    markerArgs := [.bool false, .bool false], symbolKind := "field" }

theorem members_scanned (fields : List String) : (scanned fields).members = fields.map field := by
  have hone (name : String) :
      Scan.markedMembersOf (stats fields) false (member name) = [field name] := rfl
  show (fields.map member).flatMap (Scan.markedMembersOf (stats fields) false) = _
  rw [List.flatMap_map]
  simp only [hone]
  exact (List.map_eq_flatMap ..).symm

theorem membersOf_scanned (fields : List String) :
    (scanned fields).membersOf .notifyField = fields.map field := by
  rw [ScannedClass.membersOf, members_scanned, List.filter_eq_self]
  intro m hm
  obtain ⟨name, -, rfl⟩ := List.mem_map.mp hm
  rfl

theorem scanClass_stats {fields : List String} (h : fields ≠ []) :
    (Scan.scanClass (.ofTable (table fields)) (stats fields)).run = some (scanned fields) := by
  rw [Scan.scanClass_run, if_pos]
  · rfl
  · obtain ⟨name, rest, rfl⟩ := List.exists_cons_of_ne_nil h
    rfl

theorem containingDeclarations_scanned (fields : List String) :
    (scanned fields).containingDeclarations = [] :=
  containingDeclarations_eq_nil_iff.mpr rfl

theorem tameClass_scanned {fields : List String} (h : ∀ name ∈ fields, Tame name) :
    TameClass (scanned fields) where
  nameSpace := (by decide : Tame "Game")
  name := (by decide : Tame "Stats")
  around d hd := by
    rw [containingDeclarations_scanned] at hd
    cases hd
  members m hm := by
    rw [members_scanned] at hm
    obtain ⟨name, hname, rfl⟩ := List.mem_map.mp hm
    exact ⟨(by decide : Tame "Game.Stats"), h name hname, (by decide : Tame "int"), nofun⟩

theorem propertyNames_scanned (fields : List String) :
    propertyNames (scanned fields) = (fields.map field).filterMap propertyOf? := by
  rw [propertyNames, membersOf_scanned]

/-- The document describes a class with these notify fields, and its file declares these
properties. -/
def Gives (fields properties : List String) : Prop :=
  SymbolTable.ofDocument Symbol.reader (document fields) = .ok (table fields) ∧
  (Scan.scanClass (.ofTable (table fields)) (stats fields)).run = some (scanned fields) ∧
  ((scanned fields).membersOf .notifyField).map (·.name) = fields ∧
  ∃ f lines, renderNotify (scanned fields) = some f ∧ Declares 2 f.text lines ∧
    lines.filterMap propertyName? = properties

theorem gives {fields properties : List String}
    (hdocument : SymbolTable.ofDocument Symbol.reader (document fields) = .ok (table fields))
    (htame : ∀ name ∈ fields, Tame name) (hne : properties ≠ [])
    (hproperties : (fields.map field).filterMap propertyOf? = properties) :
    Gives fields properties := by
  rw [← propertyNames_scanned] at hproperties
  obtain ⟨f, hf⟩ : ∃ f, renderNotify (scanned fields) = some f := by
    rw [← Option.ne_none_iff_exists', Ne, renderNotify_eq_none, hproperties]
    simp [ScannedClass.isNested, containingDeclarations_scanned, hne]
  have hfields : fields ≠ [] := by
    rintro rfl
    exact hne hproperties.symm
  have hdeclares := declares_notify (tameClass_scanned htame) hf
  rw [containingDeclarations_scanned] at hdeclares
  refine ⟨hdocument, scanClass_stats hfields, ?_, f, _, hf, hdeclares, ?_⟩
  · rw [membersOf_scanned, List.map_map]
    exact List.map_id _
  · rw [filterMap_notifyMembers, hproperties]

end Stats

/-- Private fields come to properties that can be declared. -/
theorem properties_declarable_private :
    (((Stats.scanned ["_hp", "_maxSpeed"]).membersOf .notifyField).map (·.name)).Nodup ∧
    propertyNames (Stats.scanned ["_hp", "_maxSpeed"]) = ["Hp", "MaxSpeed"] ∧
    (∀ property ∈ propertyNames (Stats.scanned ["_hp", "_maxSpeed"]), IsIdentifier property ∧
      ∀ m ∈ (Stats.scanned ["_hp", "_maxSpeed"]).membersOf .notifyField, property ≠ m.name) := by
  have hnames : (((Stats.scanned ["_hp", "_maxSpeed"]).membersOf .notifyField).map
      (·.name)).Nodup := by
    rw [Stats.membersOf_scanned]
    decide
  have hprivate : ∀ m ∈ (Stats.scanned ["_hp", "_maxSpeed"]).membersOf .notifyField,
      IsPrivate m.name := by
    rw [Stats.membersOf_scanned]
    simp only [List.map_cons, List.map_nil, List.forall_mem_cons]
    exact ⟨⟨'h', ['p'], rfl, rfl, by simp⟩,
      ⟨'m', ['a', 'x', 'S', 'p', 'e', 'e', 'd'], rfl, rfl, by simp⟩, nofun⟩
  obtain ⟨-, -, hdistinct, hidentifiers, hall⟩ := properties_declarable hnames
  obtain ⟨hapart, hletters⟩ := hall hprivate
  refine ⟨hnames, ?_, fun property hproperty => ⟨?_, ?_⟩⟩
  · rw [Stats.propertyNames_scanned]
    decide
  · exact hidentifiers.mpr (fun m hm _ => hletters m hm) property hproperty
  · exact (hdistinct.mpr hapart).2 property hproperty

/-- A property may have the name of another field or of another property, and its name may begin
with a digit. -/
theorem properties_not_declarable : Stats.Gives ["hp", "Hp"] ["Hp"] ∧
    Stats.Gives ["_hp", "hp"] ["Hp", "Hp"] ∧
    Stats.Gives ["_1up"] ["1up"] ∧ ¬ IsIdentifier "1up" := by
  refine ⟨Stats.gives (by rfl) (by decide) (by decide) (by decide),
    Stats.gives (by rfl) (by decide) (by decide) (by decide),
    Stats.gives (by rfl) (by decide) (by decide) (by decide), by decide +kernel⟩

end SceneCodegen.Fragment
